import WorkerUnit.DataProcessor.InstanceData

/-!
# The header of a user table

`validateColumns` counts the user columns that the instance has. A name that is
there twice is counted twice, so the count does not tell a permutation from a
header with repetitions.
-/

namespace WorkerUnit.InstanceData

open FileDataBaseAccess

/-- The user table's header is accepted if and only if it is a permutation of the
instance's column names. Then the result is the header, and the matrix has the
instance values of its columns. -/
def AcceptsPermutations (tables : SqliteTables) (inst : Instance) (file : FileDataBaseAccess)
    (header names : List Text) : Prop :=
  ∃ result, validateColumns tables inst header.length file = some result ∧
    (result ≠ none ↔ header.Perm names) ∧
    ∀ columnNames, result = some columnNames → columnNames = header ∧
      ∃ matrix, initlizeData tables inst header.length file = some (0, ⟨inst.totalRows, matrix⟩) ∧
        ∀ c : ℕ, matrix[c]? = header[c]?.map fun name =>
          tables.getColumnValues inst.instanceId name inst.totalRows

/-- The instance has less than 256 columns, and a header of as many, all of them the
instance's, repeats none; or it has more, and the header is no permutation, and has not as
many columns as eight bits hold of the instance's number. -/
def MatchDecides (header names : List Text) : Prop :=
  (names.length < 256 ∧ (header.length = names.length → header ⊆ names → header.Nodup)) ∨
    (256 ≤ names.length ∧ header.length ≠ names.length % 256 ∧ ¬ header.Perm names)

variable {tables : SqliteTables} {disk : Disk} {tableID instanceId line : Text}
  {header names : List Text} {file : FileDataBaseAccess}

theorem getColumnNamesList_of_line (hline : (fileLines disk tableID).head? = some line) :
    (openFile disk tableID .readFile).getColumnNamesList = some (advTokenizer line ',') := by
  simp [getColumnNamesList, openFile, hline]

theorem advTokenizer_ne_nil (line : Text) : advTokenizer line ',' ≠ [] := by
  apply List.ne_nil_of_length_pos
  rw [length_advTokenizer]
  omega

/-- With the right number of columns, those that are found decide. -/
theorem validateColumns_of_length {inst : Instance} (hcolumns : inst.totalColumns = header.length)
    (hnames : tables.columnNames inst.instanceId = some names)
    (hheader : file.getColumnNamesList = some header) (hne : header ≠ [])
    (hlength : header.length = names.length) :
    validateColumns tables inst header.length file =
      some (if (header.filter (· ∈ names)).length ≠ header.length then none
        else some (header.filter (· ∈ names))) := by
  obtain ⟨instanceId, linkedAlgorithm, totalColumns, totalRows⟩ := inst
  dsimp only at hcolumns hnames
  subst hcolumns
  have hfirst : (SqliteTables.filled header.length names).toList = names := by
    rw [SqliteTables.toList_filled hlength.le, hlength, List.take_length]
  simp only [validateColumns, SqliteTables.getColumnNames, hnames, hheader, if_pos hlength.ge,
    ne_eq, not_true_eq_false, if_false, if_neg hne, hfirst, matchColumns_length, Option.map_some]

/-- Names that are too many for the array are written past its end. -/
theorem validateColumns_overrun (file : FileDataBaseAccess) {inst : Instance}
    (hcolumns : inst.totalColumns = header.length)
    (hnames : tables.columnNames inst.instanceId = some names)
    (hlength : header.length < names.length) :
    validateColumns tables inst header.length file = none := by
  obtain ⟨instanceId, linkedAlgorithm, totalColumns, totalRows⟩ := inst
  dsimp only at hcolumns hnames
  subst hcolumns
  simp only [validateColumns, SqliteTables.getColumnNames, hnames, if_neg hlength.not_ge, ne_eq,
    not_true_eq_false, if_false]

theorem initlizeData_of_validateColumns {inst : Instance} {columns : ℤ}
    (h : validateColumns tables inst columns file = some (some header)) :
    initlizeData tables inst columns file = some (0, ⟨inst.totalRows, header.map fun name =>
      tables.getColumnValues inst.instanceId name inst.totalRows⟩) := by
  rw [initlizeData, h]
  rfl

/-- A permutation has as many columns as the instance, and different ones. -/
theorem perm_iff (hnodup : names.Nodup) :
    header.Perm names ↔ (header.length = names.length ∧ header ⊆ names) ∧ header.Nodup := by
  constructor
  · intro hperm
    exact ⟨⟨hperm.length_eq, hperm.subset⟩, hperm.symm.nodup hnodup⟩
  · rintro ⟨⟨hlength, hsub⟩, hheader⟩
    exact (List.subperm_of_subset hheader hsub).perm_of_length_le hlength.ge

section Results

variable {inst : Instance}

/-- A header that is returned is to be a permutation. -/
theorem acceptsPermutations_of_some
    (h : validateColumns tables inst header.length file = some (some header)) :
    AcceptsPermutations tables inst file header names ↔ header.Perm names := by
  constructor
  · rintro ⟨result, hresult, haccepts, _⟩
    cases h.symm.trans hresult
    exact haccepts.mp (Option.some_ne_none _)
  · intro hperm
    refine ⟨some header, h, iff_of_true (Option.some_ne_none _) hperm, ?_⟩
    rintro columnNames ⟨⟩
    exact ⟨rfl, _, initlizeData_of_validateColumns h, fun c => List.getElem?_map⟩

/-- A header that is rejected is to be none. -/
theorem acceptsPermutations_of_null
    (h : validateColumns tables inst header.length file = some none) :
    AcceptsPermutations tables inst file header names ↔ ¬ header.Perm names := by
  constructor
  · rintro ⟨result, hresult, haccepts, _⟩
    cases h.symm.trans hresult
    exact fun hperm => haccepts.mpr hperm rfl
  · intro hperm
    refine ⟨none, h, iff_of_false (fun hne => hne rfl) hperm, ?_⟩
    rintro columnNames ⟨⟩

theorem not_acceptsPermutations (h : validateColumns tables inst header.length file = none) :
    ¬ AcceptsPermutations tables inst file header names := by
  rintro ⟨result, hresult, _⟩
  cases h.symm.trans hresult

theorem validateColumns_of_count (tables : SqliteTables) (file : FileDataBaseAccess)
    (h : inst.totalColumns ≠ header.length) :
    validateColumns tables inst header.length file = some none := by
  have hcount : (inst.totalColumns : ℤ) ≠ header.length := by exact_mod_cast h
  rw [validateColumns, if_pos hcount]

end Results

variable (linkedAlgorithm totalRows : ℕ)

/-- Of less than 256 columns a header of as many is returned when all of them are found. -/
theorem acceptsPermutations_iff_of_few (hnodup : names.Nodup) (hsmall : names.length < 256)
    (hnames : tables.columnNames instanceId = some names)
    (hheader : file.getColumnNamesList = some header) (hne : header ≠ []) :
    AcceptsPermutations tables (.new instanceId linkedAlgorithm names.length totalRows) file
        header names ↔ (header.length = names.length → header ⊆ names → header.Nodup) := by
  have hcolumns : (Instance.new instanceId linkedAlgorithm names.length totalRows).totalColumns =
      names.length := Nat.mod_eq_of_lt hsmall
  by_cases hlength : header.length = names.length
  · have hvalid :=
      validateColumns_of_length (hcolumns.trans hlength.symm) hnames hheader hne hlength
    by_cases hsub : header ⊆ names
    · have hfound : header.filter (· ∈ names) = header :=
        List.filter_eq_self.mpr fun name hname => decide_eq_true (hsub hname)
      rw [hfound, if_neg (not_not.mpr rfl)] at hvalid
      rw [acceptsPermutations_of_some hvalid, perm_iff hnodup]
      simp only [hlength, hsub, true_and, true_implies, and_self]
    · have hfound : (header.filter (· ∈ names)).length ≠ header.length := by
        intro hall
        have hin := List.length_filter_eq_length_iff.mp hall
        exact hsub fun name hname => of_decide_eq_true (hin name hname)
      rw [if_pos hfound] at hvalid
      rw [acceptsPermutations_of_null hvalid, perm_iff hnodup]
      simp only [hsub, and_false, false_and, not_false_eq_true, false_implies, implies_true]
  · have hvalid := validateColumns_of_count tables file (hcolumns.trans_ne (Ne.symm hlength))
    rw [acceptsPermutations_of_null hvalid, perm_iff hnodup]
    simp only [hlength, false_and, not_false_eq_true, false_implies]

/-- Of 256 columns or more a header of the number that is kept makes the names overrun
their array, and every other one is rejected. -/
theorem acceptsPermutations_iff_of_many (hlarge : 256 ≤ names.length)
    (hnames : tables.columnNames instanceId = some names) :
    AcceptsPermutations tables (.new instanceId linkedAlgorithm names.length totalRows) file
        header names ↔ header.length ≠ names.length % 256 ∧ ¬ header.Perm names := by
  have hcolumns : (Instance.new instanceId linkedAlgorithm names.length totalRows).totalColumns =
      names.length % 256 := rfl
  by_cases hlength : header.length = names.length % 256
  · have hover : header.length < names.length := by omega
    have hvalid := validateColumns_overrun file (hcolumns.trans hlength.symm) hnames hover
    exact iff_of_false (not_acceptsPermutations hvalid) (fun h => h.1 hlength)
  · have hvalid := validateColumns_of_count tables file (hcolumns.trans_ne (Ne.symm hlength))
    rw [acceptsPermutations_of_null hvalid]
    simp only [hlength, ne_eq, not_false_eq_true, true_and]

theorem acceptsPermutations_iff (hnodup : names.Nodup)
    (hnames : tables.columnNames instanceId = some names)
    (hline : (fileLines disk tableID).head? = some line) :
    AcceptsPermutations tables (.new instanceId linkedAlgorithm names.length totalRows)
        (openFile disk tableID .readFile) (advTokenizer line ',') names ↔
      MatchDecides (advTokenizer line ',') names := by
  unfold MatchDecides
  rcases lt_or_ge names.length 256 with hsmall | hlarge
  · rw [acceptsPermutations_iff_of_few linkedAlgorithm totalRows hnodup hsmall hnames
      (getColumnNamesList_of_line hline) (advTokenizer_ne_nil line)]
    simp only [hsmall, hsmall.not_ge, true_and, false_and, or_false]
  · rw [acceptsPermutations_iff_of_many linkedAlgorithm totalRows hlarge hnames]
    simp only [hlarge, hlarge.not_gt, true_and, false_and, false_or]

/-- The columns `a` and `b`. -/
def tablesAB : SqliteTables :=
  ⟨fun _ => some [['a'], ['b']], fun _ columnName => some [columnName, columnName]⟩

theorem acceptsPermutations_swapped :
    AcceptsPermutations tablesAB (.new ['i'] 0 2 2)
      (openFile (diskOf ['t'] [['b', ',', 'a'], ['x', ',', 'y']]) ['t'] .readFile)
      [['b'], ['a']] [['a'], ['b']] := by
  have hiff := @acceptsPermutations_iff tablesAB
    (diskOf ['t'] [['b', ',', 'a'], ['x', ',', 'y']]) ['t'] ['i'] ['b', ',', 'a']
    [['a'], ['b']] 0 2 (by decide) rfl (by decide)
  exact hiff.mpr (.inl ⟨by decide, by decide⟩)

/-- The header `a,a` is accepted for the columns `a` and `b`. -/
theorem not_acceptsPermutations_repeated :
    ¬ AcceptsPermutations tablesAB (.new ['i'] 0 2 2)
      (openFile (diskOf ['t'] [['a', ',', 'a'], ['x', ',', 'y']]) ['t'] .readFile)
      [['a'], ['a']] [['a'], ['b']] := by
  rintro ⟨result, hresult, haccepts, _⟩
  have hvalid : validateColumns tablesAB (.new ['i'] 0 2 2) 2
      (openFile (diskOf ['t'] [['a', ',', 'a'], ['x', ',', 'y']]) ['t'] .readFile) =
        some (some [['a'], ['a']]) := by decide
  cases hvalid.symm.trans hresult
  have hperm := haccepts.mp nofun
  exact absurd hperm (by decide)

end WorkerUnit.InstanceData
