import WorkerUnit.Services.RowReplacement

/-!
# The two kinds of handles

Each query of `services/file_database_access.cpp` has a branch for the vector of a
read handle and one for the list of a read/write handle. `getRowValue` checks its
row against the list in both.
-/

namespace WorkerUnit

namespace FileDataBaseAccess

/-- The number of columns of a file's first row. -/
def headerColumns (disk : Disk) (tableID : Text) : ℤ :=
  (((fileLines disk tableID).headD []).count ',' : ℤ) + 1

def RowInRange (disk : Disk) (tableID : Text) (rowIndex : ℤ) : Prop :=
  0 ≤ rowIndex ∧ rowIndex < (fileLines disk tableID).length

/-- The handles of both kinds on a file give one answer to each query; a row out
of range reads as empty, and a cell as in the list of its row. -/
structure HandlesAgree (disk : Disk) (tableID : Text) (rowIndex columnIndex : ℤ) : Prop where
  blob : ∃ blob, ∀ accessMacro, (openFile disk tableID accessMacro).getBlob = blob
  totalRows : ∃ rows, ∀ accessMacro, (openFile disk tableID accessMacro).getTotalRows = rows
  totalColumns : ∃ columns, ∀ accessMacro,
    (openFile disk tableID accessMacro).getTotalColumns = some columns
  columnNames : ∃ names, ∀ accessMacro,
    (openFile disk tableID accessMacro).getColumnNamesList = some names
  rowValues : ∃ values, (∀ accessMacro,
      (openFile disk tableID accessMacro).getRowValueList rowIndex = some values) ∧
    (¬ RowInRange disk tableID rowIndex → values = [])
  cellValue : ∃ value, (∀ accessMacro,
      (openFile disk tableID accessMacro).getRowValue rowIndex columnIndex = some value) ∧
    (¬ RowInRange disk tableID rowIndex → value = []) ∧
    ∀ accessMacro values cell, RowInRange disk tableID rowIndex → 0 ≤ columnIndex →
      (openFile disk tableID accessMacro).getRowValueList rowIndex = some values →
      values[columnIndex.toNat]? = some cell → value = cell

/-- The row is negative, or in the file; then the column is negative, or not the
one behind the last of the first row, or it is in another row that has an empty
cell there, or none and the first row none either. -/
def ReadsAlike (disk : Disk) (tableID : Text) (rowIndex columnIndex : ℤ) : Prop :=
  rowIndex < 0 ∨ (rowIndex < (fileLines disk tableID).length ∧
    (columnIndex < 0 ∨ (rowIndex = 0 ∧ columnIndex ≠ headerColumns disk tableID) ∨
      (rowIndex ≠ 0 ∧
        (cellOnDisk disk tableID rowIndex.toNat columnIndex.toNat = some [] ∨
          (cellOnDisk disk tableID rowIndex.toNat columnIndex.toNat = none ∧
            headerColumns disk tableID < columnIndex)))))

instance (disk : Disk) (tableID : Text) (rowIndex columnIndex : ℤ) :
    Decidable (ReadsAlike disk tableID rowIndex columnIndex) :=
  inferInstanceAs (Decidable (_ ∨ _))

variable {disk : Disk} {tableID : Text} {rowIndex columnIndex : ℤ}

theorem getBlob_openFile (disk : Disk) (tableID : Text) (accessMacro : FileAccessType) :
    (openFile disk tableID accessMacro).getBlob =
      Records.unrecords '\n' (fileLines disk tableID) := by
  cases accessMacro <;> rfl

theorem getTotalRows_openFile (disk : Disk) (tableID : Text) (accessMacro : FileAccessType) :
    (openFile disk tableID accessMacro).getTotalRows = (fileLines disk tableID).length := by
  cases accessMacro <;> rfl

section Header

variable (hrows : fileLines disk tableID ≠ [])
include hrows

theorem getTotalColumns_openFile (accessMacro : FileAccessType) :
    (openFile disk tableID accessMacro).getTotalColumns = some (headerColumns disk tableID) := by
  obtain ⟨header, rest, hlines⟩ := List.exists_cons_of_ne_nil hrows
  cases accessMacro <;> simp [openFile, getTotalColumns, headerColumns, hlines]

theorem getColumnNamesList_openFile (accessMacro : FileAccessType) :
    (openFile disk tableID accessMacro).getColumnNamesList =
      some (advTokenizer ((fileLines disk tableID).headD []) ',') := by
  obtain ⟨header, rest, hlines⟩ := List.exists_cons_of_ne_nil hrows
  cases accessMacro <;> simp [openFile, getColumnNamesList, hlines]

/-- What a read finds that passes the check of the row. -/
theorem getRowValue_of_row (accessMacro : FileAccessType) {r : ℕ} {line : Text}
    (hline : (fileLines disk tableID)[r]? = some line) (hchecked : accessMacro = .rwFile ∨ r = 0)
    (columnIndex : ℤ) :
    (openFile disk tableID accessMacro).getRowValue r columnIndex =
      if headerColumns disk tableID < columnIndex ∨ columnIndex < 0 then some []
      else (advTokenizer line ',')[columnIndex.toNat]? := by
  have hlt : r < (fileLines disk tableID).length := (List.getElem?_eq_some_iff.mp hline).1
  have hcheck : ¬ toSizeT (r : ℤ) > (openFile disk tableID accessMacro).readWriteData.length := by
    rw [toSizeT_natCast]
    rcases hchecked with rfl | rfl
    · exact hlt.le.not_gt
    · exact Nat.not_lt_zero _
  have hdeleted : (openFile disk tableID accessMacro).fileDeleted = false := by
    cases accessMacro <;> rfl
  have hdata : (if (openFile disk tableID accessMacro).accessMode = .readFile then
      (openFile disk tableID accessMacro).readData[r]?
      else some (((openFile disk tableID accessMacro).readWriteData[r]?).getD [])) =
        some line := by
    cases accessMacro <;> simp [openFile, hline]
  have hunder : ¬ (r : ℤ) < 0 := by omega
  rw [getRowValue, if_neg (by simp [hdeleted]), if_neg hcheck,
    getTotalColumns_openFile hrows, Option.bind_some, Int.toNat_natCast, hdata, if_neg hunder]
  by_cases hover : columnIndex > headerColumns disk tableID
  · simp [hover]
  · simp only [hover, if_false, Option.bind_some]
    by_cases hleft : columnIndex < 0 <;> simp [hleft]

end Header

/-- A read handle finds no row but the first one. -/
theorem getRowValue_readFile_of_ne (disk : Disk) (tableID : Text) {r : ℕ} (hr : r ≠ 0)
    (columnIndex : ℤ) :
    (openFile disk tableID .readFile).getRowValue r columnIndex = some [] := by
  simp [getRowValue, openFile, hr]

/-- A negative row passes no check. -/
theorem getRowValue_of_neg (hint : -2 ^ 31 ≤ rowIndex)
    (hsize : (fileLines disk tableID).length ≤ 2 ^ 63) (hneg : rowIndex < 0)
    (accessMacro : FileAccessType) :
    (openFile disk tableID accessMacro).getRowValue rowIndex columnIndex = some [] := by
  have hover : toSizeT rowIndex > (openFile disk tableID accessMacro).readWriteData.length := by
    apply lt_toSizeT_of_neg hneg hint
    cases accessMacro
    · exact Nat.zero_le _
    · exact hsize
  have hdeleted : (openFile disk tableID accessMacro).fileDeleted = false := by
    cases accessMacro <;> rfl
  rw [getRowValue, if_neg (by simp [hdeleted]), if_pos hover]

theorem getRowValueList_of_neg (hneg : rowIndex < 0) (accessMacro : FileAccessType) :
    (openFile disk tableID accessMacro).getRowValueList rowIndex = some [] := by
  cases accessMacro <;> simp [getRowValueList, openFile, hneg]

theorem getRowValueList_of_row {r : ℕ} {line : Text}
    (hline : (fileLines disk tableID)[r]? = some line) (accessMacro : FileAccessType) :
    (openFile disk tableID accessMacro).getRowValueList r = some (advTokenizer line ',') := by
  cases accessMacro with
  | readFile => rw [getRowValueList_readFile, hline, Option.map_some]
  | rwFile =>
    rw [getRowValueList_of_writable (writable_openFile tableID)]
    simp [openFile, hline]

/-- Behind the last row the read handle reads past its vector. -/
theorem not_handlesAgree_of_over (hover : (fileLines disk tableID).length ≤ rowIndex) :
    ¬ HandlesAgree disk tableID rowIndex columnIndex := by
  intro h
  obtain ⟨values, hvalues, _⟩ := h.rowValues
  obtain ⟨r, rfl⟩ := Int.eq_ofNat_of_zero_le ((Int.natCast_nonneg _).trans hover)
  have hread := hvalues .readFile
  rw [getRowValueList_readFile, List.getElem?_eq_none (by exact_mod_cast hover)] at hread
  cases hread

theorem handlesAgree_of_neg (hrows : fileLines disk tableID ≠ []) (hint : -2 ^ 31 ≤ rowIndex)
    (hsize : (fileLines disk tableID).length ≤ 2 ^ 63) (hneg : rowIndex < 0) :
    HandlesAgree disk tableID rowIndex columnIndex where
  blob := ⟨_, getBlob_openFile disk tableID⟩
  totalRows := ⟨_, getTotalRows_openFile disk tableID⟩
  totalColumns := ⟨_, getTotalColumns_openFile hrows⟩
  columnNames := ⟨_, getColumnNamesList_openFile hrows⟩
  rowValues := ⟨[], getRowValueList_of_neg hneg, fun _ => rfl⟩
  cellValue := ⟨[], getRowValue_of_neg hint hsize hneg, fun _ => rfl,
    fun _ _ _ hrange => absurd hrange.1 hneg.not_ge⟩

/-- On a row of the file the handles agree when both read one value, which is the
cell of the row where it has one. -/
theorem handlesAgree_iff_of_row (hrows : fileLines disk tableID ≠ []) {r : ℕ} {line : Text}
    (hline : (fileLines disk tableID)[r]? = some line) :
    HandlesAgree disk tableID r columnIndex ↔
      ∃ value, (∀ accessMacro,
          (openFile disk tableID accessMacro).getRowValue r columnIndex = some value) ∧
        (0 ≤ columnIndex → ∀ cell ∈ (advTokenizer line ',')[columnIndex.toNat]?,
          value = cell) := by
  have hrange : RowInRange disk tableID r :=
    ⟨Int.natCast_nonneg r, by exact_mod_cast (List.getElem?_eq_some_iff.mp hline).1⟩
  constructor
  · intro h
    obtain ⟨value, hvalue, _, hcell⟩ := h.cellValue
    exact ⟨value, hvalue, fun hleft cell =>
      hcell .rwFile _ cell hrange hleft (getRowValueList_of_row hline .rwFile)⟩
  · rintro ⟨value, hvalue, hcell⟩
    refine ⟨⟨_, getBlob_openFile disk tableID⟩, ⟨_, getTotalRows_openFile disk tableID⟩,
      ⟨_, getTotalColumns_openFile hrows⟩, ⟨_, getColumnNamesList_openFile hrows⟩,
      ⟨_, getRowValueList_of_row hline, fun hout => absurd hrange hout⟩,
      ⟨value, hvalue, fun hout => absurd hrange hout, ?_⟩⟩
    intro accessMacro values cell _ hleft hvalues
    rw [getRowValueList_of_row hline, Option.some.injEq] at hvalues
    subst hvalues
    exact hcell hleft cell

theorem cellOnDisk_of_row {r : ℕ} {line : Text} (hline : (fileLines disk tableID)[r]? = some line)
    (column : ℕ) : cellOnDisk disk tableID r column = (advTokenizer line ',')[column]? := by
  rw [cellOnDisk, hline, Option.bind_some]

/-- In the first row the handles read the same, and only the column behind the
last one is past its cells. -/
theorem handlesAgree_firstRow (hrows : fileLines disk tableID ≠ []) :
    HandlesAgree disk tableID 0 columnIndex ↔ columnIndex ≠ headerColumns disk tableID := by
  obtain ⟨header, rest, hlines⟩ := List.exists_cons_of_ne_nil hrows
  have hline : (fileLines disk tableID)[0]? = some header := by rw [hlines, List.getElem?_cons_zero]
  have hlength : ((advTokenizer header ',').length : ℤ) = headerColumns disk tableID := by
    rw [length_advTokenizer, headerColumns, hlines, List.headD_cons]
    push_cast
    rfl
  have hvalue := fun accessMacro : FileAccessType =>
    getRowValue_of_row hrows accessMacro hline (.inr rfl) columnIndex
  rw [← Nat.cast_zero, handlesAgree_iff_of_row hrows hline]
  by_cases hout : headerColumns disk tableID < columnIndex ∨ columnIndex < 0
  · simp only [if_pos hout] at hvalue
    refine iff_of_true ⟨[], hvalue, fun hleft cell hcell => ?_⟩ (by omega)
    have hlt := (List.getElem?_eq_some_iff.mp (Option.mem_def.mp hcell)).1
    omega
  · simp only [if_neg hout] at hvalue
    constructor
    · rintro ⟨value, hread, _⟩ rfl
      have hcell := (hvalue .rwFile).symm.trans (hread .rwFile)
      have hlt := (List.getElem?_eq_some_iff.mp hcell).1
      omega
    · intro hne
      have hlt : columnIndex.toNat < (advTokenizer header ',').length := by omega
      rw [List.getElem?_eq_getElem hlt] at hvalue ⊢
      exact ⟨_, hvalue, fun _ cell hcell => by simpa using hcell⟩

/-- In another row the read handle reads nothing. -/
theorem handlesAgree_laterRow (hrows : fileLines disk tableID ≠ []) {r : ℕ} (hr : r ≠ 0)
    (hlt : r < (fileLines disk tableID).length) :
    HandlesAgree disk tableID r columnIndex ↔ columnIndex < 0 ∨
      cellOnDisk disk tableID r columnIndex.toNat = some [] ∨
      (cellOnDisk disk tableID r columnIndex.toNat = none ∧
        headerColumns disk tableID < columnIndex) := by
  have hline := List.getElem?_eq_getElem hlt
  have hlist := getRowValue_of_row hrows .rwFile hline (.inl rfl) columnIndex
  have hvector := getRowValue_readFile_of_ne disk tableID hr columnIndex
  rw [handlesAgree_iff_of_row hrows hline, cellOnDisk_of_row hline]
  constructor
  · rintro ⟨value, hread, hcell⟩
    obtain rfl : value = [] := Option.some.inj ((hread .readFile).symm.trans hvector)
    rcases lt_or_ge columnIndex 0 with hleft | hleft
    · exact .inl hleft
    · right
      cases hfound : (advTokenizer (fileLines disk tableID)[r] ',')[columnIndex.toNat]? with
      | some cell => exact .inl (congrArg some (hcell hleft cell hfound).symm)
      | none =>
        refine .inr ⟨rfl, ?_⟩
        by_contra hover
        rw [hread, hfound, if_neg (by omega)] at hlist
        cases hlist
  · intro h
    have hlist' : (openFile disk tableID .rwFile).getRowValue r columnIndex = some [] := by
      rw [hlist]
      split_ifs with hout
      · rfl
      · rcases h with hleft | hempty | ⟨_, hover⟩
        · exact absurd (.inr hleft) hout
        · exact hempty
        · exact absurd (.inl hover) hout
    refine ⟨[], fun accessMacro => ?_, fun hleft cell hcell => ?_⟩
    · cases accessMacro
      · exact hvector
      · exact hlist'
    · rcases h with hneg | hempty | ⟨hnone, _⟩
      · exact absurd hneg hleft.not_gt
      · exact Option.some.inj (hempty.symm.trans hcell)
      · rw [hnone] at hcell
        cases hcell

/-- The handles of both kinds agree exactly on the rows and columns that read
alike. -/
theorem handlesAgree_iff (hrows : fileLines disk tableID ≠ []) (hint : -2 ^ 31 ≤ rowIndex)
    (hsize : (fileLines disk tableID).length ≤ 2 ^ 63) :
    HandlesAgree disk tableID rowIndex columnIndex ↔
      ReadsAlike disk tableID rowIndex columnIndex := by
  rcases lt_or_ge rowIndex 0 with hneg | hnonneg
  · exact iff_of_true (handlesAgree_of_neg hrows hint hsize hneg) (.inl hneg)
  obtain ⟨r, rfl⟩ := Int.eq_ofNat_of_zero_le hnonneg
  by_cases hlt : r < (fileLines disk tableID).length
  · by_cases hr : r = 0
    · subst hr
      rw [Nat.cast_zero, handlesAgree_firstRow hrows, ReadsAlike]
      have hcolumns : 0 < headerColumns disk tableID := by
        unfold headerColumns
        omega
      constructor
      · exact fun hne => .inr ⟨by omega, .inr (.inl ⟨rfl, hne⟩)⟩
      · rintro (hneg | ⟨_, hleft | ⟨_, hne⟩ | ⟨hne, _⟩⟩)
        · omega
        · omega
        · exact hne
        · exact absurd rfl hne
    · rw [handlesAgree_laterRow hrows hr hlt, ReadsAlike, Int.toNat_natCast]
      have hin : (r : ℤ) < (fileLines disk tableID).length := by exact_mod_cast hlt
      have hne : (r : ℤ) ≠ 0 := by exact_mod_cast hr
      simp only [hnonneg.not_gt, hin, hne, false_or, true_and, false_and, ne_eq,
        not_false_eq_true]
  · have hover : ((fileLines disk tableID).length : ℤ) ≤ r := by exact_mod_cast not_lt.mp hlt
    apply iff_of_false (not_handlesAgree_of_over hover)
    rintro (hneg | ⟨hin, _⟩) <;> omega

/-- The second cell of the header, in a file of two rows. -/
theorem handlesAgree_secondCell :
    HandlesAgree (diskOf ['t'] [['a', ',', 'b'], ['c']]) ['t'] 0 1 :=
  (handlesAgree_iff (by decide) (by decide) (by decide)).mpr (by decide)

/-- The only cell of the second row is nothing to a read handle. -/
theorem not_handlesAgree_secondRow : ¬ HandlesAgree (diskOf ['t'] [['a'], ['b']]) ['t'] 1 0 := by
  intro h
  obtain ⟨value, hvalue, _⟩ := h.cellValue
  have hvector : (openFile (diskOf ['t'] [['a'], ['b']]) ['t'] .readFile).getRowValue 1 0 =
      some [] := by decide
  have hlist : (openFile (diskOf ['t'] [['a'], ['b']]) ['t'] .rwFile).getRowValue 1 0 =
      some ['b'] := by decide
  have hboth := (hvector.symm.trans (hvalue .readFile)).trans ((hvalue .rwFile).symm.trans hlist)
  exact absurd hboth (by decide)

end FileDataBaseAccess

end WorkerUnit
