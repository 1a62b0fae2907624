import WorkerUnit.Library.Replace
import WorkerUnit.Services.RowReplacement

/-!
# Replacing a cell

`writeRowValue` makes a regular expression of the old cell and replaces what it
matches in the whole row, then inserts the row at the iterator it has erased. Its
checks let the number of rows and the number of columns pass as indices.
-/

namespace WorkerUnit

open Replace

/-- The characters with a meaning of their own in a regular expression. -/
def metacharacters : Text :=
  ['^', '$', '\\', '.', '*', '+', '?', '(', ')', '[', ']', '{', '}', '|']

namespace FileDataBaseAccess

def HasColumns (f : FileDataBaseAccess) (columns : ℕ) : Prop :=
  ∀ row ∈ f.readWriteData, (advTokenizer row ',').length = columns

structure InRange (f : FileDataBaseAccess) (columns : ℕ) (rowIndex columnIndex : ℤ) : Prop where
  row_nonneg : 0 ≤ rowIndex
  row_lt : rowIndex < f.readWriteData.length
  column_nonneg : 0 ≤ columnIndex
  column_lt : columnIndex < columns

/-- The error is about an index that is out of range. -/
def Reports (f : FileDataBaseAccess) (columns : ℕ) (rowIndex columnIndex error : ℤ) : Prop :=
  (error = rowIndexUnderflow ∧ rowIndex < 0) ∨
    (error = rowIndexOverflow ∧ f.readWriteData.length ≤ rowIndex) ∨
    (error = columnIndexUnderflow ∧ columnIndex < 0) ∨
    (error = columnIndexOverflow ∧ columns ≤ columnIndex)

/-- A cell in range gets the value and no other cell changes; other indices are
reported, and change nothing. -/
structure ChangesOneCell (regexReplace : Text → Text → Text → Option Text)
    (reinsert : List Text → ℕ → Text → Option (List Text)) (f : FileDataBaseAccess)
    (columns : ℕ) (value : Text) (rowIndex columnIndex : ℤ) : Prop where
  replaces : f.InRange columns rowIndex columnIndex →
    ∃ g, f.writeRowValue regexReplace reinsert value rowIndex columnIndex = some (0, g) ∧
      g.getRowValue rowIndex columnIndex = some value ∧
      ∀ r c, f.InRange columns r c → (r, c) ≠ (rowIndex, columnIndex) →
        g.getRowValue r c = f.getRowValue r c
  reports : ¬ f.InRange columns rowIndex columnIndex →
    ∃ error, f.writeRowValue regexReplace reinsert value rowIndex columnIndex =
        some (error, f) ∧ f.Reports columns rowIndex columnIndex error

/-- The indices that the checks of `writeRowValue` report as they are. -/
def Refuses (f : FileDataBaseAccess) (columns : ℕ) (rowIndex columnIndex : ℤ) : Prop :=
  f.readWriteData.length < rowIndex ∨
    (0 ≤ rowIndex ∧ f.readWriteData ≠ [] ∧ (columnIndex < 0 ∨ columns < columnIndex))

/-- The cells of a row of a read/write handle. -/
def cells (f : FileDataBaseAccess) (rowIndex : ℤ) : List Text :=
  advTokenizer ((f.readWriteData[rowIndex.toNat]?).getD []) ','

/-- The value is the old one, or the old one occurs in no other cell of the row. -/
def Separate (cells : List Text) (c : ℕ) (value : Text) : Prop :=
  ∀ old ∈ cells[c]?, value = old ∨
    ∀ c' < cells.length, c' ≠ c → ∀ other ∈ cells[c']?, ¬ old <:+: other

instance (cells : List Text) (c : ℕ) (value : Text) : Decidable (Separate cells c value) :=
  inferInstanceAs (Decidable (∀ old ∈ _, _ ∨ ∀ c' < _, _ → ∀ other ∈ _, _))

/-- The insertion puts the row where the old one was. -/
def inPlace (rows : List Text) (i : ℕ) (row : Text) : Option (List Text) := some (rows.set i row)

/-- A pattern without metacharacters matches literally, a format without dollar
signs stands for itself, and every match is replaced. -/
def ReplacesLiterally (regexReplace : Text → Text → Text → Option Text) : Prop :=
  ∀ data feild value, (∀ c ∈ feild, c ∉ metacharacters) → '$' ∉ value →
    regexReplace data feild value = some (replaceAll feild value data)

variable {regexReplace : Text → Text → Text → Option Text}
  {reinsert : List Text → ℕ → Text → Option (List Text)} {f g : FileDataBaseAccess}
  {columns : ℕ} {value : Text} {rowIndex columnIndex : ℤ}

/-- The first row tells the number of columns. -/
theorem HasColumns.getTotalColumns (h : f.HasColumns columns) (hf : f.Writable)
    (hrows : f.readWriteData ≠ []) : f.getTotalColumns = some (columns : ℤ) := by
  obtain ⟨row, rows, hdata⟩ := List.exists_cons_of_ne_nil hrows
  have hrow := h row (hdata ▸ List.mem_cons_self ..)
  rw [length_advTokenizer] at hrow
  simp [FileDataBaseAccess.getTotalColumns, hf.1, hf.2, hdata, ← hrow]

theorem toSizeT_le (hlow : 0 ≤ rowIndex) (hhigh : rowIndex ≤ f.readWriteData.length) :
    ¬ toSizeT rowIndex > f.readWriteData.length := by
  rw [toSizeT, if_neg hlow.not_gt]
  omega

/-- What the calls do that pass the checks. -/
theorem writeRowValue_checked (hf : f.Writable) (hcolumns : f.HasColumns columns)
    (hrows : f.readWriteData ≠ []) (hlow : 0 ≤ rowIndex)
    (hhigh : rowIndex ≤ f.readWriteData.length) (hleft : 0 ≤ columnIndex)
    (hright : columnIndex ≤ columns) :
    f.writeRowValue regexReplace reinsert value rowIndex columnIndex =
      (f.cells rowIndex)[columnIndex.toNat]?.bind fun old =>
        (regexReplace ((f.readWriteData[rowIndex.toNat]?).getD []) old value).bind fun data =>
          if rowIndex.toNat < f.readWriteData.length then
            (reinsert f.readWriteData rowIndex.toNat data).map fun rows =>
              (0, { f with readWriteData := rows, dataModified := true })
          else none := by
  simp [writeRowValue, hf.1, hf.2, toSizeT_le hlow hhigh, hcolumns.getTotalColumns hf hrows,
    hright.not_gt, hlow.not_gt, hleft.not_gt, cells]

theorem writeRowValue_of_row_over (hf : f.Writable)
    (hover : f.readWriteData.length < toSizeT rowIndex) :
    f.writeRowValue regexReplace reinsert value rowIndex columnIndex =
      some (rowIndexOverflow, f) := by
  simp [writeRowValue, hf.1, hf.2, hover]

theorem writeRowValue_of_column_under (hf : f.Writable) (hcolumns : f.HasColumns columns)
    (hrows : f.readWriteData ≠ []) (hlow : 0 ≤ rowIndex)
    (hhigh : rowIndex ≤ f.readWriteData.length) (hleft : columnIndex < 0) :
    f.writeRowValue regexReplace reinsert value rowIndex columnIndex =
      some (columnIndexUnderflow, f) := by
  have hunder : ¬ columnIndex > columns := by omega
  simp [writeRowValue, hf.1, hf.2, toSizeT_le hlow hhigh, hcolumns.getTotalColumns hf hrows,
    hunder, hlow.not_gt, hleft]

theorem writeRowValue_of_column_over (hf : f.Writable) (hcolumns : f.HasColumns columns)
    (hrows : f.readWriteData ≠ []) (hlow : 0 ≤ rowIndex)
    (hhigh : rowIndex ≤ f.readWriteData.length) (hright : columns < columnIndex) :
    f.writeRowValue regexReplace reinsert value rowIndex columnIndex =
      some (columnIndexOverflow, f) := by
  simp [writeRowValue, hf.1, hf.2, toSizeT_le hlow hhigh, hcolumns.getTotalColumns hf hrows,
    hright]

section Range

variable (h : f.InRange columns rowIndex columnIndex)
include h

theorem InRange.toNat_lt : rowIndex.toNat < f.readWriteData.length := by
  have hlow := h.row_nonneg
  have hhigh := h.row_lt
  omega

theorem InRange.ne_nil : f.readWriteData ≠ [] :=
  List.ne_nil_of_length_pos (Nat.zero_lt_of_lt h.toNat_lt)

/-- A cell in range is read from its row. -/
theorem InRange.getRowValue (hf : f.Writable) (hcolumns : f.HasColumns columns) :
    f.getRowValue rowIndex columnIndex = (f.cells rowIndex)[columnIndex.toNat]? := by
  have hrow := toSizeT_le h.row_nonneg h.row_lt.le
  have hright : ¬ columnIndex > columns := h.column_lt.not_gt
  simp [FileDataBaseAccess.getRowValue, hf.1, hf.2, hrow, hcolumns.getTotalColumns hf h.ne_nil,
    hright, h.row_nonneg.not_gt, h.column_nonneg.not_gt, cells]

theorem InRange.writeRowValue (hf : f.Writable) (hcolumns : f.HasColumns columns) :
    f.writeRowValue regexReplace reinsert value rowIndex columnIndex =
      (f.cells rowIndex)[columnIndex.toNat]?.bind fun old =>
        (regexReplace ((f.readWriteData[rowIndex.toNat]?).getD []) old value).bind fun data =>
          (reinsert f.readWriteData rowIndex.toNat data).map fun rows =>
            (0, { f with readWriteData := rows, dataModified := true }) := by
  rw [writeRowValue_checked hf hcolumns h.ne_nil h.row_nonneg h.row_lt.le h.column_nonneg
    h.column_lt.le]
  simp only [h.toNat_lt, if_true]

/-- Without an insertion that is known to work no call in range replaces its cell. -/
theorem InRange.not_changesOneCell (hf : f.Writable) (hcolumns : f.HasColumns columns) :
    ¬ ∀ reinsert, ChangesOneCell regexReplace reinsert f columns value rowIndex columnIndex := by
  intro hall
  obtain ⟨g, hg, _⟩ := (hall fun _ _ _ => none).replaces h
  simp [h.writeRowValue hf hcolumns] at hg

theorem InRange.length_cells (hcolumns : f.HasColumns columns) :
    (f.cells rowIndex).length = columns := by
  rw [cells, List.getElem?_eq_getElem h.toNat_lt, Option.getD_some]
  exact hcolumns _ (List.getElem_mem h.toNat_lt)

theorem InRange.not_refuses : ¬ f.Refuses columns rowIndex columnIndex := by
  have hhigh := h.row_lt
  have hleft := h.column_nonneg
  have hright := h.column_lt
  rintro (hlt | ⟨_, _, hunder | hover⟩) <;> omega

/-- The cell in range has no comma. -/
theorem InRange.exists_cell (hcolumns : f.HasColumns columns) :
    ∃ old, (f.cells rowIndex)[columnIndex.toNat]? = some old ∧ ',' ∉ old := by
  have hcell : columnIndex.toNat < (f.cells rowIndex).length := by
    have hleft := h.column_nonneg
    have hright := h.column_lt
    rw [h.length_cells hcolumns]
    omega
  exact ⟨_, List.getElem?_eq_getElem hcell, sep_notMem_of_mem_splitOn (List.getElem_mem hcell)⟩

end Range

section OutOfRange

variable (h : ¬ f.InRange columns rowIndex columnIndex)
include h

/-- A call that gives no result keeps no promise. -/
theorem not_changesOneCell_of_none
    (hnone : f.writeRowValue regexReplace reinsert value rowIndex columnIndex = none) :
    ¬ ChangesOneCell regexReplace reinsert f columns value rowIndex columnIndex := by
  intro hchanges
  obtain ⟨error, herror, _⟩ := hchanges.reports h
  rw [hnone] at herror
  cases herror

theorem changesOneCell_iff_of_error {error : ℤ}
    (herror : f.writeRowValue regexReplace reinsert value rowIndex columnIndex = some (error, f)) :
    ChangesOneCell regexReplace reinsert f columns value rowIndex columnIndex ↔
      f.Reports columns rowIndex columnIndex error := by
  constructor
  · intro hchanges
    obtain ⟨other, hother, hreports⟩ := hchanges.reports h
    rw [herror] at hother
    cases hother
    exact hreports
  · exact fun hreports => ⟨fun hin => absurd hin h, fun _ => ⟨error, herror, hreports⟩⟩

/-- Past the checks an index out of range ends outside a container. -/
theorem writeRowValue_eq_none (hf : f.Writable) (hcolumns : f.HasColumns columns)
    (hlow : 0 ≤ rowIndex) (hhigh : rowIndex ≤ f.readWriteData.length)
    (hchecked : f.readWriteData ≠ [] → 0 ≤ columnIndex ∧ columnIndex ≤ columns) :
    f.writeRowValue regexReplace reinsert value rowIndex columnIndex = none := by
  by_cases hrows : f.readWriteData = []
  · have hzero : rowIndex = 0 := by
      rw [hrows] at hhigh
      exact le_antisymm hhigh hlow
    have htotal : f.getTotalColumns = none := by
      simp [getTotalColumns, hf.1, hf.2, hrows]
    simp [writeRowValue, hf.1, hf.2, hzero, toSizeT, htotal]
  · obtain ⟨hleft, hright⟩ := hchecked hrows
    rw [writeRowValue_checked hf hcolumns hrows hlow hhigh hleft hright]
    by_cases hrow : rowIndex.toNat < f.readWriteData.length
    · have hcolumn : columnIndex = columns := by
        by_contra hne
        exact h ⟨hlow, by omega, hleft, by omega⟩
      have hlength : (f.cells rowIndex).length = columns := by
        rw [cells, List.getElem?_eq_getElem hrow, Option.getD_some]
        exact hcolumns _ (List.getElem_mem hrow)
      have hcell : (f.cells rowIndex)[columnIndex.toNat]? = none :=
        List.getElem?_eq_none (by omega)
      rw [hcell, Option.bind_none]
    · simp [hrow]

/-- A negative row is reported as an overflow. -/
theorem not_changesOneCell_of_neg (hf : f.Writable) (hint : -2 ^ 31 ≤ rowIndex)
    (hsize : f.readWriteData.length ≤ 2 ^ 63) (hneg : rowIndex < 0) :
    ¬ ChangesOneCell regexReplace reinsert f columns value rowIndex columnIndex := by
  rw [changesOneCell_iff_of_error h
    (writeRowValue_of_row_over hf (lt_toSizeT_of_neg hneg hint hsize))]
  rintro (⟨herror, _⟩ | ⟨_, hle⟩ | ⟨herror, _⟩ | ⟨herror, _⟩)
  · exact absurd herror (by decide)
  · omega
  · exact absurd herror (by decide)
  · exact absurd herror (by decide)

/-- A call with an index out of range keeps its promise exactly when the checks
report the index as it is. -/
theorem changesOneCell_iff_refuses (hf : f.Writable) (hcolumns : f.HasColumns columns)
    (hint : -2 ^ 31 ≤ rowIndex) (hsize : f.readWriteData.length ≤ 2 ^ 63) :
    ChangesOneCell regexReplace reinsert f columns value rowIndex columnIndex ↔
      f.Refuses columns rowIndex columnIndex := by
  rcases lt_or_ge rowIndex 0 with hneg | hlow
  · apply iff_of_false (not_changesOneCell_of_neg h hf hint hsize hneg)
    rintro (hlt | ⟨hnonneg, _⟩) <;> omega
  rcases lt_or_ge (f.readWriteData.length : ℤ) rowIndex with hlt | hhigh
  · have hover : f.readWriteData.length < toSizeT rowIndex := by
      rw [toSizeT, if_neg hlow.not_gt]
      omega
    rw [changesOneCell_iff_of_error h (writeRowValue_of_row_over hf hover)]
    exact iff_of_true (.inr (.inl ⟨rfl, hlt.le⟩)) (.inl hlt)
  by_cases hcolumn : f.readWriteData ≠ [] ∧ (columnIndex < 0 ∨ columns < columnIndex)
  · refine iff_of_true ?_ (.inr ⟨hlow, hcolumn⟩)
    obtain ⟨hrows, hleft | hright⟩ := hcolumn
    · rw [changesOneCell_iff_of_error h
        (writeRowValue_of_column_under hf hcolumns hrows hlow hhigh hleft)]
      exact .inr (.inr (.inl ⟨rfl, hleft⟩))
    · rw [changesOneCell_iff_of_error h
        (writeRowValue_of_column_over hf hcolumns hrows hlow hhigh hright)]
      exact .inr (.inr (.inr ⟨rfl, hright.le⟩))
  · have hchecked : f.readWriteData ≠ [] → 0 ≤ columnIndex ∧ columnIndex ≤ columns := by
      intro hrows
      have hinside := not_or.mp fun hout => hcolumn ⟨hrows, hout⟩
      exact ⟨not_lt.mp hinside.1, not_lt.mp hinside.2⟩
    refine iff_of_false (not_changesOneCell_of_none h
      (writeRowValue_eq_none h hf hcolumns hlow hhigh hchecked)) ?_
    rintro (hlt | ⟨_, hout⟩)
    · omega
    · exact hcolumn hout

end OutOfRange

section InPlace

/-- The handle after the old text of a cell has been replaced all over its row. -/
def replaced (f : FileDataBaseAccess) (rowIndex : ℤ) (old value : Text) : FileDataBaseAccess :=
  { f with
    readWriteData := f.readWriteData.set rowIndex.toNat
      (replaceAll old value ((f.readWriteData[rowIndex.toNat]?).getD []))
    dataModified := true }

variable {old : Text}

theorem cells_replaced (h : f.InRange columns rowIndex columnIndex) (hold : ',' ∉ old)
    (hvalue : ',' ∉ value) :
    (f.replaced rowIndex old value).cells rowIndex =
      (f.cells rowIndex).map (replaceAll old value) := by
  rw [cells, cells, replaced, List.getElem?_set_self h.toNat_lt, Option.getD_some, advTokenizer,
    splitOn_replaceAll hold hvalue, advTokenizer]

theorem cells_replaced_of_ne {r : ℤ} (hlow : 0 ≤ rowIndex) (hr : 0 ≤ r) (hne : r ≠ rowIndex) :
    (f.replaced rowIndex old value).cells r = f.cells r := by
  rw [cells, cells, replaced, List.getElem?_set_ne (by omega)]

theorem HasColumns.replaced (hcolumns : f.HasColumns columns)
    (h : f.InRange columns rowIndex columnIndex) (hold : ',' ∉ old) (hvalue : ',' ∉ value) :
    (f.replaced rowIndex old value).HasColumns columns := by
  intro row hrow
  rcases List.mem_or_eq_of_mem_set hrow with hrow | rfl
  · exact hcolumns row hrow
  · rw [advTokenizer, splitOn_replaceAll hold hvalue, List.length_map]
    exact h.length_cells hcolumns

theorem InRange.replaced {r c : ℤ} (h : f.InRange columns r c) :
    (f.replaced rowIndex old value).InRange columns r c :=
  ⟨h.row_nonneg, by simpa [FileDataBaseAccess.replaced] using h.row_lt, h.column_nonneg,
    h.column_lt⟩

/-- With the row put back in its place, the call replaces the old text all over it. -/
theorem InRange.writeRowValue_inPlace (h : f.InRange columns rowIndex columnIndex)
    (hf : f.Writable) (hcolumns : f.HasColumns columns) (hregex : ReplacesLiterally regexReplace)
    (hcell : (f.cells rowIndex)[columnIndex.toNat]? = some old)
    (hplain : ∀ c ∈ old, c ∉ metacharacters) (hformat : '$' ∉ value) :
    f.writeRowValue regexReplace inPlace value rowIndex columnIndex =
      some (0, f.replaced rowIndex old value) := by
  rw [h.writeRowValue hf hcolumns, hcell, Option.bind_some, hregex _ _ _ hplain hformat]
  rfl

/-- The call changes one cell exactly when the old text is separate in its row. -/
theorem InRange.changesOneCell_iff_separate (h : f.InRange columns rowIndex columnIndex)
    (hf : f.Writable) (hcolumns : f.HasColumns columns) (hregex : ReplacesLiterally regexReplace)
    (hcell : (f.cells rowIndex)[columnIndex.toNat]? = some old)
    (hplain : ∀ c ∈ old, c ∉ metacharacters) (hformat : '$' ∉ value) (hvalue : ',' ∉ value) :
    ChangesOneCell regexReplace inPlace f columns value rowIndex columnIndex ↔
      Separate (f.cells rowIndex) columnIndex.toNat value := by
  have hwrite := h.writeRowValue_inPlace hf hcolumns hregex hcell hplain hformat
  have hold : ',' ∉ old := sep_notMem_of_mem_splitOn (List.mem_of_getElem? hcell)
  have hcells := cells_replaced h hold hvalue
  have hreplaced : (f.replaced rowIndex old value).Writable := hf
  have hread : ∀ {r c : ℤ}, f.InRange columns r c →
      (f.replaced rowIndex old value).getRowValue r c =
        ((f.replaced rowIndex old value).cells r)[c.toNat]? := fun hrc =>
    hrc.replaced.getRowValue hreplaced (hcolumns.replaced h hold hvalue)
  constructor
  · intro hchanges old' hold'
    cases hcell.symm.trans hold'
    obtain ⟨g, hg, _, hothers⟩ := hchanges.replaces h
    cases hwrite.symm.trans hg
    apply or_iff_not_imp_left.mpr
    intro hne c hlength hc other hother hinfix
    have hlt : c < columns := h.length_cells hcolumns ▸ hlength
    have hrc : f.InRange columns rowIndex c :=
      ⟨h.row_nonneg, h.row_lt, by omega, by exact_mod_cast hlt⟩
    have hsame := hothers rowIndex c hrc fun he => hc (by rw [← (Prod.mk.inj he).2]; rfl)
    rw [hread hrc, hrc.getRowValue hf hcolumns, hcells, List.getElem?_map, Int.toNat_natCast,
      hother, Option.map_some] at hsame
    have hkept := (replaceAll_eq_self_iff old value other).mp (Option.some.inj hsame)
    exact hkept.resolve_left hne hinfix
  · intro hseparate
    refine ⟨fun _ => ⟨_, hwrite, ?_, ?_⟩, fun hout => absurd h hout⟩
    · rw [hread h, hcells, List.getElem?_map, hcell, Option.map_some, replaceAll_self]
    · intro r c hrc hne
      rw [hread hrc, hrc.getRowValue hf hcolumns]
      by_cases hr : r = rowIndex
      · subst hr
        rw [hcells, List.getElem?_map]
        cases hother : (f.cells r)[c.toNat]? with
        | none => rfl
        | some other =>
          have hc : c.toNat ≠ columnIndex.toNat := by
            have hleft := h.column_nonneg
            have hleft' := hrc.column_nonneg
            have hne' : c ≠ columnIndex := fun he => hne (he ▸ rfl)
            omega
          have hlength : c.toNat < (f.cells r).length := (List.getElem?_eq_some_iff.mp hother).1
          have hkept := (hseparate old hcell).imp_right fun hnone =>
            hnone c.toNat hlength hc other hother
          rw [Option.map_some, (replaceAll_eq_self_iff old value other).mpr hkept]
      · rw [cells_replaced_of_ne h.row_nonneg hrc.row_nonneg hr]

end InPlace

/-- A call keeps its promise, whatever the insertion at the erased iterator does,
exactly when the checks report the index as it is. If the insertion puts the row
in its place and the old text has no metacharacters, the calls in range that keep
it are those whose old text is separate in its row. -/
theorem changesOneCell_iff (hf : f.Writable) (hcolumns : f.HasColumns columns)
    (hvalue : ',' ∉ value ∧ '\n' ∉ value) (hint : -2 ^ 31 ≤ rowIndex)
    (hsize : f.readWriteData.length ≤ 2 ^ 63) :
    ((∀ reinsert, ChangesOneCell regexReplace reinsert f columns value rowIndex columnIndex) ↔
      f.Refuses columns rowIndex columnIndex) ∧
    (ReplacesLiterally regexReplace → '$' ∉ value →
      (∀ old ∈ (f.cells rowIndex)[columnIndex.toNat]?, ∀ c ∈ old, c ∉ metacharacters) →
      (ChangesOneCell regexReplace inPlace f columns value rowIndex columnIndex ↔
        f.Refuses columns rowIndex columnIndex ∨ (f.InRange columns rowIndex columnIndex ∧
          Separate (f.cells rowIndex) columnIndex.toNat value))) := by
  by_cases h : f.InRange columns rowIndex columnIndex
  · obtain ⟨old, hcell, _⟩ := h.exists_cell hcolumns
    refine ⟨iff_of_false (h.not_changesOneCell hf hcolumns) h.not_refuses, ?_⟩
    intro hregex hformat hplain
    rw [h.changesOneCell_iff_separate hf hcolumns hregex hcell (hplain old hcell) hformat hvalue.1]
    exact ⟨fun hseparate => .inr ⟨h, hseparate⟩,
      fun hor => (hor.resolve_left h.not_refuses).2⟩
  · have hrefuses : ∀ reinsert,
        ChangesOneCell regexReplace reinsert f columns value rowIndex columnIndex ↔
          f.Refuses columns rowIndex columnIndex :=
      fun _ => changesOneCell_iff_refuses h hf hcolumns hint hsize
    refine ⟨⟨fun hall => (hrefuses inPlace).mp (hall inPlace),
      fun hr reinsert => (hrefuses reinsert).mpr hr⟩, fun _ _ _ => ?_⟩
    rw [hrefuses inPlace]
    exact ⟨.inl, fun hor => hor.resolve_right fun hin => h hin.1⟩

/-- The second cell of a row gets a longer text; the first one is not in it. -/
theorem changesOneCell_secondCell :
    ChangesOneCell (fun data feild value => some (replaceAll feild value data)) inPlace
      (openFile (diskOf ['t'] [['a', ',', 'b']]) ['t'] .rwFile) 2 ['a', 'b'] 0 1 := by
  have hcells : (openFile (diskOf ['t'] [['a', ',', 'b']]) ['t'] .rwFile).cells 0 =
      [['a'], ['b']] := by decide
  have hplain : ∀ c ∈ ['b'], c ∉ metacharacters := by simp [metacharacters]
  refine ((changesOneCell_iff (writable_openFile _) (by unfold HasColumns; decide) (by decide)
    (by decide) (by decide)).2 (fun _ _ _ _ _ => rfl) (by decide) ?_).mpr
    (.inr ⟨⟨by decide, by decide, by decide, by decide⟩, ?_⟩)
  · rw [hcells]
    rintro old hold
    obtain rfl : ['b'] = old := by simpa using hold
    exact hplain
  · rw [hcells]
    decide

/-- In a row of two equal cells both are replaced. -/
theorem not_changesOneCell_equalCells :
    ¬ ChangesOneCell (fun data feild value => some (replaceAll feild value data)) inPlace
      (openFile (diskOf ['t'] [['a', ',', 'a']]) ['t'] .rwFile) 2 ['b'] 0 0 := by
  intro h
  obtain ⟨g, hg, _, hothers⟩ := h.replaces ⟨by decide, by decide, by decide, by decide⟩
  have hother := hothers 0 1 ⟨by decide, by decide, by decide, by decide⟩ (by decide)
  have hwrite : ∀ result ∈ (openFile (diskOf ['t'] [['a', ',', 'a']]) ['t']
      .rwFile).writeRowValue (fun data feild value => some (replaceAll feild value data)) inPlace
      ['b'] 0 0, result.2.getRowValue 0 1 = some ['b'] := by decide
  rw [hwrite _ hg] at hother
  exact absurd hother (by decide)

end FileDataBaseAccess

end WorkerUnit
