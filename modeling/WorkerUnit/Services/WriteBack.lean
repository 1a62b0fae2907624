import WorkerUnit.Library.StepSystem
import WorkerUnit.Services.FileDataBaseAccess

/-!
# What reaches the file

Sequences of accepted changes on one read/write handle, which is then committed
or closed. The rows reach the file when some call has marked the handle as
modified, and `writeRowValueList` does not.
-/

namespace WorkerUnit

open StepSystem Records

inductive RowCall where
  | writeBlob (data : Text)
  | writeRowValue (value : Text) (rowIndex columnIndex : ℤ)
  | writeRowValueList (valueList : List Text) (rowIndex : ℤ)
  | deleteDuplicateRecords (rowIndex : ℤ)
  deriving DecidableEq

namespace RowCall

/-- The values written into single rows contain no newline. -/
def NewlineFree : RowCall → Prop
  | .writeRowValue value _ _ => '\n' ∉ value
  | .writeRowValueList valueList _ => ∀ value ∈ valueList, '\n' ∉ value
  | _ => True

instance (call : RowCall) : Decidable call.NewlineFree := by
  cases call <;> unfold NewlineFree <;> infer_instance

/-- The row that `writeRowValueList` makes of its values. -/
def rowString : List Text → Text
  | [] => []
  | value :: values => value ++ values.flatMap fun v => ',' :: v

/-- The lines with the row written by `writeRowValueList` in its place. -/
def overwrite (lines : List Text) : RowCall → List Text
  | .writeRowValueList valueList rowIndex => lines.set rowIndex.toNat (rowString valueList)
  | _ => lines

/-- The calls that mark the handle as modified: `deleteDuplicateRecords` when the
row occurs again behind its place. -/
def marks (lines : List Text) : RowCall → Bool
  | .writeBlob _ => true
  | .writeRowValue _ _ _ => true
  | .writeRowValueList _ _ => false
  | .deleteDuplicateRecords rowIndex =>
    lines[rowIndex.toNat]?.any fun line => line ∈ lines.drop (rowIndex.toNat + 1)

/-- The lines after the rows written by the listed calls. -/
def overwritten (lines : List Text) (calls : List RowCall) : List Text :=
  calls.foldl overwrite lines

/-- One of the calls marks the handle. -/
def marked (lines : List Text) : List RowCall → Bool
  | [] => false
  | call :: calls => call.marks lines || marked (call.overwrite lines) calls

end RowCall

namespace FileDataBaseAccess

variable (regexReplace : Text → Text → Text → Option Text)
  (reinsert : List Text → ℕ → Text → Option (List Text))

def perform (f : FileDataBaseAccess) : RowCall → Option (ℤ × FileDataBaseAccess)
  | .writeBlob data => some (f.writeBlob data)
  | .writeRowValue value rowIndex columnIndex =>
    f.writeRowValue regexReplace reinsert value rowIndex columnIndex
  | .writeRowValueList valueList rowIndex => f.writeRowValueList valueList rowIndex
  | .deleteDuplicateRecords rowIndex => some (f.deleteDuplicateRecords rowIndex)

/-- The handle after a call that returns zero. -/
def accept (f : FileDataBaseAccess) (call : RowCall) : Option FileDataBaseAccess :=
  (f.perform regexReplace reinsert call).bind fun r => if r.1 = 0 then some r.2 else none

/-- The rows that a handle holds. -/
def rows (f : FileDataBaseAccess) : List Text :=
  if f.accessMode = .readFile then f.readData else f.readWriteData

/-- A fresh handle, of either kind, holds the rows of this one, both after
`commitChanges` and after the destructor. -/
def ReachesFile (tableID : Text) (disk : Disk) (f : FileDataBaseAccess) : Prop :=
  ∀ accessMacro, (openFile (f.commitChanges disk) tableID accessMacro).rows = f.rows ∧
    (openFile (f.closeFile disk) tableID accessMacro).rows = f.rows

/-- A read/write handle on the file, with rows that can be read back. -/
structure OpenOn (tableID : Text) (f : FileDataBaseAccess) : Prop where
  writable : f.Writable
  name : f.fileName = csvName tableID
  newlineFree : ∀ row ∈ f.readWriteData, '\n' ∉ row

variable {regexReplace reinsert} {tableID : Text} {disk : Disk} {f g : FileDataBaseAccess}

theorem openOn_openFile (disk : Disk) (tableID : Text) :
    OpenOn tableID (openFile disk tableID .rwFile) :=
  ⟨writable_openFile tableID, rfl, not_mem_records _⟩

theorem OpenOn.withRows (hf : OpenOn tableID f) {data : List Text} (modified : Bool)
    (hdata : ∀ row ∈ data, '\n' ∉ row) :
    OpenOn tableID { f with readWriteData := data, dataModified := modified } :=
  ⟨hf.writable, hf.name, hdata⟩

theorem newline_notMem_rowString {valueList : List Text} (h : ∀ value ∈ valueList, '\n' ∉ value) :
    '\n' ∉ RowCall.rowString valueList := by
  cases valueList with
  | nil => simp [RowCall.rowString]
  | cons value values =>
    simp only [RowCall.rowString, List.mem_append, List.mem_flatMap, List.mem_cons, not_or,
      not_exists, not_and]
    refine ⟨h value (List.mem_cons_self ..), fun v hv => ⟨by decide, ?_⟩⟩
    exact h v (List.mem_cons_of_mem _ hv)

/-- What a call that returns zero does to the handle. -/
structure Accepted (tableID : Text) (f : FileDataBaseAccess) (call : RowCall)
    (g : FileDataBaseAccess) : Prop where
  openOn : OpenOn tableID g
  modified : g.dataModified = (f.dataModified || call.marks f.readWriteData)
  lines : call.marks f.readWriteData = false → g.readWriteData = call.overwrite f.readWriteData

theorem OpenOn.writeBlob (hf : OpenOn tableID f) {data : Text} {rc : ℤ}
    (h : f.writeBlob data = (rc, g)) : Accepted tableID f (.writeBlob data) g := by
  unfold FileDataBaseAccess.writeBlob at h
  rw [if_neg (by simp [hf.writable.2]), if_neg (by simp [hf.writable.1])] at h
  cases h
  exact ⟨hf.withRows true (not_mem_records data), (Bool.or_true _).symm, nofun⟩

theorem writeRowValueList_zero (hf : f.Writable) {valueList : List Text} {rowIndex : ℤ}
    (h : f.writeRowValueList valueList rowIndex = some (0, g)) :
    g = { f with
      readWriteData := f.readWriteData.set rowIndex.toNat (RowCall.rowString valueList) } := by
  unfold FileDataBaseAccess.writeRowValueList at h
  rw [if_neg (by simp [hf.2]), if_neg (by simp [hf.1])] at h
  split_ifs at h with hover hunder hin
  · simp [rowIndexOverflow] at h
  · simp [rowIndexUnderflow] at h
  · cases valueList with
    | nil => cases h
    | cons value values => exact (Prod.mk.inj (Option.some.inj h)).2.symm
  · cases valueList <;> cases h

theorem OpenOn.writeRowValueList (hf : OpenOn tableID f) {valueList : List Text} {rowIndex : ℤ}
    (hnew : ∀ value ∈ valueList, '\n' ∉ value)
    (h : f.writeRowValueList valueList rowIndex = some (0, g)) :
    Accepted tableID f (.writeRowValueList valueList rowIndex) g := by
  obtain rfl := writeRowValueList_zero hf.writable h
  refine ⟨⟨hf.writable, hf.name, ?_⟩, (Bool.or_false _).symm, fun _ => rfl⟩
  intro row hrow
  rcases List.mem_or_eq_of_mem_set hrow with hrow | rfl
  · exact hf.newlineFree row hrow
  · exact newline_notMem_rowString hnew

theorem deleteDuplicateRecords_zero (hf : f.Writable) {rowIndex : ℤ}
    (h : f.deleteDuplicateRecords rowIndex = (0, g)) :
    ∃ front line later, f.readWriteData = front ++ line :: later ∧
      front.length = rowIndex.toNat ∧ g = { f with
        readWriteData := front ++ line :: later.filter (· ≠ line)
        dataModified := f.dataModified || later.any (· = line) } := by
  have hin : 0 ≤ rowIndex ∧ rowIndex.toNat < f.readWriteData.length := by
    unfold FileDataBaseAccess.deleteDuplicateRecords at h
    rw [if_neg (by simp [hf.2]), if_neg (by simp [hf.1])] at h
    split_ifs at h with hover hunder
    · simp [duplicateCleanupDone] at h
    · simp [rowIndexUnderflow] at h
    · rw [toSizeT, if_neg hunder] at hover
      omega
  obtain ⟨front, line, later, hdata, hlength⟩ := exists_split_at hin.2
  have hrow := deleteDuplicateRecords_row hf hdata
  rw [hlength, Int.toNat_of_nonneg hin.1, h] at hrow
  exact ⟨front, line, later, hdata, hlength, (Prod.mk.inj hrow).2⟩

theorem OpenOn.deleteDuplicateRecords (hf : OpenOn tableID f) {rowIndex : ℤ}
    (h : f.deleteDuplicateRecords rowIndex = (0, g)) :
    Accepted tableID f (.deleteDuplicateRecords rowIndex) g := by
  obtain ⟨front, line, later, hdata, hlength, rfl⟩ := deleteDuplicateRecords_zero hf.writable h
  have hmarks : (RowCall.deleteDuplicateRecords rowIndex).marks f.readWriteData =
      later.any (· = line) := by
    rw [RowCall.marks, hdata, ← hlength, List.getElem?_append_right le_rfl]
    have hdrop : (front ++ line :: later).drop (front.length + 1) = later := by
      rw [← List.drop_drop, List.drop_left, List.drop_one, List.tail_cons]
    rw [hdrop, Nat.sub_self, List.getElem?_cons_zero, Option.any_some, Bool.eq_iff_iff]
    simp
  refine ⟨hf.withRows _ ?_, by rw [hmarks], fun hnone => ?_⟩
  · intro row hrow
    apply hf.newlineFree row
    rw [hdata]
    simp only [List.mem_append, List.mem_cons, List.mem_filter] at hrow ⊢
    tauto
  · rw [hmarks, List.any_eq_false] at hnone
    have hline : line ∉ later := fun hmem => hnone line hmem (decide_eq_true rfl)
    simp only [RowCall.overwrite]
    rw [List.filter_ne_of_notMem hline, hdata]

theorem OpenOn.writeRowValue
    (hregex : ∀ data feild value out, regexReplace data feild value = some out →
      '\n' ∉ data → '\n' ∉ value → '\n' ∉ out)
    (hreinsert : ∀ rows i row out, reinsert rows i row = some out → ∀ x ∈ out, x ∈ rows ∨ x = row)
    (hf : OpenOn tableID f) {value : Text} {rowIndex columnIndex : ℤ} (hnew : '\n' ∉ value)
    (h : f.writeRowValue regexReplace reinsert value rowIndex columnIndex = some (0, g)) :
    Accepted tableID f (.writeRowValue value rowIndex columnIndex) g := by
  unfold FileDataBaseAccess.writeRowValue at h
  rw [if_neg (by simp [hf.writable.2]), if_neg (by simp [hf.writable.1])] at h
  by_cases hover : toSizeT rowIndex > f.readWriteData.length
  · simp [if_pos hover, rowIndexOverflow] at h
  rw [if_neg hover] at h
  obtain ⟨columns, _, h⟩ := Option.bind_eq_some_iff.mp h
  by_cases hright : columnIndex > columns
  · simp [if_pos hright, columnIndexOverflow] at h
  rw [if_neg hright] at h
  by_cases hunder : rowIndex < 0
  · simp [if_pos hunder, rowIndexUnderflow] at h
  rw [if_neg hunder] at h
  by_cases hleft : columnIndex < 0
  · simp [if_pos hleft, columnIndexUnderflow] at h
  rw [if_neg hleft] at h
  obtain ⟨feild, _, h⟩ := Option.bind_eq_some_iff.mp h
  obtain ⟨data, hdata, h⟩ := Option.bind_eq_some_iff.mp h
  split_ifs at h with hin
  obtain ⟨rows, hrows, h⟩ := Option.map_eq_some_iff.mp h
  cases h
  refine ⟨hf.withRows true fun row hrow => ?_, (Bool.or_true _).symm, nofun⟩
  have hold : '\n' ∉ (f.readWriteData[rowIndex.toNat]?).getD [] := by
    rw [List.getElem?_eq_getElem hin]
    exact hf.newlineFree _ (List.getElem_mem hin)
  rcases hreinsert _ _ _ _ hrows row hrow with hrow | rfl
  · exact hf.newlineFree row hrow
  · exact hregex _ _ _ _ hdata hold hnew

@[simp] theorem rows_openFile (disk : Disk) (tableID : Text) (accessMacro : FileAccessType) :
    (openFile disk tableID accessMacro).rows = fileLines disk tableID := by
  cases accessMacro <;> rfl

theorem OpenOn.rows_eq (hf : OpenOn tableID f) : f.rows = f.readWriteData := by
  simp [rows, hf.writable.1]

theorem OpenOn.closeFile_eq (hf : OpenOn tableID f) : f.closeFile disk = f.commitChanges disk := by
  simp [closeFile, hf.writable.2]

/-- The rows reach the file when the handle is marked, or equal to its lines. -/
theorem OpenOn.reachesFile_iff (hf : OpenOn tableID f) :
    f.ReachesFile tableID disk ↔
      f.dataModified = true ∨ f.readWriteData = fileLines disk tableID := by
  simp only [ReachesFile, rows_openFile, hf.closeFile_eq, hf.rows_eq, and_self]
  cases hmodified : f.dataModified with
  | true =>
    have hcommit : fileLines (f.commitChanges disk) tableID = f.readWriteData := by
      rw [commitChanges, if_pos ⟨hf.writable.1, hmodified⟩, fileLines, hf.name,
        Function.update_self, Option.getD_some, splitStringByNewline]
      exact records_unrecords _ hf.newlineFree
    simp [hcommit]
  | false =>
    have hcommit : f.commitChanges disk = disk := by simp [commitChanges, hmodified]
    simp only [hcommit, Bool.false_eq_true, false_or]
    exact ⟨fun h => (h .rwFile).symm, fun h _ => h.symm⟩

section Runs

variable
  (hregex : ∀ data feild value out, regexReplace data feild value = some out →
    '\n' ∉ data → '\n' ∉ value → '\n' ∉ out)
  (hreinsert : ∀ rows i row out, reinsert rows i row = some out → ∀ x ∈ out, x ∈ rows ∨ x = row)
include hregex hreinsert

theorem OpenOn.accepted (hf : OpenOn tableID f) {call : RowCall} (hnew : call.NewlineFree)
    (h : f.accept regexReplace reinsert call = some g) : Accepted tableID f call g := by
  obtain ⟨⟨rc, g'⟩, hperform, h⟩ := Option.bind_eq_some_iff.mp h
  dsimp only at h
  split_ifs at h with hrc
  cases h
  subst hrc
  cases call with
  | writeBlob data => exact hf.writeBlob (Option.some.inj hperform)
  | writeRowValue value rowIndex columnIndex =>
    exact hf.writeRowValue hregex hreinsert hnew hperform
  | writeRowValueList valueList rowIndex => exact hf.writeRowValueList hnew hperform
  | deleteDuplicateRecords rowIndex => exact hf.deleteDuplicateRecords (Option.some.inj hperform)

/-- After a run of accepted calls the handle is marked exactly when one of them
has marked it, and without a mark the rows are the old ones overwritten. -/
theorem OpenOn.exec_accept {calls : List RowCall} (hf : OpenOn tableID f)
    (hnew : ∀ call ∈ calls, call.NewlineFree)
    (h : exec (accept regexReplace reinsert) f calls = some g) :
    OpenOn tableID g ∧
      g.dataModified = (f.dataModified || RowCall.marked f.readWriteData calls) ∧
      (RowCall.marked f.readWriteData calls = false →
        g.readWriteData = RowCall.overwritten f.readWriteData calls) := by
  induction calls generalizing f with
  | nil =>
    cases h
    exact ⟨hf, (Bool.or_false _).symm, fun _ => rfl⟩
  | cons call calls ih =>
    obtain ⟨m, hm, h⟩ := exec_cons_eq_some.mp h
    have hstep := hf.accepted hregex hreinsert (hnew call (List.mem_cons_self ..)) hm
    obtain ⟨hopen, hmodified, hlines⟩ := ih hstep.openOn
      (fun c hc => hnew c (List.mem_cons_of_mem _ hc)) h
    refine ⟨hopen, ?_, ?_⟩
    · rw [hmodified, hstep.modified, RowCall.marked]
      cases hmarks : call.marks f.readWriteData with
      | true => simp
      | false => rw [hstep.lines hmarks, Bool.or_false, Bool.false_or]
    · intro hnone
      rw [RowCall.marked, Bool.or_eq_false_iff] at hnone
      rw [hstep.lines hnone.1] at hlines
      exact hlines hnone.2

/-- Accepted calls on a freshly opened handle reach the file exactly when one of
them marks the handle, or when the rows they overwrite are what they were. -/
theorem reachesFile_iff_marked (disk : Disk) (tableID : Text) (calls : List RowCall)
    (hnew : ∀ call ∈ calls, call.NewlineFree)
    (h : exec (accept regexReplace reinsert) (openFile disk tableID .rwFile) calls = some f) :
    f.ReachesFile tableID disk ↔ RowCall.marked (fileLines disk tableID) calls = true ∨
      RowCall.overwritten (fileLines disk tableID) calls = fileLines disk tableID := by
  obtain ⟨hopen, hmodified, hlines⟩ :=
    (openOn_openFile disk tableID).exec_accept hregex hreinsert hnew h
  have hdata : (openFile disk tableID .rwFile).readWriteData = fileLines disk tableID := rfl
  rw [openFile_dataModified, Bool.false_or, hdata] at hmodified
  rw [hdata] at hlines
  rw [hopen.reachesFile_iff, hmodified]
  cases hmarked : RowCall.marked (fileLines disk tableID) calls with
  | true => simp
  | false => rw [hlines hmarked]

end Runs

/-- A row is overwritten with a copy of another one, which is then erased. -/
def copiedRow : List RowCall :=
  [.writeRowValueList [['a']] 2, .deleteDuplicateRecords 1]

theorem reachesFile_copiedRow :
    ∃ f, exec (accept (fun _ _ _ => none) (fun _ _ _ => none))
        (openFile (diskOf ['t'] [['h'], ['a'], ['b']]) ['t'] .rwFile) copiedRow = some f ∧
      f.ReachesFile ['t'] (diskOf ['t'] [['h'], ['a'], ['b']]) := by
  obtain ⟨f, hf⟩ : ∃ f, exec (accept (fun _ _ _ => none) (fun _ _ _ => none))
      (openFile (diskOf ['t'] [['h'], ['a'], ['b']]) ['t'] .rwFile) copiedRow = some f :=
    Option.isSome_iff_exists.mp (by decide)
  exact ⟨f, hf, (reachesFile_iff_marked (by simp) (by simp) _ _ copiedRow (by decide) hf).mpr
    (.inl (by decide))⟩

/-- The row written by `writeRowValueList` is not in the file afterwards. -/
theorem not_reachesFile_rowList :
    ¬ ∀ (disk : Disk) (tableID : Text) (calls : List RowCall) (f : FileDataBaseAccess),
      (∀ call ∈ calls, call.NewlineFree) →
      exec (accept (fun _ _ _ => none) (fun _ _ _ => none)) (openFile disk tableID .rwFile) calls =
        some f → f.ReachesFile tableID disk := by
  intro h
  have hrun : ((exec (accept (fun _ _ _ => none) (fun _ _ _ => none))
      (openFile (diskOf ['t'] [['h'], ['a']]) ['t'] .rwFile)
      [.writeRowValueList [['x']] 1]).map fun f =>
        decide ((openFile (f.closeFile (diskOf ['t'] [['h'], ['a']])) ['t'] .rwFile).rows =
          f.rows)) = some false := by decide
  obtain ⟨f, hf, hlost⟩ := Option.map_eq_some_iff.mp hrun
  exact absurd (h _ _ _ f (by decide) hf .rwFile).2 (by simpa using hlost)

end FileDataBaseAccess

end WorkerUnit
