import WorkerUnit.Services.WriteBack

/-!
# Dropping a file

All calls on one handle, from its construction to its destruction. The calls that
change rows and the destructor look at the deleted flag first; `commitChanges` does
not, and writes what was modified before the drop.
-/

namespace WorkerUnit

open StepSystem

namespace FileDataBaseAccess

/-- `dropFile`. -/
def dropFile (f : FileDataBaseAccess) (disk : Disk) : FileDataBaseAccess × Disk :=
  if f.fileDeleted then (f, disk)
  else if f.accessMode = .readFile then (f, disk)
  else ({ f with fileDeleted := true }, Function.update disk f.fileName none)

end FileDataBaseAccess

/-- The public methods and the destructor. -/
inductive FileCall where
  | write (call : RowCall)
  | getBlob
  | getTotalRows
  | getTotalColumns
  | getRowValueList (rowIndex : ℤ)
  | getColumnNamesList
  | getRowValue (rowIndex columnIndex : ℤ)
  | dropFile
  | commitChanges
  | destroy
  deriving DecidableEq

/-- A handle with the disk; `destroyed` after the destructor. -/
structure FileRun where
  handle : FileDataBaseAccess
  disk : Disk
  destroyed : Bool

namespace FileRun

variable (regexReplace : Text → Text → Text → Option Text)
  (reinsert : List Text → ℕ → Text → Option (List Text))

def start (disk : Disk) (fileName : Text) (accessMacro : FileAccessType) : FileRun :=
  ⟨.openFile disk fileName accessMacro, disk, false⟩

/-- One call on a handle that is alive; a query that reads past the end of a
container has no result. -/
def call (s : FileRun) (c : FileCall) : Option FileRun :=
  if s.destroyed then none
  else match c with
    | .write rowCall => (s.handle.perform regexReplace reinsert rowCall).map fun r =>
        { s with handle := r.2 }
    | .getBlob | .getTotalRows => some s
    | .getTotalColumns => s.handle.getTotalColumns.map fun _ => s
    | .getRowValueList rowIndex => (s.handle.getRowValueList rowIndex).map fun _ => s
    | .getColumnNamesList => s.handle.getColumnNamesList.map fun _ => s
    | .getRowValue rowIndex columnIndex =>
      (s.handle.getRowValue rowIndex columnIndex).map fun _ => s
    | .dropFile => some
        { s with handle := (s.handle.dropFile s.disk).1, disk := (s.handle.dropFile s.disk).2 }
    | .commitChanges => some { s with disk := s.handle.commitChanges s.disk }
    | .destroy => some { s with disk := s.handle.closeFile s.disk, destroyed := true }

/-- A dropped file is gone and its handle refuses every change of a row; a read handle
leaves the disk as it was at first. -/
structure DropLaw (first : Disk) (s : FileRun) : Prop where
  dropped : s.handle.fileDeleted = true → s.disk s.handle.fileName = none
  denied : s.handle.fileDeleted = true → ∀ rowCall rc g,
    s.handle.perform regexReplace reinsert rowCall = some (rc, g) →
      rc = accessDenied ∧ g.readWriteData = s.handle.readWriteData
  readOnly : s.handle.accessMode = .readFile → s.disk = first

/-- Nothing is left to be written when a handle is committed whose file is dropped. -/
def CommitsNothing (s : FileRun) : FileCall → Prop
  | .commitChanges => s.handle.fileDeleted = true → s.handle.dataModified = false
  | _ => True

instance (s : FileRun) (c : FileCall) : Decidable (s.CommitsNothing c) := by
  unfold CommitsNothing
  cases c <;> exact inferInstance

variable {regexReplace reinsert}

theorem writeRowValue_frame {f g : FileDataBaseAccess} {value : Text} {rowIndex columnIndex rc : ℤ}
    (h : f.writeRowValue regexReplace reinsert value rowIndex columnIndex = some (rc, g)) :
    g.fileName = f.fileName ∧ g.accessMode = f.accessMode ∧ g.fileDeleted = f.fileDeleted := by
  have hrefused : ∀ code : ℤ, some (code, f) = some (rc, g) →
      g.fileName = f.fileName ∧ g.accessMode = f.accessMode ∧ g.fileDeleted = f.fileDeleted := by
    intro code heq
    cases heq
    exact ⟨rfl, rfl, rfl⟩
  unfold FileDataBaseAccess.writeRowValue at h
  by_cases hdeleted : f.fileDeleted = true
  · rw [if_pos hdeleted] at h
    exact hrefused _ h
  rw [if_neg hdeleted] at h
  by_cases hmode : f.accessMode = .readFile
  · rw [if_pos hmode] at h
    exact hrefused _ h
  rw [if_neg hmode] at h
  by_cases hover : toSizeT rowIndex > f.readWriteData.length
  · rw [if_pos hover] at h
    exact hrefused _ h
  rw [if_neg hover] at h
  obtain ⟨columns, -, h⟩ := Option.bind_eq_some_iff.mp h
  by_cases hright : columnIndex > columns
  · rw [if_pos hright] at h
    exact hrefused _ h
  rw [if_neg hright] at h
  by_cases hunder : rowIndex < 0
  · rw [if_pos hunder] at h
    exact hrefused _ h
  rw [if_neg hunder] at h
  by_cases hleft : columnIndex < 0
  · rw [if_pos hleft] at h
    exact hrefused _ h
  rw [if_neg hleft] at h
  obtain ⟨feild, -, h⟩ := Option.bind_eq_some_iff.mp h
  obtain ⟨data, -, h⟩ := Option.bind_eq_some_iff.mp h
  split_ifs at h with hin
  obtain ⟨rows, -, h⟩ := Option.map_eq_some_iff.mp h
  cases h
  exact ⟨rfl, rfl, rfl⟩

/-- A change of a row keeps the file of a handle and its flags. -/
theorem perform_frame {f g : FileDataBaseAccess} {rowCall : RowCall} {rc : ℤ}
    (h : f.perform regexReplace reinsert rowCall = some (rc, g)) :
    g.fileName = f.fileName ∧ g.accessMode = f.accessMode ∧ g.fileDeleted = f.fileDeleted := by
  cases rowCall with
  | writeBlob data =>
    simp only [FileDataBaseAccess.perform, FileDataBaseAccess.writeBlob, Option.some.injEq] at h
    split_ifs at h <;> cases h <;> exact ⟨rfl, rfl, rfl⟩
  | writeRowValue value rowIndex columnIndex =>
    exact writeRowValue_frame h
  | writeRowValueList valueList rowIndex =>
    obtain ⟨data, rfl, -⟩ := FileDataBaseAccess.writeRowValueList_frame h
    exact ⟨rfl, rfl, rfl⟩
  | deleteDuplicateRecords rowIndex =>
    simp only [FileDataBaseAccess.perform, FileDataBaseAccess.deleteDuplicateRecords,
      Option.some.injEq] at h
    split_ifs at h
    · cases h
      exact ⟨rfl, rfl, rfl⟩
    · cases h
      exact ⟨rfl, rfl, rfl⟩
    · cases h
      exact ⟨rfl, rfl, rfl⟩
    · cases h
      exact ⟨rfl, rfl, rfl⟩
    · split at h <;> cases h <;> exact ⟨rfl, rfl, rfl⟩

/-- Every change of a row asks for the deleted flag first. -/
theorem perform_of_deleted {f : FileDataBaseAccess} (hf : f.fileDeleted = true)
    (rowCall : RowCall) :
    f.perform regexReplace reinsert rowCall = some (accessDenied, f) := by
  cases rowCall with
  | writeBlob data => simp [FileDataBaseAccess.perform, FileDataBaseAccess.writeBlob, hf]
  | writeRowValue value rowIndex columnIndex =>
    simp [FileDataBaseAccess.perform, FileDataBaseAccess.writeRowValue, hf]
  | writeRowValueList valueList rowIndex =>
    simp [FileDataBaseAccess.perform, FileDataBaseAccess.writeRowValueList, hf]
  | deleteDuplicateRecords rowIndex =>
    simp [FileDataBaseAccess.perform, FileDataBaseAccess.deleteDuplicateRecords, hf]

/-- Only the file of a read/write handle is dropped. -/
structure Dropped (first : Disk) (s : FileRun) : Prop where
  gone : s.handle.fileDeleted = true → s.disk s.handle.fileName = none
  mode : s.handle.fileDeleted = true → s.handle.accessMode = .rwFile
  readOnly : s.handle.accessMode = .readFile → s.disk = first

variable {first : Disk} {s t : FileRun}

theorem dropLaw_of (hgone : s.handle.fileDeleted = true → s.disk s.handle.fileName = none)
    (hread : s.handle.accessMode = .readFile → s.disk = first) :
    DropLaw regexReplace reinsert first s where
  dropped := hgone
  denied := by
    intro hdeleted rowCall rc g hperform
    rw [perform_of_deleted hdeleted] at hperform
    cases hperform
    exact ⟨rfl, rfl⟩
  readOnly := hread

theorem Dropped.law (h : s.Dropped first) : DropLaw regexReplace reinsert first s :=
  dropLaw_of h.gone h.readOnly

theorem dropped_start (disk : Disk) (fileName : Text) (accessMacro : FileAccessType) :
    (start disk fileName accessMacro).Dropped disk := by
  have hdeleted : (start disk fileName accessMacro).handle.fileDeleted = false := by
    cases accessMacro <;> rfl
  exact ⟨by simp [hdeleted], by simp [hdeleted], fun _ => rfl⟩

theorem Dropped.dropFile (h : s.Dropped first) (destroyed : Bool) :
    Dropped first ⟨(s.handle.dropFile s.disk).1, (s.handle.dropFile s.disk).2, destroyed⟩ := by
  unfold FileDataBaseAccess.dropFile
  split_ifs with hdeleted hmode
  · exact ⟨h.gone, h.mode, h.readOnly⟩
  · exact ⟨h.gone, h.mode, h.readOnly⟩
  · have hrw : s.handle.accessMode = .rwFile := by
      cases haccess : s.handle.accessMode with
      | readFile => exact absurd haccess hmode
      | rwFile => rfl
    exact ⟨fun _ => Function.update_self .., fun _ => hrw, fun hread => absurd hread hmode⟩

/-- A commit keeps a dropped file dropped when it writes nothing. -/
theorem Dropped.commit (h : s.Dropped first) (destroyed : Bool)
    (hnothing : s.handle.fileDeleted = true → s.handle.dataModified = false) :
    Dropped first ⟨s.handle, s.handle.commitChanges s.disk, destroyed⟩ := by
  refine ⟨fun hdeleted => ?_, h.mode, fun hread => ?_⟩
  · simpa [FileDataBaseAccess.commitChanges, hnothing hdeleted] using h.gone hdeleted
  · change s.handle.accessMode = .readFile at hread
    simpa [FileDataBaseAccess.commitChanges, hread] using h.readOnly hread

/-- What was modified before the drop is written by a commit. -/
theorem Dropped.commitsNothing (h : s.Dropped first) {destroyed : Bool}
    (law : DropLaw regexReplace reinsert first
      ⟨s.handle, s.handle.commitChanges s.disk, destroyed⟩) : s.CommitsNothing .commitChanges := by
  intro hdeleted
  by_contra hmodified
  have hgone := law.dropped hdeleted
  have hmodified' : s.handle.dataModified = true := by simpa using hmodified
  simp [FileDataBaseAccess.commitChanges, h.mode hdeleted, hmodified'] at hgone

theorem Dropped.step (h : s.Dropped first) {c : FileCall}
    (ht : s.call regexReplace reinsert c = some t) :
    (DropLaw regexReplace reinsert first t ↔ s.CommitsNothing c) ∧
      (s.CommitsNothing c → t.Dropped first) := by
  have hother : s.CommitsNothing c → t.Dropped first →
      (DropLaw regexReplace reinsert first t ↔ s.CommitsNothing c) ∧
        (s.CommitsNothing c → t.Dropped first) := step_iff_of_met fun h => h.law
  unfold call at ht
  split_ifs at ht with hdestroyed
  cases c with
  | write rowCall =>
    obtain ⟨⟨rc, g⟩, hperform, rfl⟩ := Option.map_eq_some_iff.mp ht
    obtain ⟨hname, hmode, hdeleted⟩ := perform_frame hperform
    refine hother trivial ⟨?_, ?_, ?_⟩
    · simpa only [hname, hdeleted] using h.gone
    · simpa only [hmode, hdeleted] using h.mode
    · simpa only [hmode] using h.readOnly
  | dropFile =>
    cases ht
    exact hother trivial (h.dropFile s.destroyed)
  | commitChanges =>
    cases ht
    exact step_iff_of_kept (fun h => h.law) h.commitsNothing (h.commit _)
  | destroy =>
    cases ht
    apply hother trivial
    unfold FileDataBaseAccess.closeFile
    split_ifs with hdeleted
    · exact ⟨h.gone, h.mode, h.readOnly⟩
    · exact h.commit true fun htrue => absurd htrue hdeleted
  | getBlob | getTotalRows =>
    cases ht
    exact hother trivial h
  | getTotalColumns | getRowValueList | getColumnNamesList | getRowValue =>
    obtain ⟨_, -, rfl⟩ := Option.map_eq_some_iff.mp ht
    exact hother trivial h

end FileRun

/-- All calls on a handle leave a dropped file dropped, and those on a read handle the
disk as it is, exactly when no commit finds modified rows of a dropped file. -/
theorem dropLaw_iff (regexReplace : Text → Text → Text → Option Text)
    (reinsert : List Text → ℕ → Text → Option (List Text)) (disk : Disk) (fileName : Text)
    (accessMacro : FileAccessType) (calls : List FileCall) (s : FileRun)
    (hrun : exec (FileRun.call regexReplace reinsert) (.start disk fileName accessMacro) calls =
      some s) :
    Always (FileRun.call regexReplace reinsert) (FileRun.DropLaw regexReplace reinsert disk)
        (.start disk fileName accessMacro) calls ↔
      Guarded (FileRun.call regexReplace reinsert) FileRun.CommitsNothing
        (.start disk fileName accessMacro) calls :=
  always_iff_guarded (fun _ h => h.law) (fun _ _ _ h ht => h.step ht)
    (FileRun.dropped_start disk fileName accessMacro) hrun

/-- The rows are committed, the file is dropped, and the handle destroyed. -/
def commitThenDrop : List FileCall :=
  [.write (.writeBlob ['a']), .commitChanges, .dropFile, .write (.writeBlob ['b']), .destroy]

theorem dropLaw_commitThenDrop :
    Always (FileRun.call (fun _ _ _ => none) fun _ _ _ => none)
      (FileRun.DropLaw (fun _ _ _ => none) (fun _ _ _ => none) (diskOf ['t'] []))
      (.start (diskOf ['t'] []) ['t'] .rwFile) commitThenDrop := by
  obtain ⟨s, hs⟩ : ∃ s, exec (FileRun.call (fun _ _ _ => none) fun _ _ _ => none)
      (.start (diskOf ['t'] []) ['t'] .rwFile) commitThenDrop = some s :=
    Option.isSome_iff_exists.mp (by decide)
  exact (dropLaw_iff _ _ (diskOf ['t'] []) ['t'] .rwFile commitThenDrop s hs).mpr (by decide)

/-- A commit after the drop writes the rows into a new file. -/
theorem not_dropLaw_commitAfterDrop :
    ∃ s, exec (FileRun.call (fun _ _ _ => none) fun _ _ _ => none)
        (.start (diskOf ['t'] []) ['t'] .rwFile)
        [.write (.writeBlob ['a']), .dropFile, .commitChanges] = some s ∧
      s.disk (csvName ['t']) = some ['a', '\n'] ∧
      ¬ FileRun.DropLaw (fun _ _ _ => none) (fun _ _ _ => none) (diskOf ['t'] []) s := by
  refine ⟨_, rfl, by decide, fun law => ?_⟩
  have hgone := law.dropped rfl
  revert hgone
  decide

end WorkerUnit
