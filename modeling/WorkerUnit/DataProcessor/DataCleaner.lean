import WorkerUnit.DataProcessor.InstanceData
import WorkerUnit.Library.FirstOccurrences
import WorkerUnit.Library.Loop
import WorkerUnit.Scheduler.Job
import WorkerUnit.Services.FileDataBaseAccess

/-!
# The clean phase

`data_processor/data_cleaner.cpp`. One call takes the next row and erases its
copies further down; the destructor commits the lines that are left.
-/

namespace WorkerUnit

open FileDataBaseAccess

structure DataCleaner where
  iterator : ℤ
  fileDataBaseAccess : FileDataBaseAccess

namespace DataCleaner

/-- The constructor. -/
def new (disk : Disk) (tableData : TableData) : DataCleaner :=
  ⟨0, openFile disk tableData.tableID .rwFile⟩

def clean (c : DataCleaner) : ℤ × DataCleaner :=
  let (rc, file) := c.fileDataBaseAccess.deleteDuplicateRecords c.iterator
  (if rc = duplicateCleanupDone then 1 else 0,
    { c with fileDataBaseAccess := file, iterator := c.iterator + 1 })

def cleanDataStart (c : DataCleaner) : JobStatus × DataCleaner :=
  (if c.clean.1 ≠ 0 then .done else .pending, c.clean.2)

/-- The calls of `clean_data_start` up to `JOB_DONE`. -/
def RunsTo (c final : DataCleaner) : Prop :=
  Loop.Ends (fun c : DataCleaner => some c.cleanDataStart) (· = .done) c final

/-- The rows before the iterator occur once. -/
structure Deduplicated (c : DataCleaner) (front post : List Text) : Prop where
  writable : c.fileDataBaseAccess.Writable
  iterator : c.iterator = front.length
  data : c.fileDataBaseAccess.readWriteData = front ++ post
  nodup : front.Nodup
  disjoint : ∀ line ∈ front, line ∉ post

variable {c : DataCleaner} {front post : List Text}

theorem Deduplicated.done (h : c.Deduplicated front []) :
    c.cleanDataStart = (.done, { c with iterator := c.iterator + 1 }) := by
  have hlength : c.fileDataBaseAccess.readWriteData.length ≤ front.length := by simp [h.data]
  have hdelete := deleteDuplicateRecords_done h.writable hlength
  rw [← h.iterator] at hdelete
  simp [cleanDataStart, clean, hdelete]

/-- A call erases the copies of the next row, and marks the file when there are any. -/
theorem Deduplicated.row {line : Text} {later : List Text}
    (h : c.Deduplicated front (line :: later)) :
    ∃ d, c.cleanDataStart = (.pending, d) ∧
      d.Deduplicated (front ++ [line]) (later.filter (· ≠ line)) ∧
      d.fileDataBaseAccess =
        { c.fileDataBaseAccess with
          readWriteData := front ++ line :: later.filter (· ≠ line)
          dataModified := c.fileDataBaseAccess.dataModified || decide (line ∈ later) } := by
  have hdelete := deleteDuplicateRecords_row h.writable h.data
  have hany : (later.any fun x => decide (x = line)) = decide (line ∈ later) := by
    rw [Bool.eq_iff_iff]
    simp
  rw [← h.iterator, hany] at hdelete
  refine ⟨_, by simp only [cleanDataStart, clean, hdelete]; rfl, ?_, rfl⟩
  constructor
  · exact h.writable
  · simp [h.iterator]
  · simp
  · rw [List.nodup_append]
    refine ⟨h.nodup, List.nodup_singleton _, ?_⟩
    rintro x hx y hy rfl
    rw [List.mem_singleton.mp hy] at hx
    exact h.disjoint line hx (List.mem_cons_self ..)
  · intro x hx hlater
    obtain ⟨hmem, hne⟩ := List.mem_filter.mp hlater
    rcases List.mem_append.mp hx with hx | hx
    · exact h.disjoint x hx (List.mem_cons_of_mem _ hmem)
    · rw [List.mem_singleton.mp hx] at hne
      simp at hne

/-- A list with a copy of its first element stays marked; otherwise the rest decides. -/
theorem mem_or_not_nodup_filter (line : Text) (later : List Text) :
    (decide (line ∈ later) || decide ¬ (later.filter (· ≠ line)).Nodup) =
      decide ¬ (line :: later).Nodup := by
  by_cases hmem : line ∈ later
  · simp [hmem]
  · simp only [List.filter_ne_of_notMem hmem, List.nodup_cons, hmem, decide_false, Bool.false_or,
      not_false_eq_true, true_and]

/-- One call for each row that is left, and one more, clean the rows. -/
theorem Deduplicated.run {fuel : ℕ} (h : c.Deduplicated front post) (hfuel : post.length < fuel) :
    ∃ final, Loop.run (fun c : DataCleaner => some c.cleanDataStart) (· = .done) fuel c =
        some final ∧
      final.fileDataBaseAccess =
        { c.fileDataBaseAccess with
          readWriteData := front ++ post.eraseDups
          dataModified := c.fileDataBaseAccess.dataModified || decide ¬ post.Nodup } := by
  induction fuel generalizing c front post with
  | zero => exact absurd hfuel (Nat.not_lt_zero _)
  | succ fuel ih =>
    cases post with
    | nil =>
      refine ⟨_, Loop.run_of_stop (congrArg some h.done) (by rfl) fuel, ?_⟩
      simp [← h.data]
    | cons line later =>
      obtain ⟨d, hd, hnext, hfile⟩ := h.row
      have hshort := List.length_filter_ne_lt line later
      obtain ⟨final, hrun, hfinal⟩ := ih hnext (by omega)
      refine ⟨final, (Loop.run_of_continue (congrArg some hd) (by rfl) fuel).trans hrun, ?_⟩
      simp only [hfinal, hfile, List.eraseDups_cons_filter, ← mem_or_not_nodup_filter,
        List.append_assoc, List.singleton_append, Bool.or_assoc]

/-- The clean phase ends, and the lines it leaves are lines of the file, each once. -/
theorem Deduplicated.runsTo (h : c.Deduplicated front post) :
    ∃ final, c.RunsTo final ∧ final.fileDataBaseAccess.Writable ∧
      final.fileDataBaseAccess.readWriteData.Nodup ∧
      final.fileDataBaseAccess.readWriteData.Sublist c.fileDataBaseAccess.readWriteData := by
  obtain ⟨final, hrun, hfile⟩ := h.run (Nat.lt_succ_self _)
  refine ⟨final, ⟨_, hrun⟩, hfile ▸ h.writable, ?_, ?_⟩
  · rw [hfile, List.nodup_append]
    refine ⟨h.nodup, List.nodup_eraseDups post, ?_⟩
    rintro x hx y hy rfl
    exact h.disjoint x hx (List.mem_eraseDups.mp hy)
  · rw [hfile, h.data]
    exact (List.Sublist.refl front).append (List.eraseDups_sublist post)

theorem deduplicated_new (disk : Disk) (tableData : TableData) :
    (new disk tableData).Deduplicated [] (fileLines disk tableData.tableID) :=
  ⟨writable_openFile _, rfl, rfl, List.nodup_nil, fun _ h => nomatch h⟩

/-- The handle holds the first occurrences of the rows, and is marked exactly when
some row is gone. -/
structure HoldsFirst (rows : List Text) (f : FileDataBaseAccess) : Prop where
  data : f.readWriteData = rows.eraseDups
  nodup : f.readWriteData.Nodup
  mem : ∀ line, line ∈ f.readWriteData ↔ line ∈ rows
  sublist : f.readWriteData.Sublist rows
  modified : f.dataModified = true ↔ f.readWriteData.length < rows.length

theorem holdsFirst_new (disk : Disk) (tableData : TableData) {f : FileDataBaseAccess}
    (h : f = { openFile disk tableData.tableID .rwFile with
      readWriteData := (fileLines disk tableData.tableID).eraseDups
      dataModified := decide ¬ (fileLines disk tableData.tableID).Nodup }) :
    HoldsFirst (fileLines disk tableData.tableID) f := by
  subst h
  refine ⟨rfl, List.nodup_eraseDups _, fun _ => List.mem_eraseDups, List.eraseDups_sublist _, ?_⟩
  rw [decide_eq_true_iff, List.length_eraseDups_lt_iff]

/-- The clean phase ends within one call more than there are rows and leaves their
first occurrences; another run over the handle changes nothing. -/
theorem clean_holdsFirst (disk : Disk) (tableData : TableData) :
    ∃ final again, Loop.run (fun c : DataCleaner => some c.cleanDataStart) (· = .done)
        ((fileLines disk tableData.tableID).length + 1) (new disk tableData) = some final ∧
      HoldsFirst (fileLines disk tableData.tableID) final.fileDataBaseAccess ∧
      Loop.run (fun c : DataCleaner => some c.cleanDataStart) (· = .done)
        (final.fileDataBaseAccess.readWriteData.length + 1) { final with iterator := 0 } =
          some again ∧
      again.fileDataBaseAccess = final.fileDataBaseAccess := by
  have hnew := deduplicated_new disk tableData
  obtain ⟨final, hrun, hfile⟩ := hnew.run (Nat.lt_succ_self _)
  have hfirst := holdsFirst_new disk tableData hfile
  have hagain : ({ final with iterator := 0 } : DataCleaner).Deduplicated []
      final.fileDataBaseAccess.readWriteData :=
    ⟨hfile ▸ hnew.writable, rfl, rfl, List.nodup_nil, fun _ h => nomatch h⟩
  obtain ⟨again, hrerun, hsame⟩ := hagain.run (Nat.lt_succ_self _)
  refine ⟨final, again, hrun, hfirst, hrerun, ?_⟩
  rw [hsame, List.nil_append, List.eraseDups_eq_self_iff.mpr hfirst.nodup]
  simp [hfirst.nodup]

/-- Cleaning lines that are all different only moves the iterator. -/
theorem cleanDataStart_of_nodup (hf : c.fileDataBaseAccess.Writable)
    (hnodup : c.fileDataBaseAccess.readWriteData.Nodup) {k : ℕ} (hk : c.iterator = k) :
    c.cleanDataStart.2 = { c with iterator := c.iterator + 1 } := by
  have hdelete := deleteDuplicateRecords_of_nodup hf hnodup k
  rw [← hk] at hdelete
  simp [cleanDataStart, clean, hdelete]

end DataCleaner

end WorkerUnit
