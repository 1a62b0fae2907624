import WorkerUnit.Scheduler.SchedTask

/-!
# The queue that gets the next job

`get_quickest_queue` compares the wait times of the queues that have room. The
slice that `init_job` computes for a job never reaches it, so that every job waits
999 and the queue with the fewest jobs wins, whatever their priorities allot.
-/

namespace WorkerUnit

open StepSystem FirstLeast SchedState

variable {n : ℕ}

namespace ThreadQueue

variable {q : ThreadQueue}

/-- The slice that `init_job` hands to the setter of the job. -/
def allottedSlice (job : QueueJob) : ℕ :=
  calculatePriorityTimeslice job.processTable.priority / job.processTable.processState.type

/-- What the job of a slot adds to the wait time with its slice; 999 without one. -/
def allottedWait : Option QueueJob → ℕ
  | none => 0
  | some job => if allottedSlice job = 0 then 999 else allottedSlice job

/-- The wait time of a queue with the slices of its unfinished jobs. -/
def totalAllottedWait (q : ThreadQueue) : ℕ := ∑ i, allottedWait (q.occupied i)

/-- The number of unfinished jobs. -/
def unfinishedJobs (q : ThreadQueue) : ℕ := Slots.load q.occupied

/-- A slot is free. -/
def HasRoom (q : ThreadQueue) : Prop := ∃ i, q.jobSlotDone i = true

instance : DecidablePred HasRoom := fun q =>
  inferInstanceAs (Decidable (∃ i, q.jobSlotDone i = true))

theorem Sound.hasRoom_iff (h : q.Sound) : q.totalJobsInQueue < queueSize ↔ q.HasRoom := by
  constructor
  · intro hlt
    have hload : Slots.load q.occupied < Fintype.card (Fin queueSize) := by
      rw [Fintype.card_fin]
      rw [h.total] at hlt
      exact_mod_cast hlt
    obtain ⟨i, hi⟩ := Slots.exists_empty_of_load_lt hload
    refine ⟨i, ?_⟩
    by_contra hfull
    obtain ⟨job, hjob, _⟩ := h.filled i (by simpa using hfull)
    simp [occupied, hfull, hjob] at hi
  · rintro ⟨i, hi⟩
    rw [h.total_eq_card]
    have hmem : i ∉ Finset.univ.filter fun j => q.jobSlotDone j = false := by simp [hi]
    have hlt := Finset.card_lt_univ_of_notMem hmem
    rw [Fintype.card_fin] at hlt
    exact_mod_cast hlt

/-- The wait time that the code computes counts the unfinished jobs. -/
theorem Sound.getTotalWaitTime_eq_jobs (h : q.Sound) :
    q.getTotalWaitTime = 999 * q.unfinishedJobs := by
  have hwait := h.getTotalWaitTime_eq
  rw [h.total] at hwait
  exact_mod_cast hwait

theorem allottedSlice_le (job : QueueJob) : allottedSlice job ≤ 6000000 := by
  have hslice : calculatePriorityTimeslice job.processTable.priority ≤ 6000000 := by
    cases job.processTable.priority <;> decide
  exact (Nat.div_le_self _ _).trans hslice

/-- The wait time of a queue fits in an `int` with the slices too. -/
theorem totalAllottedWait_lt (q : ThreadQueue) : q.totalAllottedWait < 2 ^ 31 := by
  have hslot : ∀ i ∈ Finset.univ, allottedWait (q.occupied i) ≤ 6000000 := by
    intro i _
    cases q.occupied i with
    | none => exact Nat.zero_le _
    | some job =>
      dsimp only [allottedWait]
      split_ifs
      · decide
      · exact allottedSlice_le job
  have hsum := Finset.sum_le_card_nsmul Finset.univ _ _ hslot
  simp only [Finset.card_univ, Fintype.card_fin, smul_eq_mul] at hsum
  exact hsum.trans_lt (by decide)

end ThreadQueue

/-- `init_job` and `addNewTask` for one task on one of the queues; `init_job`
divides by the type of the process. -/
def putTask (queues : Fin n → ThreadQueue) (task : Fin n × ProcessTable) :
    Option (Fin n → ThreadQueue) :=
  (initJob task.2).map fun job =>
    Function.update queues task.1 ((queues task.1).addNewTask (some job)).2

/-- New work goes to the first queue with room that has the least allotted time. -/
structure QuickestLaw (queues : Fin n → ThreadQueue) : Prop where
  full : getQuickestQueue queues = none ↔ ∀ i, ¬ (queues i).HasRoom
  least : ∀ i, getQuickestQueue queues = some i →
    IsFirstLeast (fun i => (queues i).HasRoom) (fun i => (queues i).totalAllottedWait) i
  bounded : ∀ i, (queues i).getTotalWaitTime < 2 ^ 31 ∧ (queues i).totalAllottedWait < 2 ^ 31

variable {queues : Fin n → ThreadQueue}

/-- A job that is added has no slice. -/
theorem sound_putTask (h : ∀ i, (queues i).Sound) {task : Fin n × ProcessTable}
    {more : Fin n → ThreadQueue} (hput : putTask queues task = some more) (i : Fin n) :
    (more i).Sound := by
  obtain ⟨job, hjob, rfl⟩ := Option.map_eq_some_iff.mp hput
  have hslice : job.cpuSliceMs = 0 := by
    rw [initJob_eq_some hjob]
    rfl
  by_cases hi : i = task.1
  · subst hi
    rw [Function.update_self]
    rcases ThreadQueue.addNewTask_cases (queues task.1) job with hsame | ⟨slot, hslot, hplace⟩
    · rw [hsame]
      exact h task.1
    · rw [hplace]
      exact (h task.1).place hslot hslice
  · rw [Function.update_of_ne hi]
    exact h i

/-- The queue that is picked is the first of those with room that has the fewest
unfinished jobs. -/
theorem getQuickestQueue_eq_some_iff (h : ∀ i, (queues i).Sound) (i : Fin n) :
    getQuickestQueue queues = some i ↔
      IsFirstLeast (fun i => (queues i).HasRoom) (fun i => (queues i).unfinishedJobs) i := by
  rw [getQuickestQueue_eq_search, search_eq_some_iff fun i _ => wait_lt_intMax (h i)]
  refine isFirstLeast_congr (fun j => (h j).hasRoom_iff) (fun j k => ?_) i
  rw [(h j).getTotalWaitTime_eq_jobs, (h k).getTotalWaitTime_eq_jobs]
  exact Nat.mul_le_mul_left_iff (by decide)

theorem getQuickestQueue_eq_none_iff (h : ∀ i, (queues i).Sound) :
    getQuickestQueue queues = none ↔ ∀ i, ¬ (queues i).HasRoom := by
  rw [getQuickestQueue_eq_search, search_eq_none_iff fun i _ => wait_lt_intMax (h i)]
  exact forall_congr' fun i => not_congr (h i).hasRoom_iff

/-- New work goes to the queue with the least allotted time exactly when the first
queue with room that has the fewest jobs is also the first of these with the least
allotted time. -/
theorem quickestLaw_iff (jobQueues : Fin n → Fin queueSize → Option QueueJob)
    (tasks : List (Fin n × ProcessTable)) (queues : Fin n → ThreadQueue)
    (hfill : exec putTask (fun i => .new (jobQueues i)) tasks = some queues) :
    QuickestLaw queues ↔
      ∀ i, IsFirstLeast (fun i => (queues i).HasRoom) (fun i => (queues i).unfinishedJobs) i →
        IsFirstLeast (fun i => (queues i).HasRoom) (fun i => (queues i).totalAllottedWait) i := by
  have hsound : ∀ i, (queues i).Sound := by
    have hstep : ∀ (s : Fin n → ThreadQueue) a t, (∀ i, (s i).Sound) → putTask s a = some t →
        ∀ i, (t i).Sound := fun _ _ _ hs ht => sound_putTask hs ht
    exact exec_invariant hstep (fun i => ThreadQueue.sound_new _) hfill
  constructor
  · intro law i hi
    exact law.least i ((getQuickestQueue_eq_some_iff hsound i).mpr hi)
  · intro hagree
    constructor
    · exact getQuickestQueue_eq_none_iff hsound
    · intro i hi
      exact hagree i ((getQuickestQueue_eq_some_iff hsound i).mp hi)
    · intro i
      exact ⟨(wait_lt_intMax (hsound i)).trans (by decide), (queues i).totalAllottedWait_lt⟩

/-- A compute task of the given priority. -/
def computeTask (priority : TaskPriority) : ProcessTable :=
  .registered 0 ⟨4, true, true, true, true⟩ priority

/-- One task on the first of two queues. -/
theorem quickestLaw_oneTask :
    ∃ queues, exec putTask (fun _ : Fin 2 => .new fun _ => none) [(0, computeTask .highPriority)] =
      some queues ∧ QuickestLaw queues := by
  refine ⟨_, rfl, ?_⟩
  apply (quickestLaw_iff (fun _ => fun _ => none) [(0, computeTask .highPriority)] _ rfl).mpr
  decide

/-- A high-priority job is on the first queue and a low-priority one on the second:
the next job goes to the first queue, which has three times the allotted time. -/
theorem not_quickestLaw_highLow :
    ∃ queues, exec putTask (fun _ : Fin 2 => .new fun _ => none)
      [(0, computeTask .highPriority), (1, computeTask .lowPriority)] = some queues ∧
        getQuickestQueue queues = some 0 ∧ ¬ QuickestLaw queues := by
  refine ⟨_, rfl, by decide, fun law => ?_⟩
  have hleast := law.least 0 (by decide)
  revert hleast
  decide

end WorkerUnit
