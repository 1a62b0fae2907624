import WorkerUnit.Scheduler.QuickestQueue

/-!
# The queue that gives jobs away

`get_busiest_thread_queue` compares the wait time of each queue that has two jobs with
`largestWaitTime`, which it never sets, so that the last of these queues is found.
-/

namespace WorkerUnit

open FirstLeast ThreadQueue

variable {n : ℕ}

/-- A queue is found if one has two unfinished jobs, and of these it waits longest. -/
structure BusiestLaw (queues : Fin n → ThreadQueue) : Prop where
  missing : getBusiestThreadQueue queues = none ↔ ∀ i, ¬ 2 ≤ (queues i).unfinishedJobs
  largest : ∀ i, getBusiestThreadQueue queues = some i → 2 ≤ (queues i).unfinishedJobs ∧
    ∀ j, 2 ≤ (queues j).unfinishedJobs →
      (queues j).getTotalWaitTime ≤ (queues i).getTotalWaitTime

variable {queues : Fin n → ThreadQueue}

theorem ThreadQueue.Counted.wait_pos {q : ThreadQueue} (h : q.Counted)
    (hjobs : 0 < q.unfinishedJobs) : 0 < q.getTotalWaitTime := by
  rw [Nat.pos_iff_ne_zero, ne_eq, h.getTotalWaitTime_eq_zero_iff]
  intro hnone
  rw [unfinishedJobs, funext hnone, Slots.load, Slots.countIf_empty] at hjobs
  exact absurd hjobs (lt_irrefl 0)

/-- Every queue that has two jobs replaces the one found before it. -/
theorem getBusiestThreadQueue_eq_searchLast (h : ∀ i, (queues i).Counted) :
    getBusiestThreadQueue queues = searchLast fun i => 2 ≤ (queues i).unfinishedJobs := by
  unfold getBusiestThreadQueue searchLast
  congr 1
  funext busiest i
  have htotal : (queues i).totalJobsInQueue = (queues i).unfinishedJobs := (h i).total
  by_cases hjobs : 2 ≤ (queues i).unfinishedJobs
  · have hwait := (h i).wait_pos (by omega)
    rw [if_neg (by omega), if_pos hwait, if_pos hjobs]
  · rw [if_pos (by omega), if_neg hjobs]

/-- The queue that is found is the busiest one exactly when the last queue with two
unfinished jobs waits as long as every other one. -/
theorem busiestLaw_iff (queues : Fin n → ThreadQueue) (h : ∀ i, (queues i).Counted) :
    BusiestLaw queues ↔ ∀ i, IsLast (fun i => 2 ≤ (queues i).unfinishedJobs) i →
      ∀ j, 2 ≤ (queues j).unfinishedJobs →
        (queues j).getTotalWaitTime ≤ (queues i).getTotalWaitTime := by
  have hsearch := getBusiestThreadQueue_eq_searchLast h
  constructor
  · intro law i hlast
    exact (law.largest i (hsearch.trans (searchLast_eq_some_iff.mpr hlast))).2
  · intro hlargest
    constructor
    · rw [hsearch, searchLast_eq_none_iff]
    · intro i hi
      have hlast := searchLast_eq_some_iff.mp (hsearch.symm.trans hi)
      exact ⟨hlast.candidate, hlargest i hlast⟩

/-- A queue to which the listed tasks were added. -/
def filledQueue (jobs : List QueueJob) : ThreadQueue :=
  jobs.foldl (fun q job => (q.addNewTask (some job)).2) (.new fun _ => none)

theorem counted_filledQueue (jobs : List QueueJob) : (filledQueue jobs).Counted := by
  induction jobs using List.reverseRecOn with
  | nil => exact (sound_new _).counted
  | append_singleton jobs job ih =>
    rw [filledQueue, List.foldl_append, List.foldl_cons, List.foldl_nil]
    rcases addNewTask_cases (filledQueue jobs) job with hsame | ⟨i, hi, hplace⟩
    · rw [← filledQueue, hsame]
      exact ih
    · rw [← filledQueue, hplace]
      exact ih.place hi job

/-- So many compute jobs. -/
def computeJobs (k : ℕ) : List QueueJob :=
  List.replicate k (.new (computeTask .mediumPriority))

/-- The second of two queues has more jobs. -/
theorem busiestLaw_twoThree :
    BusiestLaw fun i : Fin 2 => filledQueue (computeJobs (if i = 0 then 2 else 3)) :=
  (busiestLaw_iff (fun i : Fin 2 => filledQueue (computeJobs (if i = 0 then 2 else 3)))
    fun i => counted_filledQueue _).mpr (by decide)

/-- The first of two queues has more jobs, and the second one is found. -/
theorem not_busiestLaw_threeTwo :
    getBusiestThreadQueue (fun i : Fin 2 => filledQueue (computeJobs (if i = 0 then 3 else 2))) =
        some 1 ∧
      ¬ BusiestLaw fun i : Fin 2 => filledQueue (computeJobs (if i = 0 then 3 else 2)) := by
  have hfound : getBusiestThreadQueue
      (fun i : Fin 2 => filledQueue (computeJobs (if i = 0 then 3 else 2))) = some 1 := by decide
  refine ⟨hfound, fun law => ?_⟩
  have hlargest := (law.largest 1 hfound).2 0
  revert hlargest
  decide

end WorkerUnit
