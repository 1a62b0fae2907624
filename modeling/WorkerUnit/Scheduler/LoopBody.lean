import WorkerUnit.Library.Loop
import WorkerUnit.Scheduler.SchedTask

/-!
# The loop body of the scheduler thread

One round of `sched_task` up to its wait: the queues are flushed, the tasks of the
pool placed, and the queues rebalanced. The round ends, and leaves nothing to
place or no room for it.
-/

namespace WorkerUnit

variable {n : ℕ}

namespace SchedState

def flushQueues (s : SchedState n) : SchedState n :=
  (List.finRange n).foldl (fun s thread =>
    s.setQueue thread (s.threadQueueList thread).flushFinishedJobs) s

/-- The rounds of the placing loop. -/
def placeTasks : ℕ → SchedState n → Option (SchedState n)
  | 0, s => some s
  | j + 1, s =>
    if s.taskPool.length > 0 ∧ (getQuickestQueue s.threadQueueList).isSome then
      s.placeTask.bind (placeTasks j)
    else some s

/-- A whole call of `rebalance_thread_queues`, which takes no more than `fuel` of
its steps. -/
def rebalanceThreadQueues (fuel : ℕ) (s : SchedState n) : Option (SchedState n) :=
  Loop.run (fun s : SchedState n => s.rebalance.map fun t => (t.stage, t)) (· = .idle) fuel s

/-- The body of the loop of `sched_task`. -/
def loopBody (fuel : ℕ) (s : SchedState n) : Option (SchedState n) :=
  let qSlots := getTotalEmptySlots s.threadQueueList
  (placeTasks qSlots.toNat s.flushQueues).bind (rebalanceThreadQueues fuel)

/-- There is nothing to place, or no room for it. -/
def Served (s : SchedState n) : Prop :=
  s.taskPool = [] ∨ ∀ i, (s.threadQueueList i).totalJobsInQueue = queueSize

end SchedState

variable {s t : SchedState n} {threadQueueList : Fin n → ThreadQueue}

namespace SchedState

/-- No queue is found when all of them are full. -/
theorem full_of_getQuickestQueue_none (hq : ∀ i, (threadQueueList i).Sound)
    (h : getQuickestQueue threadQueueList = none) (i : Fin n) :
    (threadQueueList i).totalJobsInQueue = queueSize := by
  rw [getQuickestQueue_eq_search,
    FirstLeast.search_eq_none_iff fun i _ => wait_lt_intMax (hq i)] at h
  exact le_antisymm (hq i).total_le (not_lt.mp (h i))

theorem getTotalEmptySlots_eq_sum (threadQueueList : Fin n → ThreadQueue) :
    getTotalEmptySlots threadQueueList =
      ∑ i, ((queueSize : ℤ) - (threadQueueList i).totalJobsInQueue) := by
  rw [getTotalEmptySlots, ← List.ofFn_eq_map, List.sum_ofFn]

/-- Without an empty slot every queue is full. -/
theorem full_of_noEmptySlots (hq : ∀ i, (threadQueueList i).Sound)
    (h : getTotalEmptySlots threadQueueList ≤ 0) (i : Fin n) :
    (threadQueueList i).totalJobsInQueue = queueSize := by
  rw [getTotalEmptySlots_eq_sum] at h
  have hnonneg : ∀ j ∈ Finset.univ, 0 ≤ (queueSize : ℤ) - (threadQueueList j).totalJobsInQueue :=
    fun j _ => sub_nonneg.mpr (hq j).total_le
  have hsingle := Finset.single_le_sum hnonneg (Finset.mem_univ i)
  exact le_antisymm (hq i).total_le (by omega)

theorem noEmptySlots_of_full (h : ∀ i, (threadQueueList i).totalJobsInQueue = queueSize) :
    getTotalEmptySlots threadQueueList = 0 := by
  rw [getTotalEmptySlots_eq_sum]
  exact Finset.sum_eq_zero fun i _ => by rw [h i, sub_self]

/-- Flushing changes neither the stage nor the counts. -/
theorem flushQueues_spec (h : s.Accounted) :
    s.flushQueues.Accounted ∧ s.flushQueues.stage = s.stage ∧
      getTotalEmptySlots s.flushQueues.threadQueueList = getTotalEmptySlots s.threadQueueList := by
  have hfold : s.flushQueues.Accounted ∧ s.flushQueues.stage = s.stage ∧
      ∀ i, (s.flushQueues.threadQueueList i).totalJobsInQueue =
        (s.threadQueueList i).totalJobsInQueue := by
    refine List.foldlRecOn (motive := fun u : SchedState n => u.Accounted ∧ u.stage = s.stage ∧
      ∀ i, (u.threadQueueList i).totalJobsInQueue = (s.threadQueueList i).totalJobsInQueue)
      _ _ ⟨h, rfl, fun _ => rfl⟩ ?_
    rintro u ⟨hu, hstage, htotal⟩ k _
    refine ⟨hu.flushFinishedJobs k, hstage, fun i => ?_⟩
    by_cases hi : i = k
    · subst hi
      simpa [setQueue, ThreadQueue.flushFinishedJobs] using htotal i
    · simpa [setQueue, hi] using htotal i
  obtain ⟨haccounted, hstage, htotal⟩ := hfold
  refine ⟨haccounted, hstage, ?_⟩
  rw [getTotalEmptySlots_eq_sum, getTotalEmptySlots_eq_sum]
  exact Finset.sum_congr rfl fun i _ => congrArg _ (htotal i)

/-- A placement takes an empty slot. -/
theorem placeTask_emptySlots (h : s.Accounted) (hpool : s.taskPool.length > 0)
    (hthread : (getQuickestQueue s.threadQueueList).isSome) (ht : s.placeTask = some t) :
    t.stage = s.stage ∧
      getTotalEmptySlots t.threadQueueList = getTotalEmptySlots s.threadQueueList - 1 := by
  obtain ⟨thread, hthread⟩ := Option.isSome_iff_exists.mp hthread
  obtain ⟨taskData, taskPool, hcons⟩ := List.exists_cons_of_length_pos hpool
  simp only [placeTask, hthread, hcons, TaskPool.popTask, Option.map_eq_some_iff] at ht
  obtain ⟨job, _, rfl⟩ := ht
  obtain ⟨slot, _, hadd⟩ := (h.queues thread).addNewTask_eq (getQuickestQueue_lt hthread) job
  have hsum := Slots.sum_update (fun q : ThreadQueue => (queueSize : ℤ) - q.totalJobsInQueue)
    s.threadQueueList thread ((s.threadQueueList thread).place slot job)
  have hplaced : ((s.threadQueueList thread).place slot job).totalJobsInQueue =
      (s.threadQueueList thread).totalJobsInQueue + 1 := rfl
  rw [hplaced] at hsum
  refine ⟨by simp [addTo, setQueue], ?_⟩
  rw [getTotalEmptySlots_eq_sum, getTotalEmptySlots_eq_sum]
  simp only [addTo, setQueue, hadd]
  omega

/-- As many placements as there are empty slots leave nothing to place. -/
theorem placeTasks_spec {j : ℕ} (h : s.Accounted) (hs : s.stage = .idle)
    (hj : getTotalEmptySlots s.threadQueueList ≤ j) (ht : placeTasks j s = some t) :
    t.Accounted ∧ t.stage = .idle ∧ t.Served := by
  induction j generalizing s with
  | zero =>
    cases ht
    exact ⟨h, hs, .inr (full_of_noEmptySlots h.queues hj)⟩
  | succ j ih =>
    rw [placeTasks] at ht
    split_ifs at ht with hplace
    · obtain ⟨u, hu, ht⟩ := Option.bind_eq_some_iff.mp ht
      obtain ⟨hstage, hslots⟩ := placeTask_emptySlots h hplace.1 hplace.2 hu
      refine ih (h.placeTask hs hu) (hstage.trans hs) ?_ ht
      push_cast at hj
      omega
    · cases ht
      refine ⟨h, hs, ?_⟩
      rcases not_and_or.mp hplace with hempty | hnone
      · exact .inl (List.eq_nil_of_length_eq_zero (Nat.eq_zero_of_not_pos hempty))
      · exact .inr (full_of_getQuickestQueue_none h.queues (by simpa using hnone))

/-- A step of `rebalance_thread_queues` goes on to another stage, or moves what
`popJob` has returned. -/
theorem rebalance_cases (ht : s.rebalance = some t) :
    (∃ stage, t = { s with stage := stage }) ∨
      ∃ i free busy r stage, s.stage = .moving i free busy ∧
        (s.threadQueueList busy).popJob = some r ∧
        t = { ((s.setQueue busy r.2).addTo free r.1).2 with stage := stage } := by
  cases hs : s.stage with
  | idle =>
    simp only [rebalance, hs] at ht
    split_ifs at ht <;> cases ht <;> exact .inl ⟨_, rfl⟩
  | balancing i =>
    simp only [rebalance, hs] at ht
    split_ifs at ht
    · split at ht <;> cases ht <;> exact .inl ⟨_, rfl⟩
    · cases ht
      exact .inl ⟨_, rfl⟩
  | freeFound i free =>
    simp only [rebalance, hs] at ht
    split at ht
    · cases ht
      exact .inl ⟨_, rfl⟩
    · split_ifs at ht <;> cases ht <;> exact .inl ⟨_, rfl⟩
  | testing i free busy =>
    simp only [rebalance, hs] at ht
    split_ifs at ht <;> cases ht <;> exact .inl ⟨_, rfl⟩
  | moving i free busy =>
    simp only [rebalance, hs] at ht
    obtain ⟨r, hpop, rfl⟩ := Option.map_eq_some_iff.mp ht
    exact .inr ⟨i, free, busy, r, _, rfl, hpop, rfl⟩

theorem rebalance_taskPool (ht : s.rebalance = some t) : t.taskPool = s.taskPool := by
  rcases rebalance_cases ht with ⟨_, rfl⟩ | ⟨_, _, _, _, _, _, _, rfl⟩
  · rfl
  · rfl

/-- What each step of the rebalancing keeps, a whole call keeps. -/
theorem rebalanceThreadQueues_invariant {P : SchedState n → Prop}
    (hstep : ∀ u v, P u → u.rebalance = some v → P v) {fuel : ℕ} (hs : P s)
    (ht : s.rebalanceThreadQueues fuel = some t) : P t ∧ t.stage = .idle := by
  have hbody : ∀ (u : SchedState n) (stage : SchedStage n) (v : SchedState n), P u →
      (u.rebalance.map fun w => (w.stage, w)) = some (stage, v) → P v := by
    intro u stage v hu hv
    obtain ⟨w, hw, heq⟩ := Option.map_eq_some_iff.mp hv
    cases heq
    exact hstep u _ hu hw
  obtain ⟨hkept, u, stage, hu, hidle⟩ := Loop.run_invariant hbody hs ht
  obtain ⟨w, _, heq⟩ := Option.map_eq_some_iff.mp hu
  cases heq
  exact ⟨hkept, of_decide_eq_true hidle⟩

/-- Moving jobs around leaves nothing to place either. -/
theorem rebalanceThreadQueues_spec {fuel : ℕ} (h : s.Accounted) (hs : s.stage = .idle)
    (hserved : s.Served) (ht : s.rebalanceThreadQueues fuel = some t) :
    t.Accounted ∧ t.stage = .idle ∧ t.Served := by
  obtain ⟨hkept, hidle⟩ := rebalanceThreadQueues_invariant
    (P := fun u : SchedState n => u.Accounted ∧ u.taskPool = s.taskPool)
    (fun u v hu hv => ⟨hu.1.rebalance hv, (rebalance_taskPool hv).trans hu.2⟩) ⟨h, rfl⟩ ht
  refine ⟨hkept.1, hidle, ?_⟩
  rcases hserved with hempty | hfull
  · exact .inl (hkept.2.trans hempty)
  · have hstop : s.rebalance = some s := by
      simp only [rebalance, hs]
      rw [if_pos (noEmptySlots_of_full hfull).le]
    cases fuel with
    | zero => cases ht
    | succ fuel =>
      rw [rebalanceThreadQueues, Loop.run_of_stop (r := s.stage) (t := s) (by rw [hstop]; rfl)
        (by simpa using hs)] at ht
      cases ht
      exact .inr hfull

/-- What is left of the rebalancing: the threads to come, then the jobs that the busy
queue can still give. -/
def rebalanceMeasure (s : SchedState n) : ℕ :=
  match s.stage with
  | .idle => 16 * n + 16
  | .balancing i => if i + 1 < n then 16 * (n - i) + 15 else 1
  | .freeFound i _ => 16 * (n - i) + 14
  | .testing i _ busiestThreadId =>
    16 * (n - i) + 2 * (s.threadQueueList busiestThreadId).totalJobsInQueue.toNat + 3
  | .moving i _ busiestThreadId =>
    16 * (n - i) + 2 * (s.threadQueueList busiestThreadId).totalJobsInQueue.toNat + 2

/-- The thread that comes next is behind every stage of this one. -/
theorem rebalanceMeasure_next (s : SchedState n) (i : ℕ) :
    rebalanceMeasure { s with stage := .balancing (i + 1) } < 16 * (n - i) + 2 := by
  simp only [rebalanceMeasure]
  split_ifs <;> omega

/-- A job that fits is put into the queue and nothing is refused. -/
theorem addTo_eq {thread : Fin n} (hq : (s.threadQueueList thread).Counted)
    (hlt : (s.threadQueueList thread).totalJobsInQueue < queueSize) (job : QueueJob) :
    ∃ slot, (s.threadQueueList thread).jobSlotDone slot = true ∧
      s.addTo thread (some job) =
        (0, s.setQueue thread ((s.threadQueueList thread).place slot job)) := by
  obtain ⟨slot, hslot, hadd⟩ := hq.addNewTask_eq hlt job
  exact ⟨slot, hslot, by simp [addTo, setQueue, hadd]⟩

/-- A move takes a job of the busy queue that is neither running nor finalized, or
there is none and it is the last one for its thread. -/
theorem rebalance_moving (hq : ∀ i, (s.threadQueueList i).Counted) {i : ℕ} {free busy : Fin n}
    (hs : s.stage = .moving i free busy) (hne : free ≠ busy)
    (hroom : (s.threadQueueList free).totalJobsInQueue < queueSize) :
    ((s.threadQueueList busy).popJob = some (none, s.threadQueueList busy) ∧
      (∀ slot job, (s.threadQueueList busy).occupied slot = some job →
        ThreadQueue.stealable job = false) ∧
      s.rebalance = some { s with stage := .balancing (i + 1) }) ∨
    ∃ slot job place, (s.threadQueueList busy).occupied slot = some job ∧
      ThreadQueue.stealable job = true ∧ (s.threadQueueList free).jobSlotDone place = true ∧
      (s.threadQueueList busy).popJob = some (some job, (s.threadQueueList busy).remove slot) ∧
      s.rebalance = some { (s.setQueue busy ((s.threadQueueList busy).remove slot)).setQueue free
        ((s.threadQueueList free).place place job) with stage := .testing i free busy } := by
  simp only [rebalance, hs]
  rcases (hq busy).popJob_cases with ⟨hnone, hkept⟩ | ⟨slot, job, hjob, hsteal, hsome⟩
  · left
    refine ⟨hnone, hkept, ?_⟩
    rw [hnone, Option.map_some, addTo_none]
    simp [setQueue]
  · right
    have hfree : (s.setQueue busy ((s.threadQueueList busy).remove slot)).threadQueueList free =
        s.threadQueueList free := Function.update_of_ne hne ..
    obtain ⟨place, hplace, hadd⟩ :=
      @addTo_eq n (s.setQueue busy ((s.threadQueueList busy).remove slot)) free
        (by rw [hfree]; exact hq free) (by rw [hfree]; exact hroom) job
    rw [hfree] at hplace hadd
    refine ⟨slot, job, place, hjob, hsteal, hplace, hsome, ?_⟩
    rw [hsome, Option.map_some, hadd]
    rfl

/-- A move takes a job from the busy queue, or is the last one for its thread. -/
theorem rebalance_decreases_moving (hq : ∀ i, (s.threadQueueList i).Counted) (hstage : s.StageOk)
    {i : ℕ} {free busy : Fin n} (hs : s.stage = .moving i free busy) :
    ∃ t, s.rebalance = some t ∧ t.rebalanceMeasure < s.rebalanceMeasure := by
  simp only [StageOk, hs] at hstage
  obtain ⟨hne, hroom⟩ := hstage
  rcases rebalance_moving hq hs hne hroom with ⟨_, _, ht⟩ | ⟨slot, job, place, hjob, _, _, _, ht⟩
  · refine ⟨_, ht, (rebalanceMeasure_next _ i).trans_le ?_⟩
    simp only [rebalanceMeasure, hs]
    omega
  · refine ⟨_, ht, ?_⟩
    have hnonneg : 0 ≤ (s.threadQueueList busy).totalJobsInQueue - 1 :=
      ((hq busy).remove hjob).total_nonneg
    simp only [rebalanceMeasure, hs, setQueue, Function.update_of_ne (Ne.symm hne),
      Function.update_self, ThreadQueue.remove]
    omega

theorem rebalance_decreases (hq : ∀ i, (s.threadQueueList i).Counted) (hstage : s.StageOk) :
    ∃ t, s.rebalance = some t ∧ (t.stage = .idle ∨ t.rebalanceMeasure < s.rebalanceMeasure) := by
  cases hs : s.stage with
  | idle =>
    simp only [rebalance, hs]
    split_ifs
    · exact ⟨_, rfl, .inl hs⟩
    · refine ⟨_, rfl, .inr ?_⟩
      simp only [rebalanceMeasure, hs]
      split_ifs <;> omega
  | balancing i =>
    simp only [rebalance, hs]
    split_ifs with hi
    · split
      · exact ⟨_, rfl, .inl rfl⟩
      · refine ⟨_, rfl, .inr ?_⟩
        have hlt : i + 1 < n := by omega
        simp only [rebalanceMeasure, hs, if_pos hlt]
        omega
    · exact ⟨_, rfl, .inl rfl⟩
  | freeFound i free =>
    simp only [rebalance, hs]
    split
    · exact ⟨_, rfl, .inl rfl⟩
    · rename_i busy _
      split_ifs
      · exact ⟨_, rfl, .inl rfl⟩
      · refine ⟨_, rfl, .inr ?_⟩
        have hle := (hq busy).total_le
        simp only [queueSize] at hle
        simp only [rebalanceMeasure, hs]
        omega
  | testing i free busy =>
    simp only [rebalance, hs]
    split_ifs
    · refine ⟨_, rfl, .inr ?_⟩
      simp only [rebalanceMeasure, hs]
      omega
    · refine ⟨_, rfl, .inr ((rebalanceMeasure_next s i).trans_le ?_)⟩
      simp only [rebalanceMeasure, hs]
      omega
  | moving i free busy =>
    obtain ⟨t, ht, hless⟩ := rebalance_decreases_moving hq hstage hs
    exact ⟨t, by simpa only [rebalance, hs] using ht, .inr hless⟩

/-- `rebalance_thread_queues` ends. -/
theorem rebalanceThreadQueues_ends (h : s.Accounted) (hs : s.stage = .idle) {fuel : ℕ}
    (hfuel : 16 * n + 16 < fuel) : ∃ t, s.rebalanceThreadQueues fuel = some t := by
  refine Loop.run_of_measure (P := Accounted) (μ := rebalanceMeasure) (fun u hu => ?_) h ?_
  · obtain ⟨v, hv, hless⟩ := rebalance_decreases (fun i => (hu.queues i).counted) hu.stage
    refine ⟨v.stage, v, by rw [hv]; rfl, hless.imp (by simp) fun hless => ⟨hu.rebalance hv, hless⟩⟩
  · simpa only [rebalanceMeasure, hs] using hfuel

/-- A call of the loop body leaves nothing to place. -/
theorem loopBody_spec {fuel : ℕ} (h : s.Accounted) (hs : s.stage = .idle)
    (ht : s.loopBody fuel = some t) : t.Accounted ∧ t.stage = .idle ∧ t.Served := by
  obtain ⟨u, hu, ht⟩ := Option.bind_eq_some_iff.mp ht
  obtain ⟨haccounted, hstage, hslots⟩ := flushQueues_spec h
  obtain ⟨hu, hidle, hserved⟩ := placeTasks_spec haccounted (hstage.trans hs)
    (hslots.trans_le (Int.self_le_toNat _)) hu
  exact rebalanceThreadQueues_spec hu hidle hserved ht

theorem flushQueues_taskPool (s : SchedState n) : s.flushQueues.taskPool = s.taskPool :=
  List.foldlRecOn (motive := fun u : SchedState n => u.taskPool = s.taskPool) _ _ rfl
    fun _ hu _ _ => hu

/-- No process of type zero waits in the pool, so `init_job` divides by none. -/
def Divides (s : SchedState n) : Prop :=
  ∀ procTable ∈ s.taskPool.procTables, procTable.processState.type ≠ 0

theorem Divides.placeTask (h : s.Divides) : ∃ t, s.placeTask = some t ∧ t.Divides := by
  unfold SchedState.placeTask
  split
  · rename_i threadId taskData taskPool _ hpop
    cases hpool : s.taskPool with
    | nil => simp [hpool, TaskPool.popTask] at hpop
    | cons task rest =>
      simp only [hpool, TaskPool.popTask, Option.some.injEq, Prod.mk.injEq] at hpop
      obtain ⟨rfl, rfl⟩ := hpop
      rw [Divides, hpool, TaskPool.procTables, List.map_cons, List.forall_mem_cons] at h
      rw [initJob, if_neg h.1]
      exact ⟨_, rfl, h.2⟩
  · exact ⟨s, rfl, h⟩

theorem Divides.placeTasks (h : s.Divides) (j : ℕ) : ∃ t, placeTasks j s = some t := by
  induction j generalizing s with
  | zero => exact ⟨s, rfl⟩
  | succ j ih =>
    rw [SchedState.placeTasks]
    split_ifs
    · obtain ⟨u, hu, hdivides⟩ := h.placeTask
      obtain ⟨t, ht⟩ := ih hdivides
      exact ⟨t, by rw [hu, Option.bind_some, ht]⟩
    · exact ⟨s, rfl⟩

/-- The loop body ends when no process of the pool is of type zero. -/
theorem loopBody_ends (h : s.Accounted) (hs : s.stage = .idle) (hdivides : s.Divides) {fuel : ℕ}
    (hfuel : 16 * n + 16 < fuel) : ∃ t, s.loopBody fuel = some t := by
  obtain ⟨haccounted, hstage, hslots⟩ := flushQueues_spec h
  have hflushed : s.flushQueues.Divides := by
    rw [Divides, flushQueues_taskPool]
    exact hdivides
  obtain ⟨u, hu⟩ := hflushed.placeTasks (getTotalEmptySlots s.threadQueueList).toNat
  obtain ⟨hplaced, hidle, _⟩ := placeTasks_spec haccounted (hstage.trans hs)
    (hslots.trans_le (Int.self_le_toNat _)) hu
  obtain ⟨t, ht⟩ := rebalanceThreadQueues_ends hplaced hidle hfuel
  exact ⟨t, Option.bind_eq_some_iff.mpr ⟨u, hu, ht⟩⟩

end SchedState

namespace ThreadQueue

/-- A job that is done has been started, and the one that the thread is closing is
at the head and protected from `popJob`. -/
structure Protects (closing : Bool) (q : ThreadQueue) : Prop where
  started : ∀ slot job, q.occupied slot = some job → job.isJobStatusSet .done = true →
    job.isJobStatusSet .running = true
  head : closing = true → ∃ job, q.occupied q.head = some job ∧ job.isJobStatusSet .running = true

variable {q : ThreadQueue} {closing : Bool} {slot : Fin queueSize} {job : QueueJob}

theorem Protects.place (h : q.Protects closing) (hslot : q.jobSlotDone slot = true)
    (hjob : job.isJobStatusSet .done = false) : (q.place slot job).Protects closing := by
  constructor
  · intro i other hother hdone
    rw [occupied_place] at hother
    by_cases hi : i = slot
    · rw [hi, Function.update_self, Option.some.injEq] at hother
      rw [← hother, hjob] at hdone
      cases hdone
    · rw [Function.update_of_ne hi] at hother
      exact h.started i other hother hdone
  · intro hclosing
    obtain ⟨other, hother, hrunning⟩ := h.head hclosing
    exact ⟨other, occupied_place_of_some job hslot hother, hrunning⟩

theorem Protects.remove (h : q.Protects closing) (hslot : q.occupied slot = some job)
    (hfree : job.isJobStatusSet .running = false) : (q.remove slot).Protects closing := by
  constructor
  · intro i other hother hdone
    rw [occupied_remove] at hother
    by_cases hi : i = slot
    · rw [hi, Function.update_self] at hother
      cases hother
    · rw [Function.update_of_ne hi] at hother
      exact h.started i other hother hdone
  · intro hclosing
    obtain ⟨other, hother, hrunning⟩ := h.head hclosing
    have hne : q.head ≠ slot := by
      intro hhead
      rw [hhead, hslot, Option.some.injEq] at hother
      rw [← hother, hfree] at hrunning
      cases hrunning
    refine ⟨other, ?_, hrunning⟩
    rw [occupied_remove]
    exact (Function.update_of_ne hne ..).trans hother

theorem Protects.flushFinishedJobs (h : q.Protects closing) :
    q.flushFinishedJobs.Protects closing := by
  constructor
  · rw [occupied_flushFinishedJobs]
    exact h.started
  · rw [occupied_flushFinishedJobs]
    exact h.head

/-- A status is set on a job that is running, or the status is that it is. -/
theorem Protects.setJobStatus (h : q.Protects closing) (slot : Fin queueSize) {status : JobStatus}
    (hstatus : ∀ job, q.occupied slot = some job →
      job.isJobStatusSet .running = true ∨ status = .running) :
    (q.setJobStatus slot status).Protects closing := by
  constructor
  · intro i other hother hdone
    rw [occupied_setJobStatus] at hother
    by_cases hi : i = slot
    · rw [hi, Function.update_self, Option.map_eq_some_iff] at hother
      obtain ⟨job, hjob, rfl⟩ := hother
      rcases hstatus job hjob with hrunning | rfl
      · simp [hrunning]
      · simp
    · rw [Function.update_of_ne hi] at hother
      exact h.started i other hother hdone
  · intro hclosing
    obtain ⟨other, hother, hrunning⟩ := h.head hclosing
    by_cases hhead : q.head = slot
    · subst hhead
      refine ⟨other.setJobStatus status, ?_, by simp [hrunning]⟩
      rw [occupied_setJobStatus]
      exact (Function.update_self ..).trans (by rw [hother]; rfl)
    · refine ⟨other, ?_, hrunning⟩
      rw [occupied_setJobStatus]
      exact (Function.update_of_ne hhead ..).trans hother

theorem Protects.atHead (h : q.Protects closing) (slot : Fin queueSize) :
    (q.atHead slot).Protects false :=
  ⟨h.started, nofun⟩

/-- A job that is done when it is fetched is protected while it is closed. -/
theorem Protects.close (h : q.Protects closing) (hjob : q.occupied q.head = some job)
    (hdone : job.isJobStatusSet .done = true) : q.Protects true :=
  ⟨h.started, fun _ => ⟨job, hjob, h.started q.head job hjob hdone⟩⟩

theorem Protects.markTaskAsComplete (h : q.Protects closing) :
    q.markTaskAsComplete.Protects false := by
  refine ⟨?_, nofun⟩
  intro i other hother hdone
  rw [occupied_markTaskAsComplete] at hother
  by_cases hi : i = q.head
  · rw [hi, Function.update_self] at hother
    cases hother
  · rw [Function.update_of_ne hi] at hother
    exact h.started i other hother hdone

end ThreadQueue

namespace SchedState

/-- The tasks of the pool are not started, and each queue protects the job that its
thread is closing. -/
structure Protected (closing : Fin n → Bool) (s : SchedState n) : Prop where
  pool : ∀ procTable ∈ s.taskPool.procTables, procTable.jobStatus = 0
  queues : ∀ i, (s.threadQueueList i).Protects (closing i)

variable {closing : Fin n → Bool}

theorem Protected.setQueue (h : s.Protected closing) (thread : Fin n) {queue : ThreadQueue}
    {c : Bool} (hq : queue.Protects c) :
    (s.setQueue thread queue).Protected (Function.update closing thread c) := by
  refine ⟨h.pool, fun i => ?_⟩
  by_cases hi : i = thread
  · subst hi
    simpa [SchedState.setQueue] using hq
  · simpa [SchedState.setQueue, hi] using h.queues i

/-- A change of one queue that leaves its thread where it is. -/
theorem Protected.keepQueue (h : s.Protected closing) (thread : Fin n) {queue : ThreadQueue}
    (hq : queue.Protects (closing thread)) : (s.setQueue thread queue).Protected closing := by
  have hset := h.setQueue thread hq
  rwa [Function.update_eq_self] at hset

theorem Protected.flushQueues (h : s.Protected closing) : s.flushQueues.Protected closing :=
  List.foldlRecOn _ _ h fun _ hu thread _ =>
    hu.keepQueue thread (hu.queues thread).flushFinishedJobs

/-- A job that is not done goes into a queue. -/
theorem Protected.addTo (h : s.Protected closing) (thread : Fin n) {job : QueueJob}
    (hjob : job.isJobStatusSet .done = false) :
    (s.addTo thread (some job)).2.Protected closing := by
  have hqueue : ((s.threadQueueList thread).addNewTask (some job)).2.Protects (closing thread) := by
    rcases (s.threadQueueList thread).addNewTask_cases job with hfull | ⟨slot, hslot, hput⟩
    · rw [hfull]
      exact h.queues thread
    · rw [hput]
      exact (h.queues thread).place hslot hjob
  exact ⟨h.pool, (h.keepQueue thread hqueue).queues⟩

theorem Protected.placeTask (h : s.Protected closing) (ht : s.placeTask = some t) :
    t.Protected closing := by
  unfold SchedState.placeTask at ht
  split at ht
  · rename_i threadId taskData taskPool _ hpop
    obtain ⟨job, hjob, rfl⟩ := Option.map_eq_some_iff.mp ht
    have hpool : s.taskPool = taskData :: taskPool := by
      cases hpool : s.taskPool with
      | nil => simp [hpool, TaskPool.popTask] at hpop
      | cons task rest =>
        simp only [hpool, TaskPool.popTask, Option.some.injEq, Prod.mk.injEq] at hpop
        rw [hpop.1, hpop.2]
    have hunstarted := h.pool
    rw [hpool, TaskPool.procTables, List.map_cons, List.forall_mem_cons] at hunstarted
    have hrest : Protected closing { s with taskPool := taskPool } := ⟨hunstarted.2, h.queues⟩
    apply hrest.addTo threadId
    rw [initJob_eq_some hjob, QueueJob.isJobStatusSet_eq_testBit, QueueJob.new, hunstarted.1,
      Nat.zero_testBit]
  · cases ht
    exact h

theorem Protected.placeTasks {j : ℕ} (h : s.Protected closing) (ht : placeTasks j s = some t) :
    t.Protected closing := by
  induction j generalizing s with
  | zero =>
    cases ht
    exact h
  | succ j ih =>
    rw [SchedState.placeTasks] at ht
    split_ifs at ht
    · obtain ⟨u, hu, ht⟩ := Option.bind_eq_some_iff.mp ht
      exact ih (h.placeTask hu) ht
    · cases ht
      exact h

theorem Protected.rebalance (h : s.Protected closing) (hs : s.Accounted)
    (ht : s.rebalance = some t) : t.Protected closing := by
  rcases rebalance_cases ht with ⟨_, rfl⟩ | ⟨i, free, busy, r, stage, _, hpop, rfl⟩
  · exact ⟨h.pool, h.queues⟩
  · rcases (hs.queues busy).popJob_cases with hnone | ⟨slot, job, hslot, hjob, _, hsome⟩
    · cases hnone.symm.trans hpop
      rw [addTo_none]
      have hsame := h.keepQueue busy (h.queues busy)
      exact ⟨hsame.pool, hsame.queues⟩
    · cases hsome.symm.trans hpop
      have hoccupied : (s.threadQueueList busy).occupied slot = some job := by
        simp [ThreadQueue.occupied, hslot, hjob]
      have hfree := ThreadQueue.popJob_not_running hsome
      have hunfinished : job.isJobStatusSet .done = false := by
        by_contra hdone
        have hrunning := (h.queues busy).started slot job hoccupied (by simpa using hdone)
        rw [hfree] at hrunning
        cases hrunning
      have hremoved := h.keepQueue busy ((h.queues busy).remove hoccupied hfree)
      have hadded := hremoved.addTo free hunfinished
      exact ⟨hadded.pool, hadded.queues⟩

theorem Protected.rebalanceThreadQueues {fuel : ℕ} (h : s.Protected closing) (hs : s.Accounted)
    (ht : s.rebalanceThreadQueues fuel = some t) : t.Protected closing := by
  have hkept := rebalanceThreadQueues_invariant
    (P := fun u : SchedState n => u.Accounted ∧ u.Protected closing)
    (fun u v hu hv => ⟨hu.1.rebalance hv, hu.2.rebalance hu.1 hv⟩) ⟨hs, h⟩ ht
  exact hkept.1.2

theorem Protected.loopBody {fuel : ℕ} (h : s.Protected closing) (hs : s.Accounted)
    (hidle : s.stage = .idle) (ht : s.loopBody fuel = some t) : t.Protected closing := by
  obtain ⟨u, hu, ht⟩ := Option.bind_eq_some_iff.mp ht
  obtain ⟨haccounted, hstage, hslots⟩ := flushQueues_spec hs
  obtain ⟨hplaced, _⟩ := placeTasks_spec haccounted (hstage.trans hidle)
    (hslots.trans_le (Int.self_le_toNat _)) hu
  exact (h.flushQueues.placeTasks hu).rebalanceThreadQueues hplaced ht

end SchedState

end WorkerUnit
