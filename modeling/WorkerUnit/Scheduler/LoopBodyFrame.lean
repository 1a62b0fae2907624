import WorkerUnit.Scheduler.IdleThreads

/-!
# What the loop body keeps

A round of `sched_task` is made of flushed queues, placed tasks and steps of the
rebalancing. What each of these keeps, the round keeps: the jobs that run, the accepted
tasks, and the number of tasks in the pool and in the queues together.
-/

namespace WorkerUnit

variable {n : ℕ}

namespace SchedState

variable {s t : SchedState n}

/-- What flushing a queue, a placement and a step of the rebalancing keep, the loop body
keeps. -/
theorem loopBody_invariant {P : SchedState n → Prop}
    (hflush : ∀ u thread, P u →
      P (u.setQueue thread (u.threadQueueList thread).flushFinishedJobs))
    (hplace : ∀ u v, u.Accounted → u.taskPool.length > 0 →
      (getQuickestQueue u.threadQueueList).isSome → P u → u.placeTask = some v → P v)
    (hrebalance : ∀ u v, u.Accounted → P u → u.rebalance = some v → P v) {fuel : ℕ}
    (h : s.Accounted) (hidle : s.stage = .idle) (hs : P s) (ht : s.loopBody fuel = some t) :
    P t := by
  have hplaces : ∀ (j : ℕ) (u v : SchedState n), u.Accounted → u.stage = .idle → P u →
      SchedState.placeTasks j u = some v → v.Accounted ∧ P v := by
    intro j
    induction j with
    | zero =>
      intro u v hu _ hP hv
      cases hv
      exact ⟨hu, hP⟩
    | succ j ih =>
      intro u v hu hstage hP hv
      rw [placeTasks] at hv
      split_ifs at hv with hroom
      · obtain ⟨w, hw, hv⟩ := Option.bind_eq_some_iff.mp hv
        have hstage' := (placeTask_emptySlots hu hroom.1 hroom.2 hw).1.trans hstage
        exact ih w v (hu.placeTask hstage hw) hstage' (hplace u w hu hroom.1 hroom.2 hP hw) hv
      · cases hv
        exact ⟨hu, hP⟩
  obtain ⟨u, hu, ht⟩ := Option.bind_eq_some_iff.mp ht
  obtain ⟨haccounted, hstage, _⟩ := flushQueues_spec h
  have hflushed : P s.flushQueues := List.foldlRecOn _ _ hs fun u hu thread _ => hflush u thread hu
  obtain ⟨hplaced, hP⟩ := hplaces _ _ u haccounted (hstage.trans hidle) hflushed hu
  have hkept := rebalanceThreadQueues_invariant
    (P := fun u : SchedState n => u.Accounted ∧ P u)
    (fun u v hu hv => ⟨hu.1.rebalance hv, hrebalance u v hu.1 hu.2 hv⟩) ⟨hplaced, hP⟩ ht
  exact hkept.1.2

/-- A placement takes the first task of the pool, whose process is not of type zero, to a
queue with a free slot. -/
theorem placeTask_cases (h : s.Accounted) (hpool : s.taskPool.length > 0)
    (hthread : (getQuickestQueue s.threadQueueList).isSome) (ht : s.placeTask = some t) :
    ∃ thread task rest slot job, s.taskPool = task :: rest ∧
      task.procTable.processState.type ≠ 0 ∧
      (s.threadQueueList thread).jobSlotDone slot = true ∧
      t = { s.setQueue thread ((s.threadQueueList thread).place slot job) with
        taskPool := rest } := by
  obtain ⟨thread, hthread⟩ := Option.isSome_iff_exists.mp hthread
  obtain ⟨task, rest, hcons⟩ := List.exists_cons_of_length_pos hpool
  simp only [placeTask, hthread, hcons, TaskPool.popTask, Option.map_eq_some_iff] at ht
  obtain ⟨job, hjob, rfl⟩ := ht
  have htype : task.procTable.processState.type ≠ 0 := by
    intro hzero
    rw [initJob, if_pos hzero] at hjob
    cases hjob
  obtain ⟨slot, hslot, hadd⟩ :=
    @addTo_eq n { s with taskPool := rest } thread (h.queues thread).counted
      (getQuickestQueue_lt hthread) job
  exact ⟨thread, task, rest, slot, job, hcons, htype, hslot, by rw [hadd]; rfl⟩

section

variable {thread : Fin n} {slot : Fin queueSize} {job : QueueJob}

theorem occupied_setQueue_place (hjob : (s.threadQueueList thread).occupied slot = some job)
    {i : Fin n} {place : Fin queueSize} (hplace : (s.threadQueueList i).jobSlotDone place = true)
    (other : QueueJob) :
    ((s.setQueue i ((s.threadQueueList i).place place other)).threadQueueList thread).occupied
      slot = some job := by
  by_cases hi : thread = i
  · subst hi
    simpa [setQueue] using ThreadQueue.occupied_place_of_some other hplace hjob
  · simpa [setQueue, hi] using hjob

/-- A running job is not moved. -/
theorem occupied_rebalance (h : s.Accounted)
    (hjob : (s.threadQueueList thread).occupied slot = some job)
    (hrunning : job.isJobStatusSet .running = true) (ht : s.rebalance = some t) :
    (t.threadQueueList thread).occupied slot = some job := by
  rcases rebalance_cases ht with ⟨_, rfl⟩ | ⟨i, free, busy, _, _, hs, _, _⟩
  · exact hjob
  · have hstage := h.stage
    simp only [StageOk, hs] at hstage
    obtain ⟨hne, hroom⟩ := hstage
    rcases rebalance_moving (fun i => (h.queues i).counted) hs hne hroom with
      ⟨_, _, hsame⟩ | ⟨given, other, place, hother, hsteal, hplace, _, hmoved⟩
    · cases ht.symm.trans hsame
      exact hjob
    · cases ht.symm.trans hmoved
      have hremoved : ((s.setQueue busy ((s.threadQueueList busy).remove given)).threadQueueList
          thread).occupied slot = some job := by
        by_cases hbusy : thread = busy
        · subst hbusy
          have hkept : slot ≠ given := by
            rintro rfl
            cases hjob.symm.trans hother
            simp [ThreadQueue.stealable, hrunning] at hsteal
          simpa [setQueue, ThreadQueue.occupied_remove, hkept] using hjob
        · simpa [setQueue, hbusy] using hjob
      have hfree : (s.setQueue busy ((s.threadQueueList busy).remove given)).threadQueueList free =
          s.threadQueueList free := Function.update_of_ne hne ..
      have hadded := occupied_setQueue_place hremoved (by rw [hfree]; exact hplace) other
      rwa [hfree] at hadded

/-- A running job stays in its slot while the scheduler thread works. -/
theorem occupied_loopBody {fuel : ℕ} (h : s.Accounted) (hidle : s.stage = .idle)
    (hjob : (s.threadQueueList thread).occupied slot = some job)
    (hrunning : job.isJobStatusSet .running = true) (ht : s.loopBody fuel = some t) :
    (t.threadQueueList thread).occupied slot = some job := by
  refine loopBody_invariant
    (P := fun u => (u.threadQueueList thread).occupied slot = some job) ?_ ?_ ?_ h hidle hjob ht
  · intro u i hu
    by_cases hi : thread = i
    · subst hi
      simpa [setQueue] using hu
    · simpa [setQueue, hi] using hu
  · intro u v hacc hpool hquickest hu hv
    obtain ⟨i, _, _, place, other, _, _, hplace, rfl⟩ := placeTask_cases hacc hpool hquickest hv
    exact occupied_setQueue_place hu hplace other
  · intro u v hacc hu hv
    exact occupied_rebalance hacc hu hrunning hv

end

theorem loopBody_allocated {fuel : ℕ} (h : s.Accounted) (hidle : s.stage = .idle)
    (ht : s.loopBody fuel = some t) : t.allocated = s.allocated := by
  refine loopBody_invariant (P := fun u => u.allocated = s.allocated) (fun _ _ hu => hu) ?_ ?_ h
    hidle rfl ht
  · intro u v hacc hpool hquickest hu hv
    obtain ⟨_, _, _, _, _, _, _, _, rfl⟩ := placeTask_cases hacc hpool hquickest hv
    exact hu
  · intro u v _ hu hv
    rcases rebalance_cases hv with ⟨_, rfl⟩ | ⟨_, _, _, _, _, _, _, rfl⟩
    · exact hu
    · exact hu

/-- A process of type zero is not placed, so it stays in the pool. -/
theorem loopBody_divides {fuel : ℕ} (h : s.Accounted) (hidle : s.stage = .idle)
    (ht : s.loopBody fuel = some t) : t.Divides ↔ s.Divides := by
  refine loopBody_invariant (P := fun u => u.Divides ↔ s.Divides) (fun _ _ hu => hu) ?_ ?_ h
    hidle Iff.rfl ht
  · intro u v hacc hpool hquickest hu hv
    obtain ⟨_, task, rest, _, _, hcons, htype, _, rfl⟩ := placeTask_cases hacc hpool hquickest hv
    rw [← hu, Divides, Divides, hcons, TaskPool.procTables, TaskPool.procTables, List.map_cons,
      List.forall_mem_cons]
    exact (and_iff_right htype).symm
  · intro u v _ hu hv
    rwa [Divides, rebalance_taskPool hv]

/-- The rebalancing moves jobs from one slot to another. -/
theorem rebalance_emptySlots (h : s.Accounted) (ht : s.rebalance = some t) :
    getTotalEmptySlots t.threadQueueList = getTotalEmptySlots s.threadQueueList := by
  rcases rebalance_cases ht with ⟨_, rfl⟩ | ⟨i, free, busy, _, _, hs, _, _⟩
  · rfl
  · have hstage := h.stage
    simp only [StageOk, hs] at hstage
    rcases rebalance_moving (fun i => (h.queues i).counted) hs hstage.1 hstage.2 with
      ⟨_, _, hsame⟩ | ⟨given, job, place, _, _, _, _, hmoved⟩
    · cases ht.symm.trans hsame
      rfl
    · cases ht.symm.trans hmoved
      have hremoved := Slots.sum_update
        (fun q : ThreadQueue => (queueSize : ℤ) - q.totalJobsInQueue) s.threadQueueList busy
        ((s.threadQueueList busy).remove given)
      have hplaced := Slots.sum_update
        (fun q : ThreadQueue => (queueSize : ℤ) - q.totalJobsInQueue)
        (Function.update s.threadQueueList busy ((s.threadQueueList busy).remove given)) free
        ((s.threadQueueList free).place place job)
      rw [Function.update_of_ne hstage.1] at hplaced
      rw [getTotalEmptySlots_eq_sum, getTotalEmptySlots_eq_sum]
      simp only [setQueue, ThreadQueue.remove, ThreadQueue.place] at hremoved hplaced ⊢
      omega

/-- Each task that leaves the pool takes an empty slot. -/
theorem loopBody_emptySlots {fuel : ℕ} (h : s.Accounted) (hidle : s.stage = .idle)
    (ht : s.loopBody fuel = some t) :
    (t.taskPool.length : ℤ) - getTotalEmptySlots t.threadQueueList =
      s.taskPool.length - getTotalEmptySlots s.threadQueueList := by
  refine loopBody_invariant
    (P := fun u => (u.taskPool.length : ℤ) - getTotalEmptySlots u.threadQueueList =
      s.taskPool.length - getTotalEmptySlots s.threadQueueList) ?_ ?_ ?_ h hidle rfl ht
  · intro u thread hu
    rw [← hu, getTotalEmptySlots_eq_sum, getTotalEmptySlots_eq_sum]
    congr 1
    refine Finset.sum_congr rfl fun i _ => ?_
    by_cases hi : i = thread
    · subst hi
      simp [setQueue, ThreadQueue.flushFinishedJobs]
    · simp [setQueue, hi]
  · intro u v hacc hpool hquickest hu hv
    have hslots := (placeTask_emptySlots hacc hpool hquickest hv).2
    obtain ⟨_, _, rest, _, _, hcons, _, _, rfl⟩ := placeTask_cases hacc hpool hquickest hv
    rw [hcons, List.length_cons] at hu
    push_cast at hu
    change (rest.length : ℤ) - _ = _
    omega
  · intro u v hacc hu hv
    rw [rebalance_emptySlots hacc hv, rebalance_taskPool hv]
    exact hu

/-- The tasks that leave the pool are the jobs that the queues gain. -/
theorem loopBody_load {fuel : ℕ} (h : s.Accounted) (hidle : s.stage = .idle)
    (ht : s.loopBody fuel = some t) :
    t.taskPool.length + ∑ i, (t.threadQueueList i).load.jobs =
      s.taskPool.length + ∑ i, (s.threadQueueList i).load.jobs := by
  have hslots : ∀ u : SchedState n, u.Accounted → getTotalEmptySlots u.threadQueueList =
      queueSize * n - ((∑ i, (u.threadQueueList i).load.jobs : ℕ) : ℤ) := by
    intro u hu
    rw [getTotalEmptySlots_eq_sum, Finset.sum_sub_distrib, Nat.cast_sum,
      Finset.sum_congr rfl fun i _ => (hu.queues i).total_eq]
    simp [mul_comm]
  have hkept := loopBody_emptySlots h hidle ht
  rw [hslots s h, hslots t (loopBody_spec h hidle ht).1] at hkept
  omega

/-- Every queue is full when tasks are left in the pool. -/
theorem loopBody_full {fuel : ℕ} (h : s.Accounted) (hidle : s.stage = .idle)
    (ht : s.loopBody fuel = some t) (hleft : t.taskPool ≠ []) (i : Fin n) :
    (t.threadQueueList i).load.jobs = queueSize := by
  obtain ⟨haccounted, _, hserved⟩ := loopBody_spec h hidle ht
  have htotal := hserved.resolve_left hleft i
  rw [(haccounted.queues i).total_eq] at htotal
  exact_mod_cast htotal

/-- From empty queues a task is placed. -/
theorem loopBody_places {fuel : ℕ} (h : s.Accounted) (hidle : s.stage = .idle)
    (ht : s.loopBody fuel = some t) (hn : 0 < n) (hpool : s.taskPool ≠ [])
    (hempty : ∀ i slot, (s.threadQueueList i).occupied slot = none) :
    0 < ∑ i, (t.threadQueueList i).load.jobs ∧
      t.taskPool.length + ∑ i, (t.threadQueueList i).load.jobs = s.taskPool.length := by
  have hnone : ∑ i, (s.threadQueueList i).load.jobs = 0 :=
    Finset.sum_eq_zero fun i _ => (ThreadQueue.load_jobs_eq_zero_iff _).mpr (hempty i)
  have hloads := loopBody_load h hidle ht
  rw [hnone, Nat.add_zero] at hloads
  refine ⟨?_, hloads⟩
  by_cases hleft : t.taskPool = []
  · have hwaiting := List.length_pos_iff.mpr hpool
    rw [hleft, List.length_nil] at hloads
    omega
  · have hsingle := Finset.single_le_sum (f := fun i => (t.threadQueueList i).load.jobs)
      (fun _ _ => Nat.zero_le _) (Finset.mem_univ (⟨0, hn⟩ : Fin n))
    rw [loopBody_full h hidle ht hleft, queueSize] at hsingle
    omega

end SchedState

end WorkerUnit
