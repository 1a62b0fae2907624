import WorkerUnit.Scheduler.WorkStealing

/-!
# References to jobs

Where a pointer to a process is left: in a slot whose flag is clear, with the
scheduler thread, or with a task thread. The steps that move jobs around refer to
no other process than before.
-/

namespace WorkerUnit

namespace ThreadQueue

variable {q : ThreadQueue} {job : QueueJob}

/-- `getNextTask` moves the head only, and returns a job from a slot whose flag is
clear. -/
theorem nextTask_occupied (k : ℕ) (q : ThreadQueue) :
    (q.nextTask k).2.occupied = q.occupied ∧
      ∀ job, (q.nextTask k).1 = some job → ∃ i, q.occupied i = some job := by
  induction k generalizing q with
  | zero => exact ⟨rfl, nofun⟩
  | succ k ih =>
    rw [nextTask]
    dsimp only
    split_ifs with hdone
    · refine ⟨rfl, fun job hjob => ⟨q.head + 1, ?_⟩⟩
      have hclear : q.jobSlotDone (q.head + 1) = false := by simpa using hdone
      rw [occupied, hclear]
      exact hjob
    · exact ih _

theorem occupied_addNewTask {popped : Option QueueJob} {i : Fin queueSize}
    (h : (q.addNewTask popped).2.occupied i = some job) :
    q.occupied i = some job ∨ popped = some job := by
  cases popped with
  | none => exact .inl h
  | some new =>
    rcases q.addNewTask_cases new with hfull | ⟨slot, _, hput⟩
    · rw [hfull] at h
      exact .inl h
    · rw [hput, occupied_place] at h
      by_cases hi : i = slot
      · subst hi
        rw [Function.update_self] at h
        exact .inr h
      · rw [Function.update_of_ne hi] at h
        exact .inl h

end ThreadQueue

namespace StealState

variable {n : ℕ} {s t : StealState n} {address : ℕ}

/-- A pointer to the process: in a slot whose flag is clear, with the scheduler
thread, or with a task thread. -/
inductive Refers (s : StealState n) (address : ℕ) : Prop where
  | slot (thread : Fin n) (slot : Fin queueSize) (job : QueueJob)
      (h : (s.threadQueueList thread).occupied slot = some job)
      (haddress : job.processTable.address = address)
  | popped (job : QueueJob) (h : s.popped.join = some job)
      (haddress : job.processTable.address = address)
  | worker (thread : Fin n) (job : QueueJob) (h : (s.workers thread).job = some job)
      (haddress : job.processTable.address = address)

theorem Refers.mono (h : t.Refers address)
    (hslot : ∀ thread slot job, (t.threadQueueList thread).occupied slot = some job →
      s.Refers job.processTable.address)
    (hpopped : ∀ job, t.popped.join = some job → s.Refers job.processTable.address)
    (hworker : ∀ thread job, (t.workers thread).job = some job →
      s.Refers job.processTable.address) : s.Refers address := by
  cases h with
  | slot thread slot job h haddress => exact haddress ▸ hslot thread slot job h
  | popped job h haddress => exact haddress ▸ hpopped job h
  | worker thread job h haddress => exact haddress ▸ hworker thread job h

theorem refers_of_slot {thread : Fin n} {slot : Fin queueSize} {job : QueueJob}
    (h : (s.threadQueueList thread).occupied slot = some job) :
    s.Refers job.processTable.address := .slot thread slot job h rfl

theorem refers_of_popped {job : QueueJob} (h : s.popped.join = some job) :
    s.Refers job.processTable.address := .popped job h rfl

theorem refers_of_worker {thread : Fin n} {job : QueueJob}
    (h : (s.workers thread).job = some job) : s.Refers job.processTable.address :=
  .worker thread job h rfl

/-- A queue that holds what was referred to. -/
theorem refers_setQueue {thread : Fin n} {queue : ThreadQueue}
    (hq : ∀ slot job, queue.occupied slot = some job → s.Refers job.processTable.address)
    (h : (s.setQueue thread queue).Refers address) : s.Refers address := by
  refine h.mono (fun i slot job hjob => ?_) (fun _ hjob => refers_of_popped hjob)
    fun _ _ hjob => refers_of_worker hjob
  by_cases hi : i = thread
  · subst hi
    simp only [setQueue, Function.update_self] at hjob
    exact hq slot job hjob
  · simp only [setQueue, Function.update_of_ne hi] at hjob
    exact refers_of_slot hjob

theorem refers_setWorker {thread : Fin n} {worker : WorkerStage}
    (hworker : ∀ job, worker.job = some job → s.Refers job.processTable.address)
    (h : (s.setWorker thread worker).Refers address) : s.Refers address := by
  refine h.mono (fun _ _ _ hjob => refers_of_slot hjob) (fun _ hjob => refers_of_popped hjob)
    fun i job hjob => ?_
  by_cases hi : i = thread
  · subst hi
    simp only [setWorker, Function.update_self] at hjob
    exact hworker job hjob
  · simp only [setWorker, Function.update_of_ne hi] at hjob
    exact refers_of_worker hjob

/-- A write refers to no other process. -/
theorem refers_write {target : ℕ} {g : QueueJob → QueueJob} (hg : QueueJob.Keeps g)
    (h : (s.write target g).Refers address) : s.Refers address := by
  have hkeep := (hg.writeAt target).address
  refine h.mono (fun i slot job hjob => ?_) (fun job hjob => ?_) fun i job hjob => ?_
  · have hmap : ((s.threadQueueList i).mapJobs (QueueJob.writeAt target g)).occupied slot =
        some job := hjob
    rw [ThreadQueue.occupied_mapJobs, Option.map_eq_some_iff] at hmap
    obtain ⟨old, hold, rfl⟩ := hmap
    exact hkeep old ▸ refers_of_slot hold
  · rw [popped_write, Option.map_eq_some_iff] at hjob
    obtain ⟨old, hold, rfl⟩ := hjob
    exact hkeep old ▸ refers_of_popped hold
  · simp only [write, WorkerStage.job_map, Option.map_eq_some_iff] at hjob
    obtain ⟨old, hold, rfl⟩ := hjob
    exact hkeep old ▸ refers_of_worker hold

theorem refers_flushFinishedJobs {thread : Fin n}
    (ht : stealStep s (.flushFinishedJobs thread) = some t) (h : t.Refers address) :
    s.Refers address := by
  simp only [stealStep] at ht
  split_ifs at ht
  cases ht
  refine refers_setQueue (fun slot job hjob => ?_) h
  rw [ThreadQueue.occupied_flushFinishedJobs] at hjob
  exact refers_of_slot hjob

theorem refers_rebalance (ht : stealStep s .rebalance = some t) (h : t.Refers address) :
    s.Refers address := by
  simp only [stealStep] at ht
  split at ht
  · cases ht
  · obtain ⟨u, _, rfl⟩ := Option.map_eq_some_iff.mp ht
    exact h.mono (fun _ _ _ hjob => refers_of_slot hjob) (fun _ hjob => refers_of_popped hjob)
      fun _ _ hjob => refers_of_worker hjob

/-- The job that is popped was in its slot. -/
theorem refers_popJob (ht : stealStep s .popJob = some t) (h : t.Refers address) :
    s.Refers address := by
  simp only [stealStep] at ht
  split at ht
  · rename_i busy _ _
    obtain ⟨⟨popped, queue⟩, hpop, rfl⟩ := Option.map_eq_some_iff.mp ht
    have hcases := ThreadQueue.popSlot_cases hpop
    have hqueue : ∀ slot job, queue.occupied slot = some job →
        s.Refers job.processTable.address := by
      intro slot job hjob
      rcases hcases with ⟨_, rfl⟩ | ⟨i, _, _, _, _, rfl⟩
      · exact refers_of_slot hjob
      · rw [ThreadQueue.occupied_remove] at hjob
        by_cases hi : slot = i
        · subst hi
          simp at hjob
        · rw [Function.update_of_ne hi] at hjob
          exact refers_of_slot hjob
    refine h.mono (fun i slot job hjob => ?_) (fun job hjob => ?_)
      fun _ _ hjob => refers_of_worker hjob
    · exact refers_setQueue hqueue (refers_of_slot (s := s.setQueue busy queue) hjob)
    · rcases hcases with ⟨rfl, _⟩ | ⟨i, old, hold, _, rfl, _⟩
      · simp at hjob
      · cases hjob
        exact refers_of_slot hold
  · cases ht

/-- The job that is added was in the hands of the scheduler thread. -/
theorem refers_addNewTask (ht : stealStep s .addNewTask = some t) (h : t.Refers address) :
    s.Refers address := by
  simp only [stealStep] at ht
  split at ht
  · rename_i free _ popped _ hpopped
    cases ht
    have hqueue : ∀ slot job,
        ((s.threadQueueList free).addNewTask popped).2.occupied slot = some job →
          s.Refers job.processTable.address := by
      intro slot job hjob
      rcases ThreadQueue.occupied_addNewTask hjob with hold | rfl
      · exact refers_of_slot hold
      · exact refers_of_popped (by rw [hpopped]; rfl)
    refine h.mono (fun i slot job hjob => ?_) (fun job hjob => ?_)
      fun _ _ hjob => refers_of_worker hjob
    · exact refers_setQueue hqueue (refers_of_slot (s := s.setQueue free _) hjob)
    · cases hjob
  · cases ht

/-- The job that is fetched is in a slot. -/
theorem refers_getNextTask {thread : Fin n} (ht : stealStep s (.getNextTask thread) = some t)
    (h : t.Refers address) : s.Refers address := by
  simp only [stealStep] at ht
  split at ht
  · cases ht
    obtain ⟨hoccupied, hfetched⟩ :=
      ThreadQueue.nextTask_occupied queueSize (s.threadQueueList thread)
    have hqueue : ∀ slot job,
        (s.threadQueueList thread).getNextTask.2.occupied slot = some job →
          s.Refers job.processTable.address := by
      intro slot job hjob
      rw [ThreadQueue.getNextTask, hoccupied] at hjob
      exact refers_of_slot hjob
    refine refers_setQueue hqueue (refers_setWorker ?_ h)
    intro job hjob
    cases hnext : (s.threadQueueList thread).getNextTask.1 with
    | none =>
      rw [hnext] at hjob
      cases hjob
    | some fetched =>
      rw [hnext] at hjob
      cases hjob
      obtain ⟨slot, hslot⟩ := hfetched job hnext
      rw [← hoccupied] at hslot
      refine .slot thread slot job ?_ rfl
      simp only [setQueue, Function.update_self]
      exact hslot
  · cases ht

/-- The job that is closed was in the slot at the head of its queue. -/
theorem refers_close {thread : Fin n} (ht : s.close thread = some t) (h : t.Refers address) :
    s.Refers address := by
  unfold StealState.close at ht
  split at ht
  · cases ht
  · cases ht
    refine refers_write (QueueJob.keeps_setJobStatus .done)
      (refers_setQueue (fun slot job hjob => ?_)
        (refers_setWorker (fun _ hidle => by cases hidle) h))
    rw [ThreadQueue.occupied_markTaskAsComplete] at hjob
    refine .slot thread slot job ?_ rfl
    rw [Function.update_apply] at hjob
    split_ifs at hjob
    exact hjob

theorem refers_allocated {k : ℕ} (h : Refers { s with allocated := k } address) :
    s.Refers address := by
  exact h.mono (fun _ _ _ hjob => refers_of_slot hjob) (fun _ hjob => refers_of_popped hjob)
    fun _ _ hjob => refers_of_worker hjob

/-- A new job is the only one that a queue refers to when it takes it. -/
theorem refers_place {thread : Fin n} {job : QueueJob}
    (h : (s.setQueue thread ((s.threadQueueList thread).addNewTask (some job)).2).Refers
      address) : s.Refers address ∨ job.processTable.address = address := by
  by_cases hnew : job.processTable.address = address
  · exact .inr hnew
  left
  cases h with
  | slot i slot other h haddress =>
    by_cases hi : i = thread
    · subst hi
      simp only [setQueue, Function.update_self] at h
      rcases ThreadQueue.occupied_addNewTask h with hold | hjob
      · exact .slot i slot other hold haddress
      · cases hjob
        exact absurd haddress hnew
    · simp only [setQueue, Function.update_of_ne hi] at h
      exact .slot i slot other h haddress
  | popped other h haddress => exact .popped other h haddress
  | worker i other h haddress => exact .worker i other h haddress

/-- A job of a task thread is at the head of its queue, so every reference counts. -/
theorem Held.jobCount_pos (h : s.Held) (hrefers : s.Refers address) : 0 < s.jobCount address := by
  have hslot : ∀ thread slot job, (s.threadQueueList thread).occupied slot = some job →
      0 < s.jobCount job.processTable.address := by
    intro thread slot job hjob
    have hle : (s.threadQueueList thread).holdsTask job.processTable.address ≤
        ∑ i, (s.threadQueueList i).holdsTask job.processTable.address :=
      Finset.single_le_sum (f := fun i => (s.threadQueueList i).holdsTask job.processTable.address)
        (fun i _ => Nat.zero_le _) (Finset.mem_univ thread)
    have hpos := ThreadQueue.holdsTask_pos hjob
    rw [jobCount]
    omega
  cases hrefers with
  | slot thread slot job hjob haddress => exact haddress ▸ hslot thread slot job hjob
  | popped job hjob haddress => simp [jobCount, hjob, Slots.weight_some, haddress]
  | worker thread job hjob haddress =>
    exact haddress ▸ hslot thread _ job (h.held thread job hjob)

theorem refers_of_jobCount (h : s.jobCount address ≠ 0) : s.Refers address := by
  by_contra hnot
  have hqueues : ∑ i, (s.threadQueueList i).holdsTask address = 0 := by
    apply Finset.sum_eq_zero
    intro i _
    by_contra hi
    obtain ⟨slot, job, hjob, haddress⟩ := Slots.exists_of_countIf_ne_zero hi
    exact hnot (.slot i slot job hjob (by simpa using haddress))
  have hpopped : Slots.weight (fun job : QueueJob => job.processTable.address == address)
      s.popped.join = 0 := by
    cases hjob : s.popped.join with
    | none => rfl
    | some job =>
      have hne : job.processTable.address ≠ address := fun he => hnot (.popped job hjob he)
      simp [Slots.weight_some, hne]
  rw [jobCount, hqueues, hpopped] at h
  exact h rfl

end StealState

end WorkerUnit
