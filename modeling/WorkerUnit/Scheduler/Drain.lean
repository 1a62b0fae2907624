import WorkerUnit.Library.BoundedRuns
import WorkerUnit.Scheduler.JobTurns
import WorkerUnit.Scheduler.WorkThreads

/-!
# Coming to the end of all tasks

Wherever the scheduler thread and the task threads stand, they can go on until each task
that was accepted has been completed, unless a process of type zero waits or nothing is left
to wake the scheduler thread. What they have to do is bounded by the number of the tasks
that wait and of the threads.
-/

namespace WorkerUnit

open StepSystem

variable {n : ℕ}

namespace SchedState

variable {s : SchedState n}

/-- When nothing waits and no thread has a job, all accepted tasks are completed. -/
theorem Accounted.completed_perm (h : s.Accounted) (hpool : s.taskPool = [])
    (hempty : ∀ i slot, (s.threadQueueList i).occupied slot = none) :
    s.completed.Perm (List.range s.allocated) := by
  rw [List.perm_iff_count]
  intro address
  have hqueues : ∑ i, (s.threadQueueList i).holdsTask address = 0 := by
    refine Finset.sum_eq_zero fun i _ => ?_
    rw [ThreadQueue.holdsTask, funext (hempty i), Slots.countIf_empty]
  have hcount := h.count address
  rw [taskCount, hpool, hqueues] at hcount
  rw [List.Nodup.count List.nodup_range]
  simpa [TaskPool.procTables] using hcount

/-- When all accepted tasks are completed, nothing waits. -/
theorem Accounted.pool_eq_nil (h : s.Accounted)
    (hperm : s.completed.Perm (List.range s.allocated)) : s.taskPool = [] := by
  by_contra hpool
  obtain ⟨task, rest, hcons⟩ := List.exists_cons_of_ne_nil hpool
  have hcount := h.count task.procTable.address
  have hwaits : 0 < (s.taskPool.procTables.map (·.address)).count task.procTable.address := by
    rw [List.count_pos_iff, hcons]
    exact List.mem_cons_self ..
  rw [taskCount, hperm.count_eq, List.Nodup.count List.nodup_range] at hcount
  simp only [List.mem_range] at hcount
  split_ifs at hcount <;> omega

end SchedState

/-- The steps that a job still needs at most: it is fetched, it is done, it is fetched again,
it is completed. -/
def QueueJob.stepsLeft (job : QueueJob) : ℕ := if job.isJobStatusSet .done then 2 else 4

namespace ThreadQueue

def stepsLeft (q : ThreadQueue) : ℕ := ∑ i, (q.occupied i).elim 0 QueueJob.stepsLeft

variable {q : ThreadQueue} {i : Fin queueSize} {job : QueueJob}

theorem stepsLeft_le (q : ThreadQueue) : q.stepsLeft ≤ 4 * q.load.jobs := by
  rw [stepsLeft, load, Slots.load, Slots.countIf, Finset.mul_sum]
  refine Finset.sum_le_sum fun i _ => ?_
  cases q.occupied i with
  | none => exact Nat.zero_le _
  | some job =>
    simp only [Option.elim_some, QueueJob.stepsLeft, Slots.weight_some, if_true]
    split_ifs <;> omega

/-- A change of the job in one slot. -/
theorem stepsLeft_update {r : ThreadQueue} {slot : Option QueueJob}
    (h : r.occupied = Function.update q.occupied i slot) :
    r.stepsLeft + (q.occupied i).elim 0 QueueJob.stepsLeft =
      q.stepsLeft + slot.elim 0 QueueJob.stepsLeft := by
  rw [stepsLeft, h]
  exact Slots.sum_update (Option.elim · 0 QueueJob.stepsLeft) q.occupied i slot

theorem stepsLeft_setJobStatus (hjob : q.occupied i = some job) (status : JobStatus) :
    (q.setJobStatus i status).stepsLeft + job.stepsLeft =
      q.stepsLeft + (job.setJobStatus status).stepsLeft := by
  have hupdate := stepsLeft_update (q.occupied_setJobStatus i status)
  rwa [hjob] at hupdate

theorem stepsLeft_markTaskAsComplete (hjob : q.occupied q.head = some job) :
    q.markTaskAsComplete.stepsLeft + job.stepsLeft = q.stepsLeft := by
  have hupdate := stepsLeft_update q.occupied_markTaskAsComplete
  rwa [hjob] at hupdate

end ThreadQueue

namespace WorkState

open WakeState

/-- The event accepts no task. -/
def AcceptsNone : WakeEvent n → Prop
  | .pushTask .. => False
  | _ => True

/-- Each accepted task can be completed without another one being accepted. -/
def CanDrain (s : WorkState n) : Prop :=
  ∃ events t, exec workStep s events = some t ∧ (∀ e ∈ events, AcceptsNone e) ∧
    events.length ≤ 7 * s.wake.sched.taskPool.length + 17 * n + 2 ∧
    t.wake.sched.completed.Perm (List.range s.wake.sched.allocated)

/-- Tasks wait, no thread has a job, and no signal is left that wakes the scheduler
thread. -/
structure Stranded (s : WorkState n) : Prop where
  phase : s.wake.phase ≠ .looping
  seen : s.wake.seen = 0
  unseen : s.wake.unseen = 0
  pool : s.wake.sched.taskPool ≠ []
  empty : ∀ i slot, (s.wake.sched.threadQueueList i).occupied slot = none

variable {s t : WorkState n} {e : WakeEvent n}

/-- Without a new task the number of the accepted tasks stays, and so does a process of type
zero. -/
theorem frame_of_acceptsNone (h : s.Working) (he : AcceptsNone e) (ht : workStep s e = some t) :
    t.wake.sched.allocated = s.wake.sched.allocated ∧
      (t.wake.sched.Divides ↔ s.wake.sched.Divides) := by
  cases e with
  | pushTask newProc args priority starveCounter => exact he.elim
  | getNextTask thread =>
    obtain ⟨_, _, k, rfl | ⟨job, _, ⟨_, rfl⟩ | ⟨_, rfl⟩⟩⟩ := getNextTask_cases h.steady ht
    · exact ⟨rfl, Iff.rfl⟩
    · exact ⟨rfl, Iff.rfl⟩
    · exact ⟨rfl, Iff.rfl⟩
  | startReturns thread slot status =>
    obtain ⟨_, hwake, _⟩ := startReturns_cases ht
    rw [hwake]
    exact ⟨rfl, Iff.rfl⟩
  | markTaskAsComplete thread =>
    obtain ⟨_, rfl⟩ := markTaskAsComplete_cases ht
    exact ⟨rfl, Iff.rfl⟩
  | signalSeen =>
    obtain ⟨_, _, _, rfl⟩ := signal_cases (.inl rfl) ht
    exact ⟨rfl, Iff.rfl⟩
  | signalUnseen =>
    obtain ⟨_, _, _, rfl⟩ := signal_cases (.inr (.inl rfl)) ht
    exact ⟨rfl, Iff.rfl⟩
  | loopBody fuel =>
    obtain ⟨_, sched, hsched, rfl⟩ := loopBody_cases ht
    exact ⟨SchedState.loopBody_allocated h.steady.accounted h.steady.idle hsched,
      SchedState.loopBody_divides h.steady.accounted h.steady.idle hsched⟩
  | enterWait =>
    obtain ⟨_, _, _, rfl⟩ := signal_cases (.inr (.inr rfl)) ht
    exact ⟨rfl, Iff.rfl⟩

/-- A job that a thread closes or runs is in its queue. -/
theorem Stranded.idle (h : s.Stranded) (hworking : s.Working) (i : Fin n) :
    s.wake.closing i = false ∧ s.starting i = none := by
  constructor
  · by_contra hclosing
    obtain ⟨job, hjob, _⟩ := (hworking.steady.guarded.queues i).head (by simpa using hclosing)
    cases (h.empty i _).symm.trans hjob
  · by_contra hstarting
    obtain ⟨slot, hslot⟩ := Option.ne_none_iff_exists'.mp hstarting
    obtain ⟨_, job, hjob, _⟩ := hworking.runs i slot hslot
    cases (h.empty i slot).symm.trans hjob

theorem not_stranded_of_occupied (i : Fin n) (slot : Fin queueSize) {job : QueueJob}
    (hjob : (s.wake.sched.threadQueueList i).occupied slot = some job) : ¬ s.Stranded := by
  intro hstranded
  cases (hstranded.empty i slot).symm.trans hjob

/-- Only a new task and its signal end it. -/
theorem Stranded.step (h : s.Stranded) (hworking : s.Working) (he : AcceptsNone e)
    (ht : workStep s e = some t) : t.Stranded := by
  cases e with
  | pushTask newProc args priority starveCounter => exact he.elim
  | getNextTask thread =>
    obtain ⟨_, _, k, rfl | ⟨job, hjob, _⟩⟩ := getNextTask_cases hworking.steady ht
    · refine ⟨h.phase, h.seen, h.unseen, h.pool, fun i slot => ?_⟩
      by_cases hi : i = thread
      · subst hi
        have hmoved : ((s.wake.sched.threadQueueList i).atHead k).occupied slot = none :=
          h.empty i slot
        simpa [SchedState.setQueue] using hmoved
      · simpa [SchedState.setQueue, hi] using h.empty i slot
    · cases (h.empty thread k).symm.trans hjob
  | startReturns thread slot status =>
    obtain ⟨hstarting, _⟩ := startReturns_cases ht
    cases (h.idle hworking thread).2.symm.trans hstarting
  | markTaskAsComplete thread =>
    obtain ⟨hclosing, _⟩ := markTaskAsComplete_cases ht
    cases (h.idle hworking thread).1.symm.trans hclosing
  | signalSeen =>
    obtain ⟨wake, hwake, rfl⟩ := Option.map_eq_some_iff.mp ht
    simp only [wakeStep, h.seen, if_true] at hwake
    cases hwake
  | signalUnseen =>
    obtain ⟨wake, hwake, rfl⟩ := Option.map_eq_some_iff.mp ht
    simp only [wakeStep, h.unseen, if_true] at hwake
    cases hwake
  | loopBody fuel =>
    exact absurd (loopBody_cases ht).1 h.phase
  | enterWait =>
    obtain ⟨wake, hwake, rfl⟩ := Option.map_eq_some_iff.mp ht
    simp only [wakeStep] at hwake
    split_ifs at hwake
    cases hwake
    exact ⟨by simp, h.seen, h.unseen, h.pool, h.empty⟩

/-- What lasts from `s` on as long as no task is accepted. -/
structure Lasts (s u : WorkState n) : Prop where
  working : u.Working
  allocated : u.wake.sched.allocated = s.wake.sched.allocated
  divides : u.wake.sched.Divides ↔ s.wake.sched.Divides
  stranded : s.Stranded → u.Stranded

theorem Working.lasts (h : s.Working) : s.Lasts s := ⟨h, rfl, Iff.rfl, id⟩

theorem Lasts.step {u v : WorkState n} (h : s.Lasts u) (he : AcceptsNone e)
    (hv : workStep u e = some v) : s.Lasts v := by
  obtain ⟨hallocated, hdivides⟩ := frame_of_acceptsNone h.working he hv
  exact ⟨h.working.step hv, hallocated.trans h.allocated, hdivides.trans h.divides,
    fun hs => (h.stranded hs).step h.working he hv⟩

/-- Neither a stranded pool nor one with a process of type zero is ever emptied. -/
theorem Working.divides_and_not_stranded (hworking : s.Working) {events : List (WakeEvent n)}
    (hrun : exec workStep s events = some t) (hnone : ∀ e ∈ events, AcceptsNone e)
    (hperm : t.wake.sched.completed.Perm (List.range s.wake.sched.allocated)) :
    s.wake.sched.Divides ∧ ¬ s.Stranded := by
  have hlasts : s.Lasts t :=
    Guarded.invariant (G := fun _ e => AcceptsNone e) (fun _ _ _ hu he hv => hu.step he hv)
      hworking.lasts (.of_forall (fun e he _ => hnone e he) s) hrun
  have hpool := hlasts.working.steady.accounted.pool_eq_nil (hlasts.allocated ▸ hperm)
  constructor
  · rw [← hlasts.divides, SchedState.Divides, hpool]
    exact fun _ hmem => absurd hmem List.not_mem_nil
  · exact fun hs => (hlasts.stranded hs).pool hpool

/-- The steps of the jobs of a thread, and one for the thread to take the next of them. -/
def threadSteps (s : WorkState n) (i : Fin n) : ℕ :=
  (s.wake.sched.threadQueueList i).stepsLeft +
    if s.wake.closing i = false ∧ s.starting i = none then 1 else 0

def phaseSteps : SchedPhase → ℕ
  | .looping => 0
  | .waiting => 1
  | .served => 2

/-- A task of the pool may need the scheduler thread to wait and to be woken. -/
def stepsLeft (s : WorkState n) : ℕ :=
  7 * s.wake.sched.taskPool.length + ∑ i, s.threadSteps i + phaseSteps s.wake.phase

theorem threadSteps_le (s : WorkState n) (i : Fin n) :
    s.threadSteps i ≤ 4 * (s.wake.sched.threadQueueList i).load.jobs + 1 := by
  have hle := (s.wake.sched.threadQueueList i).stepsLeft_le
  unfold threadSteps
  split_ifs <;> omega

theorem stepsLeft_le (s : WorkState n) :
    s.stepsLeft ≤ 7 * s.wake.sched.taskPool.length + 17 * n + 2 := by
  have hthread : ∀ i ∈ Finset.univ, s.threadSteps i ≤ 17 := by
    intro i _
    have hsteps := s.threadSteps_le i
    have hjobs := (s.wake.sched.threadQueueList i).load_jobs_le
    rw [queueSize] at hjobs
    omega
  have hsum : ∑ i, s.threadSteps i ≤ n * 17 := by
    simpa using Finset.sum_le_card_nsmul Finset.univ s.threadSteps 17 hthread
  have hphase : phaseSteps s.wake.phase ≤ 2 := by
    cases s.wake.phase <;> simp [phaseSteps]
  rw [stepsLeft]
  omega

/-- A step of one thread. -/
theorem stepsLeft_lt {i : Fin n} (hpool : t.wake.sched.taskPool = s.wake.sched.taskPool)
    (hphase : t.wake.phase = s.wake.phase)
    (hother : ∀ j, j ≠ i → t.threadSteps j = s.threadSteps j)
    (hless : t.threadSteps i < s.threadSteps i) : t.stepsLeft < s.stepsLeft := by
  have hsum : ∑ j, t.threadSteps j < ∑ j, s.threadSteps j := by
    refine Finset.sum_lt_sum (fun j _ => ?_) ⟨i, Finset.mem_univ i, hless⟩
    by_cases hj : j = i
    · exact (hj ▸ hless).le
    · exact (hother j hj).le
  rw [stepsLeft, stepsLeft, hpool, hphase]
  omega

/-- A thread that closes a job completes it, and will signal that. -/
theorem Working.complete (h : s.Working) {i : Fin n} (hclosing : s.wake.closing i = true) :
    ∃ t, workStep s (.markTaskAsComplete i) = some t ∧ t.stepsLeft < s.stepsLeft ∧
      ¬ t.Stranded := by
  obtain ⟨job, hjob, _⟩ := (h.steady.guarded.queues i).head hclosing
  have hqueue := ThreadQueue.stepsLeft_markTaskAsComplete hjob
  have hpos : 2 ≤ job.stepsLeft := by
    unfold QueueJob.stepsLeft
    split_ifs <;> omega
  refine ⟨_, by simp only [workStep, wakeStep, hclosing, if_true]; rfl, ?_, ?_⟩
  · refine stepsLeft_lt (i := i) rfl rfl (fun j hj => ?_) ?_
    · simp [threadSteps, SchedState.complete, SchedState.setQueue, hj]
    · simp only [threadSteps, SchedState.complete, SchedState.setQueue, Function.update_self,
        hclosing]
      split_ifs <;> omega
  · exact fun hstranded => Nat.succ_ne_zero _ hstranded.unseen

/-- The job that a thread runs can be done. -/
theorem Working.finish (h : s.Working) {i : Fin n} {slot : Fin queueSize}
    (hslot : s.starting i = some slot) :
    ∃ t, workStep s (.startReturns i slot .done) = some t ∧ t.stepsLeft < s.stepsLeft ∧
      ¬ t.Stranded := by
  obtain ⟨hopen, job, hjob, hrunning, hdone⟩ := h.runs i slot hslot
  have hqueue := ThreadQueue.stepsLeft_setJobStatus hjob .done
  have hset : ((s.wake.sched.threadQueueList i).setJobStatus slot .done).occupied slot =
      some (job.setJobStatus .done) := by
    rw [ThreadQueue.occupied_setJobStatus, Function.update_self, hjob, Option.map_some]
  have hstop : startsAgain ((s.wake.sched.threadQueueList i).setJobStatus slot .done) slot =
      false := by
    simp [startsAgain, hset]
  have ht : workStep s (.startReturns i slot .done) = some ⟨{ s.wake with
      sched := s.wake.sched.setQueue i
        ((s.wake.sched.threadQueueList i).setJobStatus slot .done) },
      Function.update s.starting i none⟩ := by
    simp [workStep, wakeStep, SchedState.schedStep, hslot, hjob, hrunning, SchedState.setQueue,
      hstop]
  have hbefore : job.stepsLeft = 4 := by simp [QueueJob.stepsLeft, hdone]
  have hafter : (job.setJobStatus .done).stepsLeft = 2 := by simp [QueueJob.stepsLeft]
  refine ⟨_, ht, stepsLeft_lt (i := i) rfl rfl (fun j hj => ?_) ?_, ?_⟩
  · simp [threadSteps, SchedState.setQueue, hj]
  · simp only [threadSteps, SchedState.setQueue, Function.update_self, hopen, hslot]
    rw [if_pos (by simp), if_neg (by simp)]
    omega
  · exact not_stranded_of_occupied i slot
      (by simp only [SchedState.setQueue, Function.update_self]; exact hset)

/-- A thread without a job takes one of its queue. -/
theorem Working.fetch (h : s.Working) {i : Fin n} {slot : Fin queueSize} {job : QueueJob}
    (hopen : s.wake.closing i = false) (hstarting : s.starting i = none)
    (hjob : (s.wake.sched.threadQueueList i).occupied slot = some job) :
    ∃ t, workStep s (.getNextTask i) = some t ∧ t.stepsLeft < s.stepsLeft ∧ ¬ t.Stranded := by
  obtain ⟨k, next, hnext, hk, _⟩ :=
    (h.steady.accounted.queues i).counted.wellFormed.getNextTask_of_occupied hjob
  have hhead : ((s.wake.sched.threadQueueList i).atHead k).occupied k = some next := hk
  have hsame : ((s.wake.sched.threadQueueList i).atHead k).stepsLeft =
      (s.wake.sched.threadQueueList i).stepsLeft := rfl
  have hstate : s.starting = Function.update s.starting i none := by
    rw [← hstarting, Function.update_eq_self]
  cases hdone : next.isJobStatusSet .done with
  | true =>
    have ht : workStep s (.getNextTask i) = some ⟨{ s.wake with
        sched := s.wake.sched.setQueue i ((s.wake.sched.threadQueueList i).atHead k)
        closing := Function.update s.wake.closing i true }, s.starting⟩ := by
      simp [workStep, wakeStep, WakeState.getNextTask, fetched, hopen, hstarting, hnext, hdone,
        ← hstate]
    refine ⟨_, ht, stepsLeft_lt (i := i) rfl rfl (fun j hj => ?_) ?_, ?_⟩
    · simp [threadSteps, SchedState.setQueue, hj]
    · simp [threadSteps, SchedState.setQueue, hopen, hstarting, hsame]
    · exact not_stranded_of_occupied i k
        (by simp only [SchedState.setQueue, Function.update_self]; exact hhead)
  | false =>
    have ht : workStep s (.getNextTask i) = some ⟨{ s.wake with
        sched := s.wake.sched.setQueue i
          (((s.wake.sched.threadQueueList i).atHead k).setJobStatus k .running) },
        Function.update s.starting i (some k)⟩ := by
      simp [workStep, wakeStep, WakeState.getNextTask, fetched, hopen, hstarting, hnext, hdone,
        ThreadQueue.atHead]
    have hset : (next.setJobStatus .running).stepsLeft = next.stepsLeft := by
      simp [QueueJob.stepsLeft, hdone]
    have hqueue := ThreadQueue.stepsLeft_setJobStatus hhead .running
    have hrunning : (((s.wake.sched.threadQueueList i).atHead k).setJobStatus k
        .running).occupied k = some (next.setJobStatus .running) := by
      rw [ThreadQueue.occupied_setJobStatus, Function.update_self, hhead, Option.map_some]
    refine ⟨_, ht, stepsLeft_lt (i := i) rfl rfl (fun j hj => ?_) ?_, ?_⟩
    · simp [threadSteps, SchedState.setQueue, hj]
    · simp only [threadSteps, SchedState.setQueue, Function.update_self, hopen, hstarting]
      rw [if_neg (by simp), if_pos (by simp)]
      omega
    · exact not_stranded_of_occupied i k
        (by simp only [SchedState.setQueue, Function.update_self]; exact hrunning)

/-- The loop body places a task when all queues are empty. -/
theorem Working.place (h : s.Working) (hn : 0 < n) (hpool : s.wake.sched.taskPool ≠ [])
    (hempty : ∀ i slot, (s.wake.sched.threadQueueList i).occupied slot = none)
    (hlooping : s.wake.phase = .looping) (hdivides : s.wake.sched.Divides) :
    ∃ t, workStep s (.loopBody (16 * n + 17)) = some t ∧ t.stepsLeft < s.stepsLeft ∧
      ¬ t.Stranded := by
  have haccounted := h.steady.accounted
  have hidle := h.steady.idle
  obtain ⟨sched, hsched⟩ :=
    SchedState.loopBody_ends haccounted hidle hdivides (Nat.lt_succ_self (16 * n + 16))
  obtain ⟨t, ht, hwake, hstarting⟩ : ∃ t, workStep s (.loopBody (16 * n + 17)) = some t ∧
      t.wake = { s.wake with
        sched := sched, phase := .served, seen := s.wake.seen + s.wake.unseen, unseen := 0 } ∧
      t.starting = s.starting := by
    simp [workStep, wakeStep, hlooping, hsched]
  refine ⟨t, ht, ?_, fun hstranded => ?_⟩
  · -- A placed task gives up 7 steps for at most 4 of its job, and the wait takes 2 once.
    obtain ⟨hplaced, hloads⟩ :=
      SchedState.loopBody_places haccounted hidle hsched hn hpool hempty
    have hthreads : ∑ i, t.threadSteps i ≤
        4 * ∑ i, (sched.threadQueueList i).load.jobs + ∑ i, s.threadSteps i := by
      rw [Finset.mul_sum, ← Finset.sum_add_distrib]
      refine Finset.sum_le_sum fun i _ => ?_
      have hle := (sched.threadQueueList i).stepsLeft_le
      simp only [threadSteps, hwake, hstarting]
      omega
    simp only [stepsLeft, hwake, hlooping, phaseSteps]
    omega
  · have hleft := hstranded.pool
    have hnone := hstranded.empty ⟨0, hn⟩
    rw [hwake] at hleft hnone
    have hjobs := SchedState.loopBody_full haccounted hidle hsched hleft ⟨0, hn⟩
    rw [(ThreadQueue.load_jobs_eq_zero_iff _).mpr hnone] at hjobs
    cases hjobs

/-- While a signal is left the scheduler thread comes to the head of its loop. -/
theorem exists_wakeUp (h : ¬ s.Stranded) (hpool : s.wake.sched.taskPool ≠ [])
    (hempty : ∀ i slot, (s.wake.sched.threadQueueList i).occupied slot = none)
    (hphase : s.wake.phase ≠ .looping) :
    ∃ e t, AcceptsNone e ∧ workStep s e = some t ∧ t.stepsLeft < s.stepsLeft ∧ ¬ t.Stranded := by
  have hsignal : s.wake.seen ≠ 0 ∨ s.wake.unseen ≠ 0 := by
    by_contra hnone
    rw [not_or, not_not, not_not] at hnone
    exact h ⟨hphase, hnone.1, hnone.2, hpool, hempty⟩
  cases hwait : s.wake.phase with
  | looping => exact absurd hwait hphase
  | served =>
    refine ⟨.enterWait, ⟨{ s.wake with phase := .waiting }, s.starting⟩, trivial, ?_, ?_, ?_⟩
    · simp [workStep, wakeStep, hwait]
    · simp [stepsLeft, threadSteps, phaseSteps, hwait]
    · exact fun hstranded => hsignal.elim (· hstranded.seen) (· hstranded.unseen)
  | waiting =>
    by_cases hseen : s.wake.seen = 0
    · have hunseen := hsignal.resolve_left (not_not.mpr hseen)
      refine ⟨.signalUnseen, ⟨{ s.wake with unseen := s.wake.unseen - 1, phase := .looping },
        s.starting⟩, trivial, ?_, ?_, fun hstranded => hstranded.phase rfl⟩
      · simp [workStep, wakeStep, hunseen, hwait, SchedPhase.signal]
      · simp [stepsLeft, threadSteps, phaseSteps, hwait]
    · refine ⟨.signalSeen, ⟨{ s.wake with seen := s.wake.seen - 1, phase := .looping },
        s.starting⟩, trivial, ?_, ?_, fun hstranded => hstranded.phase rfl⟩
      · simp [workStep, wakeStep, hseen, hwait, SchedPhase.signal]
      · simp [stepsLeft, threadSteps, phaseSteps, hwait]

/-- As long as a task waits or is in a queue, some thread brings one closer to its end. -/
theorem Working.progress (h : s.Working) (hn : 0 < n) (hdivides : s.wake.sched.Divides)
    (hstranded : ¬ s.Stranded)
    (hleft : ¬ (s.wake.sched.taskPool = [] ∧
      ∀ i slot, (s.wake.sched.threadQueueList i).occupied slot = none)) :
    ∃ e t, AcceptsNone e ∧ workStep s e = some t ∧ t.stepsLeft < s.stepsLeft ∧
      ¬ t.Stranded := by
  by_cases hclosing : ∃ i, s.wake.closing i = true
  · obtain ⟨i, hi⟩ := hclosing
    obtain ⟨t, ht⟩ := h.complete hi
    exact ⟨.markTaskAsComplete i, t, trivial, ht⟩
  by_cases hstarting : ∃ i slot, s.starting i = some slot
  · obtain ⟨i, slot, hslot⟩ := hstarting
    obtain ⟨t, ht⟩ := h.finish hslot
    exact ⟨.startReturns i slot .done, t, trivial, ht⟩
  by_cases hoccupied : ∃ i slot job, (s.wake.sched.threadQueueList i).occupied slot = some job
  · obtain ⟨i, slot, job, hjob⟩ := hoccupied
    have hopen : s.wake.closing i = false := by
      rw [Bool.eq_false_iff]
      exact fun hi => hclosing ⟨i, hi⟩
    have hnone : s.starting i = none := by
      rw [Option.eq_none_iff_forall_ne_some]
      exact fun slot hslot => hstarting ⟨i, slot, hslot⟩
    obtain ⟨t, ht⟩ := h.fetch hopen hnone hjob
    exact ⟨.getNextTask i, t, trivial, ht⟩
  have hempty : ∀ i slot, (s.wake.sched.threadQueueList i).occupied slot = none := by
    intro i slot
    rw [Option.eq_none_iff_forall_ne_some]
    exact fun job hjob => hoccupied ⟨i, slot, job, hjob⟩
  have hpool : s.wake.sched.taskPool ≠ [] := fun hnil => hleft ⟨hnil, hempty⟩
  by_cases hphase : s.wake.phase = .looping
  · obtain ⟨t, ht⟩ := h.place hn hpool hempty hphase hdivides
    exact ⟨.loopBody (16 * n + 17), t, trivial, ht⟩
  · exact exists_wakeUp hstranded hpool hempty hphase

theorem Working.canDrain (h : s.Working) (hn : 0 < n) (hdivides : s.wake.sched.Divides)
    (hstranded : ¬ s.Stranded) : s.CanDrain := by
  have hstep : ∀ u, s.Lasts u ∧ ¬ u.Stranded → ¬ (u.wake.sched.taskPool = [] ∧
      ∀ i slot, (u.wake.sched.threadQueueList i).occupied slot = none) →
      ∃ e v, AcceptsNone e ∧ workStep u e = some v ∧ (s.Lasts v ∧ ¬ v.Stranded) ∧
        v.stepsLeft < u.stepsLeft := by
    rintro u ⟨hu, hnot⟩ hleft
    obtain ⟨e, v, he, hv, hless, hkept⟩ :=
      hu.working.progress hn (hu.divides.mpr hdivides) hnot hleft
    exact ⟨e, v, he, hv, ⟨hu.step he hv, hkept⟩, hless⟩
  obtain ⟨events, t, hrun, hnone, hlength, ⟨ht, _⟩, hpool, hempty⟩ :=
    exists_run_to (μ := stepsLeft) hstep ⟨h.lasts, hstranded⟩
  refine ⟨events, t, hrun, hnone, hlength.trans s.stepsLeft_le, ?_⟩
  rw [← ht.allocated]
  exact ht.working.steady.accounted.completed_perm hpool hempty

/-- Without a lost wake-up no pool is stranded. -/
theorem not_stranded (h : s.wake.Attended) (hn : 0 < n) : ¬ s.Stranded := by
  intro hstranded
  have hserved : s.wake.sched.Served := by
    cases hphase : s.wake.phase with
    | looping => exact absurd hphase hstranded.phase
    | served => exact h.served hphase hstranded.unseen
    | waiting => exact h.waiting hphase hstranded.seen hstranded.unseen
  have htotal := hserved.resolve_left hstranded.pool ⟨0, hn⟩
  rw [(h.accounted.queues ⟨0, hn⟩).total_eq,
    (ThreadQueue.load_jobs_eq_zero_iff _).mpr (hstranded.empty ⟨0, hn⟩)] at htotal
  cases htotal

/-- The process of a task that is pushed is not of type zero. -/
def PushesTyped : WakeEvent n → Prop
  | .pushTask newProc _ _ _ => newProc.type ≠ 0
  | _ => True

theorem divides_step (h : s.Working) (hdivides : s.wake.sched.Divides) (he : PushesTyped e)
    (ht : workStep s e = some t) : t.wake.sched.Divides := by
  have hother : AcceptsNone e → t.wake.sched.Divides :=
    fun hnone => (frame_of_acceptsNone h hnone ht).2.mpr hdivides
  cases e with
  | pushTask newProc args priority starveCounter =>
    obtain ⟨wake, hwake, rfl⟩ := Option.map_eq_some_iff.mp ht
    simp only [wakeStep] at hwake
    split at hwake
    · cases hwake
      exact hdivides
    · rename_i taskPool hpush
      cases hwake
      unfold scheduleTask at hpush
      split_ifs at hpush
      cases hpush
      intro procTable hmem
      rcases List.mem_cons.mp ((TaskPool.procTables_pushTask ..).subset hmem) with rfl | hold
      · exact he
      · exact hdivides procTable hold
  | getNextTask thread => exact hother trivial
  | markTaskAsComplete thread => exact hother trivial
  | startReturns thread slot status => exact hother trivial
  | signalSeen => exact hother trivial
  | signalUnseen => exact hother trivial
  | loopBody fuel => exact hother trivial
  | enterWait => exact hother trivial

end WorkState

end WorkerUnit
