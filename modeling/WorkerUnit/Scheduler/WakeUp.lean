import WorkerUnit.Library.StepSystem
import WorkerUnit.Scheduler.LoopBody

/-!
# Waking the scheduler thread

The loop body of `sched_task` as one step, the wait after it as another, and the
signals of the threads that push or complete a task as steps of their own. A
signal wakes the scheduler thread when it is waiting, and is lost otherwise. A job
is set running in the step that fetches it.
-/

namespace WorkerUnit

open StepSystem

variable {n : ℕ}

/-- The scheduler thread is at the head of its loop, behind the loop body, or in
`pthread_cond_wait`. -/
inductive SchedPhase where
  | looping
  | served
  | waiting
  deriving DecidableEq, Repr

/-- What a signal does. -/
def SchedPhase.signal : SchedPhase → SchedPhase
  | waiting => looping
  | phase => phase

namespace SchedState

/-- The job at the head of the queue is marked complete. -/
def complete (s : SchedState n) (thread : Fin n) : SchedState n :=
  let queue := s.threadQueueList thread
  { s.setQueue thread queue.markTaskAsComplete with
    completed := s.completed ++
      ((queue.jobQueue queue.head).map (·.processTable.address)).toList }

end SchedState

/-- The threads that have pushed or completed a task and not yet signalled it are
counted: `seen` those that did so before the last loop body, `unseen` the others.
A thread is `closing` from the fetch of a job that is done to `markTaskAsComplete`. -/
structure WakeState (n : ℕ) where
  sched : SchedState n
  phase : SchedPhase
  closing : Fin n → Bool
  seen : ℕ
  unseen : ℕ

inductive WakeEvent (n : ℕ) where
  | pushTask (newProc : ProcessStates) (args : Option Unit) (priority : TaskPriority)
      (starveCounter : ℕ)
  | getNextTask (thread : Fin n)
  | markTaskAsComplete (thread : Fin n)
  | startReturns (thread : Fin n) (slot : Fin queueSize) (status : JobStatus)
  | signalSeen
  | signalUnseen
  | loopBody (fuel : ℕ)
  | enterWait

namespace WakeState

def start (jobQueues : Fin n → Fin queueSize → Option QueueJob) : WakeState n :=
  ⟨.start jobQueues, .looping, fun _ => false, 0, 0⟩

/-- A job that is not done is set running when it is fetched. -/
def getNextTask (s : WakeState n) (thread : Fin n) : WakeState n :=
  match (s.sched.threadQueueList thread).getNextTask with
  | (none, queue) => { s with sched := s.sched.setQueue thread queue }
  | (some job, queue) =>
    if job.isJobStatusSet .done then
      { s with
        sched := s.sched.setQueue thread queue
        closing := Function.update s.closing thread true }
    else { s with sched := s.sched.setQueue thread (queue.setJobStatus queue.head .running) }

def wakeStep (s : WakeState n) : WakeEvent n → Option (WakeState n)
  | .pushTask newProc args priority starveCounter =>
    match scheduleTask s.sched.taskPool s.sched.allocated starveCounter newProc args priority with
    | none => some s
    | some taskPool =>
      some
        { s with
          sched := { s.sched with taskPool := taskPool, allocated := s.sched.allocated + 1 }
          unseen := s.unseen + 1 }
  | .getNextTask thread => if s.closing thread then none else some (s.getNextTask thread)
  | .markTaskAsComplete thread =>
    if s.closing thread then
      some
        { s with
          sched := s.sched.complete thread
          closing := Function.update s.closing thread false
          unseen := s.unseen + 1 }
    else none
  | .startReturns thread slot status =>
    (SchedState.schedStep s.sched (.startReturns thread slot status)).map fun sched =>
      { s with sched := sched }
  | .signalSeen =>
    if s.seen = 0 then none
    else some { s with seen := s.seen - 1, phase := s.phase.signal }
  | .signalUnseen =>
    if s.unseen = 0 then none
    else some { s with unseen := s.unseen - 1, phase := s.phase.signal }
  | .loopBody fuel =>
    if s.phase = .looping then
      (s.sched.loopBody fuel).map fun sched =>
        { s with sched := sched, phase := .served, seen := s.seen + s.unseen, unseen := 0 }
    else none
  | .enterWait => if s.phase = .served then some { s with phase := .waiting } else none

/-- A waiting scheduler thread that no signal will wake has nothing to do. -/
def NoLostWakeUp (s : WakeState n) : Prop :=
  s.phase = .waiting → s.seen = 0 → s.unseen = 0 → s.sched.Served

/-- Between its loop body and its wait, the scheduler thread is sent no signal of
what has happened since the loop body. -/
def SignalsWait (s : WakeState n) (e : WakeEvent n) : Prop :=
  e = .signalUnseen → s.phase ≠ .served

/-- What has been served is served until something is pushed or completed. -/
structure Attended (s : WakeState n) : Prop where
  accounted : s.sched.Accounted
  guarded : s.sched.Protected s.closing
  idle : s.sched.stage = .idle
  served : s.phase = .served → s.unseen = 0 → s.sched.Served
  waiting : s.phase = .waiting → s.seen = 0 → s.unseen = 0 → s.sched.Served

variable {s t : WakeState n}

theorem attended_start (jobQueues : Fin n → Fin queueSize → Option QueueJob) :
    (start jobQueues).Attended := by
  refine ⟨SchedState.accounted_start jobQueues, ⟨nofun, fun i => ⟨?_, nofun⟩⟩, rfl, nofun, nofun⟩
  intro slot job hjob
  simp [start, SchedState.start] at hjob

/-- A step of a worker that changes neither the jobs in its queue nor their number. -/
theorem Attended.setQueue (h : s.Attended) (thread : Fin n) {queue : ThreadQueue} {c : Bool}
    (hq : queue.Sound) (hprotects : queue.Protects c)
    (htotal : queue.totalJobsInQueue = (s.sched.threadQueueList thread).totalJobsInQueue)
    (hholds : ∀ address, queue.holdsTask address =
      (s.sched.threadQueueList thread).holdsTask address) :
    Attended { s with
      sched := s.sched.setQueue thread queue
      closing := Function.update s.closing thread c } := by
  have hserved : s.sched.Served → (s.sched.setQueue thread queue).Served := by
    rintro (hempty | hfull)
    · exact .inl hempty
    · refine .inr fun i => ?_
      by_cases hi : i = thread
      · subst hi
        simpa [SchedState.setQueue] using htotal.trans (hfull i)
      · simpa [SchedState.setQueue, hi] using hfull i
  exact ⟨h.accounted.setQueue thread hq htotal.le hholds,
    h.guarded.setQueue thread hprotects, h.idle,
    fun hphase hunseen => hserved (h.served hphase hunseen),
    fun hphase hseen hunseen => hserved (h.waiting hphase hseen hunseen)⟩

theorem Attended.keepQueue (h : s.Attended) (thread : Fin n) {queue : ThreadQueue}
    (hq : queue.Sound) (hprotects : queue.Protects (s.closing thread))
    (htotal : queue.totalJobsInQueue = (s.sched.threadQueueList thread).totalJobsInQueue)
    (hholds : ∀ address, queue.holdsTask address =
      (s.sched.threadQueueList thread).holdsTask address) :
    Attended { s with sched := s.sched.setQueue thread queue } := by
  have hset := h.setQueue thread hq hprotects htotal hholds
  rwa [Function.update_eq_self] at hset

/-- A change that is still to be signalled. -/
theorem Attended.of_unseen {sched : SchedState n} {closing : Fin n → Bool}
    (haccounted : sched.Accounted) (hguarded : sched.Protected closing)
    (hidle : sched.stage = .idle) :
    Attended { s with sched := sched, closing := closing, unseen := s.unseen + 1 } :=
  ⟨haccounted, hguarded, hidle, nofun, nofun⟩

theorem Attended.pushTask (h : s.Attended) {newProc : ProcessStates} {args : Option Unit}
    {priority : TaskPriority} {starveCounter : ℕ}
    (ht : wakeStep s (.pushTask newProc args priority starveCounter) = some t) : t.Attended := by
  simp only [wakeStep] at ht
  split at ht
  · cases ht
    exact h
  · rename_i taskPool hpush
    cases ht
    refine .of_unseen (h.accounted.scheduleTask hpush) ⟨?_, h.guarded.queues⟩ h.idle
    unfold scheduleTask at hpush
    split_ifs at hpush
    cases hpush
    intro procTable hmem
    rcases List.mem_cons.mp ((TaskPool.procTables_pushTask ..).subset hmem) with rfl | hold
    · rfl
    · exact h.guarded.pool procTable hold

theorem Attended.getNextTask (h : s.Attended) {thread : Fin n}
    (ht : wakeStep s (.getNextTask thread) = some t) : t.Attended := by
  simp only [wakeStep] at ht
  split_ifs at ht with hclosing
  cases ht
  have hsound := h.accounted.queues thread
  have hprotects := h.guarded.queues thread
  have hopen : s.closing thread = false := by simpa using hclosing
  obtain ⟨i, hnext | ⟨job, hslot, hjob, hnext⟩⟩ := hsound.getNextTask_cases
  · have hstate : s.getNextTask thread = { s with
        sched := s.sched.setQueue thread ((s.sched.threadQueueList thread).atHead i) } := by
      simp [WakeState.getNextTask, hnext]
    rw [hstate]
    exact h.keepQueue thread (hsound.atHead i) (hopen ▸ hprotects.atHead i) rfl fun _ => rfl
  · by_cases hdone : job.isJobStatusSet .done = true
    · have hstate : s.getNextTask thread = { s with
          sched := s.sched.setQueue thread ((s.sched.threadQueueList thread).atHead i)
          closing := Function.update s.closing thread true } := by
        simp [WakeState.getNextTask, hnext, hdone]
      have hoccupied : ((s.sched.threadQueueList thread).atHead i).occupied i = some job := by
        simp [ThreadQueue.occupied, ThreadQueue.atHead, hslot, hjob]
      rw [hstate]
      exact h.setQueue thread (hsound.atHead i) ((hprotects.atHead i).close hoccupied hdone) rfl
        fun _ => rfl
    · have hstate : s.getNextTask thread = { s with
          sched := s.sched.setQueue thread
            (((s.sched.threadQueueList thread).atHead i).setJobStatus i .running) } := by
        simp [WakeState.getNextTask, hnext, hdone, ThreadQueue.atHead]
      have hrunning := (hprotects.atHead i).setJobStatus i fun _ _ => .inr rfl
      rw [hstate]
      exact h.keepQueue thread ((hsound.atHead i).setJobStatus i .running) (hopen ▸ hrunning) rfl
        fun address => ThreadQueue.holdsTask_setJobStatus _ i .running address

theorem Attended.markTaskAsComplete (h : s.Attended) {thread : Fin n}
    (ht : wakeStep s (.markTaskAsComplete thread) = some t) : t.Attended := by
  simp only [wakeStep] at ht
  split_ifs at ht with hclosing
  cases ht
  obtain ⟨job, hoccupied, _⟩ := (h.guarded.queues thread).head hclosing
  have hslot : (s.sched.threadQueueList thread).jobSlotDone
      (s.sched.threadQueueList thread).head = false := by
    by_contra hfree
    simp [ThreadQueue.occupied, hfree] at hoccupied
  have hjob : (s.sched.threadQueueList thread).jobQueue
      (s.sched.threadQueueList thread).head = some job := by
    simpa [ThreadQueue.occupied, hslot] using hoccupied
  have haccounted := h.accounted.complete thread job hslot hjob
  have hguarded := h.guarded.setQueue thread (h.guarded.queues thread).markTaskAsComplete
  refine .of_unseen ?_ ⟨hguarded.pool, hguarded.queues⟩ h.idle
  simpa [SchedState.complete, hjob] using haccounted

theorem Attended.startReturns (h : s.Attended) {thread : Fin n} {slot : Fin queueSize}
    {status : JobStatus} (ht : wakeStep s (.startReturns thread slot status) = some t) :
    t.Attended := by
  obtain ⟨sched, hsched, rfl⟩ := Option.map_eq_some_iff.mp ht
  simp only [SchedState.schedStep] at hsched
  split_ifs at hsched with hrunning
  cases hsched
  have hstatus : ∀ job, (s.sched.threadQueueList thread).occupied slot = some job →
      job.isJobStatusSet .running = true ∨ status = .running := by
    intro job hjob
    rw [hjob, Option.any_some] at hrunning
    exact .inl hrunning
  exact h.keepQueue thread ((h.accounted.queues thread).setJobStatus slot status)
    ((h.guarded.queues thread).setJobStatus slot hstatus) rfl fun address =>
      ThreadQueue.holdsTask_setJobStatus _ slot status address

/-- After a signal the scheduler thread does not wait. -/
theorem SchedPhase.signal_ne_waiting (phase : SchedPhase) : phase.signal ≠ .waiting := by
  cases phase <;> nofun

theorem SchedPhase.signal_eq_served {phase : SchedPhase} (h : phase.signal = .served) :
    phase = .served := by
  cases phase <;> first | rfl | cases h

theorem Attended.step {e : WakeEvent n} (h : s.Attended) (hG : s.SignalsWait e)
    (ht : wakeStep s e = some t) : t.Attended := by
  cases e with
  | pushTask newProc args priority starveCounter => exact h.pushTask ht
  | getNextTask thread => exact h.getNextTask ht
  | markTaskAsComplete thread => exact h.markTaskAsComplete ht
  | startReturns thread slot status => exact h.startReturns ht
  | signalSeen =>
    simp only [wakeStep] at ht
    split_ifs at ht
    cases ht
    exact ⟨h.accounted, h.guarded, h.idle,
      fun hphase => h.served (SchedPhase.signal_eq_served hphase),
      fun hphase => absurd hphase (SchedPhase.signal_ne_waiting _)⟩
  | signalUnseen =>
    simp only [wakeStep] at ht
    split_ifs at ht
    cases ht
    exact ⟨h.accounted, h.guarded, h.idle,
      fun hphase => absurd (SchedPhase.signal_eq_served hphase) (hG rfl),
      fun hphase => absurd hphase (SchedPhase.signal_ne_waiting _)⟩
  | loopBody fuel =>
    simp only [wakeStep] at ht
    split_ifs at ht
    obtain ⟨sched, hsched, rfl⟩ := Option.map_eq_some_iff.mp ht
    obtain ⟨haccounted, hidle, hserved⟩ := SchedState.loopBody_spec h.accounted h.idle hsched
    exact ⟨haccounted, h.guarded.loopBody h.accounted h.idle hsched, hidle, fun _ _ => hserved,
      nofun⟩
  | enterWait =>
    simp only [wakeStep] at ht
    split_ifs at ht with hphase
    cases ht
    exact ⟨h.accounted, h.guarded, h.idle, nofun, fun _ _ hunseen => h.served hphase hunseen⟩

/-- In every run in which no signal of a later change reaches the scheduler thread
between its loop body and its wait, no wake-up is lost. -/
theorem noLostWakeUp_of_signalsWait (jobQueues : Fin n → Fin queueSize → Option QueueJob)
    {events : List (WakeEvent n)} (hG : Guarded wakeStep SignalsWait (start jobQueues) events)
    (h : exec wakeStep (start jobQueues) events = some s) : s.NoLostWakeUp :=
  (hG.invariant (fun _ _ _ hs hG ht => hs.step hG ht) (attended_start jobQueues) h).waiting

/-- The push of a task, as `init_receiver` makes it. -/
def receiverTask : WakeEvent n :=
  .pushTask ⟨1, true, false, true, true⟩ (some ()) .nonPreemtable 0

/-- The signal of the task finds the scheduler thread waiting. -/
def signalled : List (WakeEvent 1) :=
  [.loopBody 2, receiverTask, .enterWait] ++ [.signalUnseen, .loopBody 2, .enterWait]

theorem noLostWakeUp_signalled :
    ∃ s, exec wakeStep (start fun _ _ => none) signalled = some s ∧ s.NoLostWakeUp := by
  have hrun : (exec wakeStep (start fun _ _ => none) signalled).isSome = true := by decide
  have hwaiting : (exec wakeStep (start fun _ _ => none)
      [.loopBody 2, receiverTask, .enterWait]).map (fun s : WakeState 1 => s.phase) =
        some .waiting := by decide
  obtain ⟨s, hs⟩ := Option.isSome_iff_exists.mp hrun
  refine ⟨s, hs, noLostWakeUp_of_signalsWait _ (.append ?_ fun t ht => ?_) hs⟩
  · exact ⟨nofun, fun _ _ => ⟨nofun, fun _ _ => ⟨nofun, fun _ _ => trivial⟩⟩⟩
  · rw [ht, Option.map_some, Option.some.injEq] at hwaiting
    refine ⟨fun _ hserved => ?_, fun _ _ => ⟨nofun, fun _ _ => ⟨nofun, fun _ _ => trivial⟩⟩⟩
    rw [hwaiting] at hserved
    cases hserved

/-- The signal of the task comes before the wait. -/
def signalledTooSoon : List (WakeEvent 1) :=
  [.loopBody 2, receiverTask, .signalUnseen, .enterWait]

theorem not_noLostWakeUp_signalledTooSoon :
    ∃ s, exec wakeStep (start fun _ _ => none) signalledTooSoon = some s ∧ ¬ s.NoLostWakeUp := by
  have hrun : (exec wakeStep (start fun _ _ => none) signalledTooSoon).map (fun s =>
      (s.phase, s.seen, s.unseen, s.sched.taskPool.length,
        (s.sched.threadQueueList 0).totalJobsInQueue)) = some (.waiting, 0, 0, 1, 0) := by decide
  obtain ⟨s, hs, hobserved⟩ := Option.map_eq_some_iff.mp hrun
  simp only [Prod.mk.injEq] at hobserved
  obtain ⟨hphase, hseen, hunseen, hpool, htotal⟩ := hobserved
  refine ⟨s, hs, fun hlaw => ?_⟩
  rcases hlaw hphase hseen hunseen with hempty | hfull
  · simp [hempty] at hpool
  · rw [hfull 0] at htotal
    cases htotal

end WakeState

end WorkerUnit
