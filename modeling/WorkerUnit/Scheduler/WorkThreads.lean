import WorkerUnit.Scheduler.LoopBodyFrame
import WorkerUnit.Scheduler.WakeUp

/-!
# The jobs that the task threads run

The scheduler thread with its wait, and the task threads, each of which runs one job at a
time: it fetches none while `start_proc` has not returned for the last time. A fetch sets
the job running in the same step; `FetchedJobs` makes two of it. What the callbacks push
is an event of its own.
-/

namespace WorkerUnit

open StepSystem

variable {n : ℕ}

namespace WakeState

variable {s t : WakeState n} {e : WakeEvent n}

/-- What holds wherever the scheduler thread stands, and whatever signals are lost. -/
structure Steady (s : WakeState n) : Prop where
  accounted : s.sched.Accounted
  guarded : s.sched.Protected s.closing
  idle : s.sched.stage = .idle

/-- At the head of its loop the scheduler thread has no wake-up to lose. -/
theorem Steady.attended (h : s.Steady) : Attended { s with phase := .looping } :=
  ⟨h.accounted, h.guarded, h.idle, by simp, by simp⟩

theorem Attended.steady (h : s.Attended) : s.Steady := ⟨h.accounted, h.guarded, h.idle⟩

/-- The phase matters to the scheduler thread only. -/
theorem wakeStep_looping (hloop : ∀ fuel, e ≠ .loopBody fuel) (hwait : e ≠ .enterWait) :
    wakeStep { s with phase := .looping } e =
      (wakeStep s e).map fun t => { t with phase := .looping } := by
  cases e with
  | pushTask newProc args priority starveCounter =>
    simp only [wakeStep]
    split <;> rfl
  | getNextTask thread =>
    simp only [wakeStep, WakeState.getNextTask]
    split_ifs
    · rfl
    · split
      · rfl
      · split_ifs <;> rfl
  | markTaskAsComplete thread =>
    simp only [wakeStep]
    split_ifs <;> rfl
  | startReturns thread slot status =>
    simp only [wakeStep, Option.map_map]
    rfl
  | signalSeen =>
    simp only [wakeStep]
    split_ifs <;> rfl
  | signalUnseen =>
    simp only [wakeStep]
    split_ifs <;> rfl
  | loopBody fuel => exact absurd rfl (hloop fuel)
  | enterWait => exact absurd rfl hwait

theorem Steady.step (h : s.Steady) (ht : wakeStep s e = some t) : t.Steady := by
  have hother : (∀ fuel, e ≠ .loopBody fuel) → e ≠ .enterWait → t.Steady := by
    intro hloop hwait
    have hstep := wakeStep_looping (s := s) hloop hwait
    rw [ht, Option.map_some] at hstep
    have hattended := h.attended.step (fun _ => by simp) hstep
    exact ⟨hattended.accounted, hattended.guarded, hattended.idle⟩
  cases e with
  | loopBody fuel =>
    simp only [wakeStep] at ht
    split_ifs at ht
    obtain ⟨sched, hsched, rfl⟩ := Option.map_eq_some_iff.mp ht
    obtain ⟨haccounted, hidle, _⟩ := SchedState.loopBody_spec h.accounted h.idle hsched
    exact ⟨haccounted, h.guarded.loopBody h.accounted h.idle hsched, hidle⟩
  | enterWait =>
    simp only [wakeStep] at ht
    split_ifs at ht
    cases ht
    exact ⟨h.accounted, h.guarded, h.idle⟩
  | pushTask newProc args priority starveCounter => exact hother (by simp) (by simp)
  | getNextTask thread => exact hother (by simp) (by simp)
  | markTaskAsComplete thread => exact hother (by simp) (by simp)
  | startReturns thread slot status => exact hother (by simp) (by simp)
  | signalSeen => exact hother (by simp) (by simp)
  | signalUnseen => exact hother (by simp) (by simp)

end WakeState

/-- The scheduler thread and the task threads, and the slot of the job that each of the task
threads runs. -/
structure WorkState (n : ℕ) where
  wake : WakeState n
  starting : Fin n → Option (Fin queueSize)

namespace WorkState

open WakeState

def start (jobQueues : Fin n → Fin queueSize → Option QueueJob) : WorkState n :=
  ⟨.start jobQueues, fun _ => none⟩

/-- The slot of the job that is fetched, when it is not done. -/
def fetched (q : ThreadQueue) : Option (Fin queueSize) :=
  match q.getNextTask with
  | (some job, queue) => if job.isJobStatusSet .done then none else some queue.head
  | (none, _) => none

/-- `start_proc` is called again while the job is pending, as no timer makes it pause. -/
def startsAgain (q : ThreadQueue) (slot : Fin queueSize) : Bool :=
  (q.occupied slot).any fun job => job.isJobStatusSet .pending && !job.isJobStatusSet .done

/-- A thread fetches no job while it runs one, and `start_proc` returns for that job only. -/
def workStep (s : WorkState n) (e : WakeEvent n) : Option (WorkState n) :=
  match e with
  | .getNextTask thread =>
    if s.starting thread = none then
      (wakeStep s.wake e).map fun wake =>
        ⟨wake, Function.update s.starting thread
          (fetched (s.wake.sched.threadQueueList thread))⟩
    else none
  | .startReturns thread slot _ =>
    if s.starting thread = some slot then
      (wakeStep s.wake e).map fun wake =>
        ⟨wake, if startsAgain (wake.sched.threadQueueList thread) slot then s.starting
          else Function.update s.starting thread none⟩
    else none
  | _ => (wakeStep s.wake e).map fun wake => { s with wake := wake }

variable {s t : WorkState n} {e : WakeEvent n}

/-- The steps are steps of the threads that `wakeStep` describes. -/
theorem wakeStep_of_workStep (h : workStep s e = some t) :
    wakeStep s.wake e = some t.wake := by
  unfold workStep at h
  split at h
  · split_ifs at h
    obtain ⟨wake, hwake, rfl⟩ := Option.map_eq_some_iff.mp h
    exact hwake
  · split_ifs at h
    obtain ⟨wake, hwake, rfl⟩ := Option.map_eq_some_iff.mp h
    exact hwake
  · obtain ⟨wake, hwake, rfl⟩ := Option.map_eq_some_iff.mp h
    exact hwake

/-- The job in the slot is run by the thread. -/
def Runs (queue : ThreadQueue) (slot : Fin queueSize) : Prop :=
  ∃ job, queue.occupied slot = some job ∧ job.isJobStatusSet .running = true ∧
    job.isJobStatusSet .done = false

/-- A thread runs a job that is not done and completes none meanwhile. -/
structure Working (s : WorkState n) : Prop where
  steady : s.wake.Steady
  runs : ∀ i slot, s.starting i = some slot →
    s.wake.closing i = false ∧ Runs (s.wake.sched.threadQueueList i) slot

theorem working_start (jobQueues : Fin n → Fin queueSize → Option QueueJob) :
    (start jobQueues).Working :=
  ⟨(attended_start jobQueues).steady, by simp [start]⟩

/-- What a thread that fetches finds: nothing, a job that is done, or one to run. -/
theorem getNextTask_cases (h : s.wake.Steady) {thread : Fin n}
    (ht : workStep s (.getNextTask thread) = some t) :
    s.starting thread = none ∧ s.wake.closing thread = false ∧ ∃ k,
      t = ⟨{ s.wake with
          sched := s.wake.sched.setQueue thread ((s.wake.sched.threadQueueList thread).atHead k) },
        s.starting⟩ ∨
      ∃ job, (s.wake.sched.threadQueueList thread).occupied k = some job ∧
        ((job.isJobStatusSet .done = true ∧
          t = ⟨{ s.wake with
              sched := s.wake.sched.setQueue thread
                ((s.wake.sched.threadQueueList thread).atHead k)
              closing := Function.update s.wake.closing thread true }, s.starting⟩) ∨
        (job.isJobStatusSet .done = false ∧
          t = ⟨{ s.wake with
              sched := s.wake.sched.setQueue thread
                (((s.wake.sched.threadQueueList thread).atHead k).setJobStatus k .running) },
            Function.update s.starting thread (some k)⟩)) := by
  simp only [workStep] at ht
  split_ifs at ht with hstarting
  obtain ⟨wake, hwake, rfl⟩ := Option.map_eq_some_iff.mp ht
  simp only [wakeStep] at hwake
  split_ifs at hwake with hclosing
  cases hwake
  have hsame : Function.update s.starting thread none = s.starting := by
    rw [← hstarting, Function.update_eq_self]
  refine ⟨hstarting, by simpa using hclosing, ?_⟩
  obtain ⟨k, hnext | ⟨job, hslot, hjob, hnext⟩⟩ :=
    (h.accounted.queues thread).getNextTask_cases
  · refine ⟨k, .inl ?_⟩
    simp [WakeState.getNextTask, fetched, hnext, hsame]
  · refine ⟨k, .inr ⟨job, ThreadQueue.occupied_eq_some.mpr ⟨hslot, hjob⟩, ?_⟩⟩
    cases hdone : job.isJobStatusSet .done with
    | true => simp [WakeState.getNextTask, fetched, hnext, hdone, hsame]
    | false => simp [WakeState.getNextTask, fetched, hnext, hdone, ThreadQueue.atHead]

/-- A thread at which nothing changes. -/
theorem Working.other (h : s.Working) {i thread : Fin n} (hi : i ≠ thread)
    {queue : ThreadQueue} {slot : Fin queueSize} (hslot : s.starting i = some slot) (c : Bool) :
    Function.update s.wake.closing thread c i = false ∧
      Runs ((s.wake.sched.setQueue thread queue).threadQueueList i) slot := by
  obtain ⟨hclosing, hruns⟩ := h.runs i slot hslot
  simpa [SchedState.setQueue, hi, hclosing] using hruns

theorem Working.getNextTask (h : s.Working) {thread : Fin n}
    (ht : workStep s (.getNextTask thread) = some t) : t.Working := by
  refine ⟨h.steady.step (wakeStep_of_workStep ht), ?_⟩
  intro i slot hslot
  obtain ⟨hstarting, hclosing, k, rfl | ⟨job, hjob, ⟨_, rfl⟩ | ⟨hdone, rfl⟩⟩⟩ :=
    getNextTask_cases h.steady ht
  · obtain ⟨hopen, hruns⟩ := h.runs i slot hslot
    have hi : i ≠ thread := by
      rintro rfl
      cases hstarting.symm.trans hslot
    exact ⟨hopen, (h.other hi hslot false).2⟩
  · have hi : i ≠ thread := by
      rintro rfl
      cases hstarting.symm.trans hslot
    exact h.other hi hslot true
  · by_cases hi : i = thread
    · subst hi
      simp only [Function.update_self, Option.some.injEq] at hslot
      subst hslot
      refine ⟨hclosing, job.setJobStatus .running, ?_, by simp, by simp [hdone]⟩
      have hhead : ((s.wake.sched.threadQueueList i).atHead k).occupied k = some job := hjob
      simp [SchedState.setQueue, ThreadQueue.occupied_setJobStatus, hhead]
    · simp only [Function.update_of_ne hi] at hslot
      exact ⟨(h.runs i slot hslot).1, (h.other hi hslot false).2⟩

/-- `start_proc` returns for the job that the thread runs. -/
theorem startReturns_cases {thread : Fin n} {slot : Fin queueSize} {status : JobStatus}
    (ht : workStep s (.startReturns thread slot status) = some t) :
    s.starting thread = some slot ∧
      t.wake = { s.wake with
        sched := s.wake.sched.setQueue thread
          ((s.wake.sched.threadQueueList thread).setJobStatus slot status) } ∧
      t.starting = if startsAgain (t.wake.sched.threadQueueList thread) slot then s.starting
        else Function.update s.starting thread none := by
  simp only [workStep] at ht
  split_ifs at ht with hstarting
  obtain ⟨wake, hwake, rfl⟩ := Option.map_eq_some_iff.mp ht
  obtain ⟨sched, hsched, rfl⟩ := Option.map_eq_some_iff.mp hwake
  simp only [SchedState.schedStep] at hsched
  split_ifs at hsched
  cases hsched
  exact ⟨hstarting, rfl, rfl⟩

theorem Working.startReturns (h : s.Working) {thread : Fin n} {slot : Fin queueSize}
    {status : JobStatus} (ht : workStep s (.startReturns thread slot status) = some t) :
    t.Working := by
  refine ⟨h.steady.step (wakeStep_of_workStep ht), ?_⟩
  obtain ⟨hstarting, hwake, hnext⟩ := startReturns_cases ht
  intro i other hother
  by_cases hi : i = thread
  · subst hi
    by_cases hagain : startsAgain (t.wake.sched.threadQueueList i) slot = true
    · rw [hnext, if_pos hagain, hstarting, Option.some.injEq] at hother
      subst hother
      obtain ⟨hopen, job, hjob, hrunning, _⟩ := h.runs i slot hstarting
      have hset : (t.wake.sched.threadQueueList i).occupied slot =
          some (job.setJobStatus status) := by
        simp [hwake, SchedState.setQueue, ThreadQueue.occupied_setJobStatus, hjob]
      rw [startsAgain, hset, Option.any_some, Bool.and_eq_true, Bool.not_eq_true'] at hagain
      exact ⟨by rw [hwake]; exact hopen, job.setJobStatus status, hset, by simp [hrunning],
        hagain.2⟩
    · rw [hnext, if_neg hagain, Function.update_self] at hother
      cases hother
  · have hslot : s.starting i = some other := by
      rw [hnext] at hother
      split_ifs at hother
      · exact hother
      · rwa [Function.update_of_ne hi] at hother
    rw [hwake]
    exact ⟨(h.runs i other hslot).1, (h.other hi hslot false).2⟩

/-- A job that is completed is one that the thread closes; it is still to be signalled. -/
theorem markTaskAsComplete_cases {thread : Fin n}
    (ht : workStep s (.markTaskAsComplete thread) = some t) :
    s.wake.closing thread = true ∧
      t = ⟨{ s.wake with
        sched := s.wake.sched.complete thread
        closing := Function.update s.wake.closing thread false
        unseen := s.wake.unseen + 1 }, s.starting⟩ := by
  obtain ⟨wake, hwake, rfl⟩ := Option.map_eq_some_iff.mp ht
  simp only [wakeStep] at hwake
  split_ifs at hwake with hclosing
  cases hwake
  exact ⟨hclosing, rfl⟩

theorem loopBody_cases {fuel : ℕ} (ht : workStep s (.loopBody fuel) = some t) :
    s.wake.phase = .looping ∧ ∃ sched, s.wake.sched.loopBody fuel = some sched ∧
      t = ⟨{ s.wake with
        sched := sched, phase := .served, seen := s.wake.seen + s.wake.unseen, unseen := 0 },
        s.starting⟩ := by
  obtain ⟨wake, hwake, rfl⟩ := Option.map_eq_some_iff.mp ht
  simp only [wakeStep] at hwake
  split_ifs at hwake with hphase
  obtain ⟨sched, hsched, rfl⟩ := Option.map_eq_some_iff.mp hwake
  exact ⟨hphase, sched, hsched, rfl⟩

/-- Signals and the wait touch neither the tasks nor the threads. -/
theorem signal_cases (he : e = .signalSeen ∨ e = .signalUnseen ∨ e = .enterWait)
    (ht : workStep s e = some t) :
    ∃ phase seen unseen,
      t = ⟨{ s.wake with phase := phase, seen := seen, unseen := unseen }, s.starting⟩ := by
  rcases he with rfl | rfl | rfl
  all_goals
    obtain ⟨wake, hwake, rfl⟩ := Option.map_eq_some_iff.mp ht
    simp only [wakeStep] at hwake
    split_ifs at hwake
    cases hwake
    exact ⟨_, _, _, rfl⟩

theorem Working.signal (h : s.Working) (he : e = .signalSeen ∨ e = .signalUnseen ∨ e = .enterWait)
    (ht : workStep s e = some t) : t.Working := by
  have hsteady := h.steady.step (wakeStep_of_workStep ht)
  obtain ⟨phase, seen, unseen, rfl⟩ := signal_cases he ht
  exact ⟨hsteady, h.runs⟩

theorem Working.step (h : s.Working) (ht : workStep s e = some t) : t.Working := by
  have hsteady := h.steady.step (wakeStep_of_workStep ht)
  cases e with
  | getNextTask thread => exact h.getNextTask ht
  | startReturns thread slot status => exact h.startReturns ht
  | pushTask newProc args priority starveCounter =>
    obtain ⟨wake, hwake, rfl⟩ := Option.map_eq_some_iff.mp ht
    simp only [wakeStep] at hwake
    split at hwake
    · cases hwake
      exact h
    · cases hwake
      exact ⟨hsteady, h.runs⟩
  | markTaskAsComplete thread =>
    obtain ⟨hclosing, rfl⟩ := markTaskAsComplete_cases ht
    refine ⟨hsteady, fun i slot hslot => ?_⟩
    have hi : i ≠ thread := by
      rintro rfl
      rw [(h.runs i slot hslot).1] at hclosing
      cases hclosing
    exact h.other hi hslot false
  | signalSeen => exact h.signal (.inl rfl) ht
  | signalUnseen => exact h.signal (.inr (.inl rfl)) ht
  | loopBody fuel =>
    obtain ⟨_, sched, hsched, rfl⟩ := loopBody_cases ht
    refine ⟨hsteady, fun i slot hslot => ?_⟩
    obtain ⟨hopen, job, hjob, hrunning, hdone⟩ := h.runs i slot hslot
    exact ⟨hopen, job, SchedState.occupied_loopBody h.steady.accounted h.steady.idle hjob hrunning
      hsched, hrunning, hdone⟩
  | enterWait => exact h.signal (.inr (.inr rfl)) ht

theorem working_of_exec {jobQueues : Fin n → Fin queueSize → Option QueueJob}
    {events : List (WakeEvent n)} (h : exec workStep (start jobQueues) events = some s) :
    s.Working :=
  exec_invariant (fun _ _ _ hs ht => hs.step ht) (working_start jobQueues) h

end WorkState

end WorkerUnit
