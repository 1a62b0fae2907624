import WorkerUnit.Scheduler.ThreadTask

/-!
# The time slice of a dispatch

A dispatch of a job whose priority has a time slice is meant to end when the slice
has run out. The job never carries its slice, so that no timer thread exists, and
the timer thread would clear the flag that it should set. Here the expiry is an
event that may happen at any point of a dispatch, with whatever effect the code
gives it.
-/

namespace WorkerUnit.ThreadTask

open StepSystem

/-- A job on its task thread; `sinceExpiry` collects the calls of the current
dispatch from the expiry of its slice on. -/
structure TimedRun where
  run : JobRun
  sinceExpiry : Option (List Call)
  deriving DecidableEq, Repr

def TimedRun.start (job : QueueJob) : TimedRun := ⟨.start job, none⟩

/-- The job is in a dispatch. -/
def JobRun.Dispatched (r : JobRun) : Prop :=
  match r.stage with
  | .looping _ | .running _ => True
  | .queued | .freed => False

instance (r : JobRun) : Decidable r.Dispatched := by
  unfold JobRun.Dispatched
  cases r.stage <;> exact inferInstance

/-- `thread_task` with the expiry of the slice that the priority stands for, once in
a dispatch; without a timer thread nothing happens at that moment. -/
def timedTask (results : ℕ → JobStatus) (s : TimedRun) : Event → Option TimedRun
  | .timerExpires =>
    if s.run.Dispatched ∧ s.sinceExpiry = none ∧
        calculatePriorityTimeslice s.run.job.processTable.priority ≠ 0 then
      some ⟨(threadTask results s.run .timerExpires).getD s.run, some []⟩
    else none
  | .dispatch => (threadTask results s.run .dispatch).map fun run => ⟨run, none⟩
  | e => (threadTask results s.run e).map fun run =>
      ⟨run, s.sinceExpiry.map fun calls => calls ++ run.calls.drop s.run.calls.length⟩

/-- What the expiry of the slice promises. -/
structure PreemptionLaw (s : TimedRun) : Prop where
  stops : ∀ calls, s.sinceExpiry = some calls → .startProc ∉ calls
  ends : ∀ calls status, s.sinceExpiry = some calls → .returns status ∈ calls →
    s.run.stage = .queued
  pauses : ∀ calls status, s.sinceExpiry = some calls → .returns status ∈ calls →
    s.run.job.isJobStatusSet .pending = true → s.run.job.isJobStatusSet .done = false →
      s.run.job.isJobStatusSet .failed = false → calls.count .pauseProc = 1
  neverPaused : s.run.job.processTable.priority = .nonPreemtable → .pauseProc ∉ s.run.calls

variable {results : ℕ → JobStatus}

/-- A job without a slice is not paused. -/
structure Unpaused (r : JobRun) : Prop where
  noSlice : r.job.getCpuTimeSlice = 0
  calls : .pauseProc ∉ r.calls

theorem unpaused_start {job : QueueJob} (hslice : job.getCpuTimeSlice = 0) :
    Unpaused (.start job) where
  noSlice := hslice
  calls := by simp [JobRun.start]

theorem Unpaused.step {r t : JobRun} {e : Event} (h : Unpaused r)
    (ht : threadTask results r e = some t) : Unpaused t := by
  obtain ⟨hslice, hcalls⟩ := h
  rcases threadTask_cases ht with ⟨-, -, ⟨-, rfl⟩ | ⟨-, rfl⟩⟩ |
    ⟨timer, -, -, ⟨-, rfl⟩ | ⟨-, rfl⟩⟩ | ⟨timer, -, -, rfl⟩ |
    ⟨timer, -, -, ⟨-, rfl⟩ | ⟨-, rfl⟩⟩
  · refine ⟨hslice, ?_⟩
    cases herror : r.job.jobErrorHandle <;> simp [JobRun.close, hcalls, herror]
  · exact ⟨hslice, by simp [JobRun.begin, hcalls]⟩
  · exact ⟨hslice, hcalls⟩
  · exact ⟨hslice, by simp [hcalls]⟩
  · rcases JobRun.afterStart_of_noSlice timer (results r.returned) hslice with
      ⟨-, hafter⟩ | ⟨-, hafter⟩
    · rw [hafter]
      exact ⟨hslice, by simp [hcalls]⟩
    · rw [hafter]
      exact ⟨hslice, by simp [hcalls]⟩
  · exact ⟨hslice, hcalls⟩
  · exact ⟨hslice, hcalls⟩

theorem threadTask_priority {r t : JobRun} {e : Event} (ht : threadTask results r e = some t) :
    t.job.processTable.priority = r.job.processTable.priority := by
  rcases threadTask_cases ht with ⟨-, -, ⟨-, rfl⟩ | ⟨-, rfl⟩⟩ |
    ⟨timer, -, -, ⟨-, rfl⟩ | ⟨-, rfl⟩⟩ | ⟨timer, -, -, rfl⟩ |
    ⟨timer, -, -, ⟨-, rfl⟩ | ⟨-, rfl⟩⟩
  · rfl
  · rfl
  · rfl
  · rfl
  · unfold JobRun.afterStart
    dsimp only
    split_ifs <;> rfl
  · rfl
  · rfl

/-- A job that may not be preempted has no slice to run out. -/
structure NonPreemptable (s : TimedRun) : Prop where
  priority : s.run.job.processTable.priority = .nonPreemtable
  unexpired : s.sinceExpiry = none
  unpaused : Unpaused s.run

theorem NonPreemptable.step {s t : TimedRun} {e : Event} (h : NonPreemptable s)
    (ht : timedTask results s e = some t) : NonPreemptable t := by
  cases e with
  | timerExpires => simp [timedTask, h.priority, calculatePriorityTimeslice] at ht
  | dispatch =>
    obtain ⟨run, hrun, rfl⟩ := Option.map_eq_some_iff.mp ht
    exact ⟨(threadTask_priority hrun).trans h.priority, rfl, h.unpaused.step hrun⟩
  | iterate =>
    obtain ⟨run, hrun, rfl⟩ := Option.map_eq_some_iff.mp ht
    exact ⟨(threadTask_priority hrun).trans h.priority, by simp [h.unexpired],
      h.unpaused.step hrun⟩
  | startReturns =>
    obtain ⟨run, hrun, rfl⟩ := Option.map_eq_some_iff.mp ht
    exact ⟨(threadTask_priority hrun).trans h.priority, by simp [h.unexpired],
      h.unpaused.step hrun⟩

theorem NonPreemptable.law {s : TimedRun} (h : NonPreemptable s) : PreemptionLaw s where
  stops := by simp [h.unexpired]
  ends := by simp [h.unexpired]
  pauses := by simp [h.unexpired]
  neverPaused := fun _ => h.unpaused.calls

/-- The slice runs out before the first call, and the call is made all the same. -/
theorem exists_not_preemptionLaw (results : ℕ → JobStatus) {job : QueueJob} (hjob : job.Fresh)
    (hslice : job.getCpuTimeSlice = 0) (hpriority : job.processTable.priority ≠ .nonPreemtable) :
    ∃ s, exec (timedTask results) (.start job) [.dispatch, .timerExpires, .iterate] = some s ∧
      ¬ PreemptionLaw s := by
  have hallotted : calculatePriorityTimeslice job.processTable.priority ≠ 0 := by
    intro hzero
    apply hpriority
    cases hp : job.processTable.priority <;> simp [hp, calculatePriorityTimeslice] at hzero ⊢
  let dispatched : JobRun := (JobRun.start job).begin
  have hdispatch : timedTask results (.start job) .dispatch = some ⟨dispatched, none⟩ := by
    simp [timedTask, threadTask, TimedRun.start, JobRun.start, hjob.isJobStatusSet, dispatched]
  have hexpires : timedTask results ⟨dispatched, none⟩ .timerExpires =
      some ⟨dispatched, some []⟩ := by
    have hnoThread : threadTask results dispatched .timerExpires = none := by
      simp [threadTask, dispatched, JobRun.start, JobRun.begin, initTimer, hslice]
    have hin : dispatched.Dispatched := trivial
    have hpriority : dispatched.job.processTable.priority = job.processTable.priority := rfl
    simp [timedTask, hnoThread, hin, hpriority, hallotted]
  refine ⟨_, exec_snoc (exec_snoc (exec_snoc (exec_nil _ _) hdispatch) hexpires) rfl, fun law => ?_⟩
  exact law.stops _ rfl (by simp [dispatched, JobRun.begin, JobRun.start])

/-- The expiry of the slice ends every dispatch as promised exactly for the jobs that
may not be preempted. -/
theorem preemptionLaw_iff (procTable : ProcessTable) (hstatus : procTable.jobStatus = 0)
    (job : QueueJob) (hjob : initJob procTable = some job) (results : ℕ → JobStatus) :
    (∀ events s, exec (timedTask results) (.start job) events = some s → PreemptionLaw s) ↔
      procTable.priority = .nonPreemtable := by
  obtain rfl := initJob_eq_some hjob
  constructor
  · intro law
    by_contra hpriority
    have hfresh : (QueueJob.new procTable).Fresh := ⟨hstatus, rfl⟩
    obtain ⟨s, hs, hbad⟩ := exists_not_preemptionLaw results hfresh rfl hpriority
    exact hbad (law _ s hs)
  · intro hpriority events s hs
    have hstart : NonPreemptable (.start (.new procTable)) := ⟨hpriority, rfl, unpaused_start rfl⟩
    exact (exec_invariant (fun _ _ _ h ht => h.step ht) hstart hs).law

theorem preemptionLaw_receiverJob :
    ∃ s, exec (timedTask fun _ => .pending) (.start receiverJob)
        [.dispatch, .iterate, .startReturns, .iterate] = some s ∧ PreemptionLaw s := by
  have hrun : (exec (timedTask fun _ => .pending) (.start receiverJob)
      [.dispatch, .iterate, .startReturns, .iterate]).isSome = true := by decide
  obtain ⟨s, hs⟩ := Option.isSome_iff_exists.mp hrun
  exact ⟨s, hs, (preemptionLaw_iff receiverJob.processTable rfl receiverJob rfl
    fun _ => .pending).mpr rfl _ s hs⟩

/-- A compute job of high priority, whose slice runs out in a call that returns
`JOB_PENDING`, is not paused but started again in the same dispatch. -/
theorem not_preemptionLaw_highPriority :
    ¬ ∀ events s, exec (timedTask fun _ => .pending)
      (.start (.new (.registered 0 ⟨4, true, true, true, true⟩ .highPriority))) events = some s →
        PreemptionLaw s := by
  intro law
  have hrun : (exec (timedTask fun _ => .pending)
      (.start (.new (.registered 0 ⟨4, true, true, true, true⟩ .highPriority)))
      [.dispatch, .iterate, .timerExpires, .startReturns, .iterate]).map TimedRun.sinceExpiry =
        some (some [.returns .pending, .startProc]) := by decide
  obtain ⟨s, hs, hcalls⟩ := Option.map_eq_some_iff.mp hrun
  exact (law _ s hs).stops _ hcalls (by decide)

end WorkerUnit.ThreadTask
