import WorkerUnit.Library.StepSystem
import WorkerUnit.Scheduler.Job

/-!
# The life of one job on a task thread

`thread_task` seen from one job: the worker fetches it, loops over its
`start_proc`, leaves the loop, and on a later fetch runs one of the two closing
callbacks. The values that `start_proc` returns are a stream `results`; the
expiry of the dispatch's timer is an event of its own. `calls` records
everything the worker does with the job, in order.
-/

namespace WorkerUnit.ThreadTask

open StepSystem

/-- One entry of the record of a job. -/
inductive Call where
  | dispatch
  | startProc
  | returns (status : JobStatus)
  | pauseProc
  | endProc
  | failProc
  | unregister
  | markComplete
  deriving DecidableEq, Repr

structure JobTimer where
  allowedCpuSlice : ℕ
  jobShouldPause : Bool
  deriving DecidableEq, Repr

/-- `init_timer`; a timer thread runs exactly when the slice is not zero. -/
def initTimer (job : QueueJob) : JobTimer := ⟨job.getCpuTimeSlice, false⟩

/-- `start_job_timer`, once the slice has been slept. -/
def startJobTimer (timer : JobTimer) : JobTimer := { timer with jobShouldPause := false }

/-- Where the job stands: in its slot, at the test of the worker's loop, inside
`start_proc`, or with its slot marked complete. -/
inductive Stage where
  | queued
  | looping (timer : JobTimer)
  | running (timer : JobTimer)
  | freed
  deriving DecidableEq, Repr

structure JobRun where
  job : QueueJob
  stage : Stage
  returned : ℕ
  calls : List Call
  deriving DecidableEq, Repr

inductive Event where
  | dispatch
  | iterate
  | startReturns
  | timerExpires
  deriving DecidableEq, Repr

/-- A job in its slot, before the first dispatch. -/
def JobRun.start (job : QueueJob) : JobRun := ⟨job, .queued, 0, []⟩

namespace JobRun

/-- The worker fetches a job that is done: one of the two closing callbacks
runs, then the process is unregistered and the slot is marked complete. -/
def close (r : JobRun) : JobRun :=
  { r with
    job := r.job.setJobStatus .done
    stage := .freed
    calls := r.calls ++ [.dispatch, if r.job.jobErrorHandle then .failProc else .endProc,
      .unregister, .markComplete] }

/-- The worker fetches a job that is not done. -/
def begin (r : JobRun) : JobRun :=
  { r with
    job := r.job.setJobStatus .running
    stage := .looping (initTimer r.job)
    calls := r.calls ++ [.dispatch] }

/-- The loop body after `start_proc` has returned `status`. -/
def afterStart (status : JobStatus) (timer : JobTimer) (r : JobRun) : JobRun :=
  let job := r.job.setJobStatus status
  let calls := r.calls ++ [.returns status]
  if job.isJobStatusSet .pending && !job.isJobStatusSet .done then
    if timer.jobShouldPause && job.getCpuTimeSlice != 0 then
      ⟨job, .queued, r.returned + 1, calls ++ [.pauseProc]⟩
    else ⟨job, .looping timer, r.returned + 1, calls⟩
  else if job.isJobStatusSet .failed then
    ⟨{ job with jobErrorHandle := true }, .queued, r.returned + 1, calls⟩
  else ⟨job, .queued, r.returned + 1, calls⟩

end JobRun

/-- `thread_task`, one event at a time. -/
def threadTask (results : ℕ → JobStatus) (r : JobRun) : Event → Option JobRun
  | .dispatch =>
    match r.stage with
    | .queued => some (if r.job.isJobStatusSet .done then r.close else r.begin)
    | _ => none
  | .iterate =>
    match r.stage with
    | .looping timer =>
      if timer.jobShouldPause then some { r with stage := .queued }
      else some { r with stage := .running timer, calls := r.calls ++ [.startProc] }
    | _ => none
  | .startReturns =>
    match r.stage with
    | .running timer => some (r.afterStart (results r.returned) timer)
    | _ => none
  | .timerExpires =>
    match r.stage with
    | .looping timer =>
      if timer.allowedCpuSlice = 0 then none
      else some { r with stage := .looping (startJobTimer timer) }
    | .running timer =>
      if timer.allowedCpuSlice = 0 then none
      else some { r with stage := .running (startJobTimer timer) }
    | _ => none

/-- Everything an enabled event can do. -/
theorem threadTask_cases {results : ℕ → JobStatus} {r t : JobRun} {e : Event}
    (ht : threadTask results r e = some t) :
    (e = .dispatch ∧ r.stage = .queued ∧
      ((r.job.isJobStatusSet .done = true ∧ t = r.close) ∨
        (r.job.isJobStatusSet .done = false ∧ t = r.begin))) ∨
    (∃ timer, e = .iterate ∧ r.stage = .looping timer ∧
      ((timer.jobShouldPause = true ∧ t = { r with stage := .queued }) ∨
        (timer.jobShouldPause = false ∧
          t = { r with stage := .running timer, calls := r.calls ++ [.startProc] }))) ∨
    (∃ timer, e = .startReturns ∧ r.stage = .running timer ∧
      t = r.afterStart (results r.returned) timer) ∨
    (∃ timer, e = .timerExpires ∧ timer.allowedCpuSlice ≠ 0 ∧
      ((r.stage = .looping timer ∧ t = { r with stage := .looping (startJobTimer timer) }) ∨
        (r.stage = .running timer ∧ t = { r with stage := .running (startJobTimer timer) }))) := by
  cases e with
  | dispatch =>
    simp only [threadTask] at ht
    split at ht
    · rename_i hs
      left
      refine ⟨rfl, hs, ?_⟩
      split_ifs at ht with hdone
      · exact .inl ⟨hdone, (Option.some.inj ht).symm⟩
      · exact .inr ⟨Bool.eq_false_iff.mpr hdone, (Option.some.inj ht).symm⟩
    · cases ht
  | iterate =>
    simp only [threadTask] at ht
    split at ht
    · rename_i timer hs
      right; left
      refine ⟨timer, rfl, hs, ?_⟩
      split_ifs at ht with hpause
      · exact .inl ⟨hpause, (Option.some.inj ht).symm⟩
      · exact .inr ⟨Bool.eq_false_iff.mpr hpause, (Option.some.inj ht).symm⟩
    · cases ht
  | startReturns =>
    simp only [threadTask] at ht
    split at ht
    · rename_i timer hs
      right; right; left
      exact ⟨timer, rfl, hs, (Option.some.inj ht).symm⟩
    · cases ht
  | timerExpires =>
    simp only [threadTask] at ht
    right; right; right
    split at ht
    · rename_i timer hs
      split_ifs at ht with hslice
      exact ⟨timer, rfl, hslice, .inl ⟨hs, (Option.some.inj ht).symm⟩⟩
    · rename_i timer hs
      split_ifs at ht with hslice
      exact ⟨timer, rfl, hslice, .inr ⟨hs, (Option.some.inj ht).symm⟩⟩
    · cases ht

/-- A job without a slice goes on with its loop, or leaves it, and is not paused. -/
theorem JobRun.afterStart_of_noSlice {r : JobRun} (timer : JobTimer) (status : JobStatus)
    (hslice : r.job.getCpuTimeSlice = 0) :
    (((r.job.setJobStatus status).isJobStatusSet .pending = true ∧
        (r.job.setJobStatus status).isJobStatusSet .done = false) ∧
      r.afterStart status timer = ⟨r.job.setJobStatus status, .looping timer, r.returned + 1,
        r.calls ++ [.returns status]⟩) ∨
    (((r.job.setJobStatus status).isJobStatusSet .pending = true →
        (r.job.setJobStatus status).isJobStatusSet .done = true) ∧
      r.afterStart status timer = ⟨{ r.job.setJobStatus status with
          jobErrorHandle := r.job.jobErrorHandle ||
            (r.job.setJobStatus status).isJobStatusSet .failed },
        .queued, r.returned + 1, r.calls ++ [.returns status]⟩) := by
  by_cases hpending : ((r.job.setJobStatus status).isJobStatusSet .pending &&
      !(r.job.setJobStatus status).isJobStatusSet .done) = true
  · left
    rw [Bool.and_eq_true_iff, Bool.not_eq_true'] at hpending
    refine ⟨hpending, ?_⟩
    simp only [afterStart, hpending.1, hpending.2, QueueJob.setJobStatus_getCpuTimeSlice, hslice]
    simp
  · right
    have hleaves : (r.job.setJobStatus status).isJobStatusSet .pending = true →
        (r.job.setJobStatus status).isJobStatusSet .done = true := by
      intro hp
      by_contra hd
      exact hpending (by simp only [hp, Bool.eq_false_iff.mpr hd]; rfl)
    refine ⟨hleaves, ?_⟩
    simp only [afterStart, if_neg hpending]
    cases hfailed : (r.job.setJobStatus status).isJobStatusSet .failed with
    | true => simp
    | false => simp [QueueJob.setJobStatus]

/-- The outcome law of a record: what follows a call that returned
`JOB_FAILED`, or `JOB_DONE` with no earlier failure, is nothing, or one dispatch
that runs the right callback once, unregisters the process and frees the slot. -/
structure OutcomeLaw (calls : List Call) : Prop where
  failed : ∀ before after, calls = before ++ .returns .failed :: after →
    after = [] ∨ after = [.dispatch, .failProc, .unregister, .markComplete]
  done : ∀ before after, calls = before ++ .returns .done :: after →
    .returns .failed ∉ before →
    after = [] ∨ after = [.dispatch, .endProc, .unregister, .markComplete]

/-- No call so far has settled how the job ends. -/
def Undecided (calls : List Call) : Prop :=
  .returns .failed ∉ calls ∧ .returns .done ∉ calls

theorem Undecided.append {calls more : List Call} (h : Undecided calls)
    (hmore : Undecided more) : Undecided (calls ++ more) := by
  simp only [Undecided, List.mem_append, not_or] at *
  exact ⟨⟨h.1, hmore.1⟩, h.2, hmore.2⟩

theorem Undecided.outcomeLaw {calls : List Call} (h : Undecided calls) : OutcomeLaw calls where
  failed := by
    intro before after hc
    exact absurd (by simp [hc]) h.1
  done := by
    intro before after hc _
    exact absurd (by simp [hc]) h.2

theorem outcomeLaw_of_done {before rest : List Call} (h : Undecided before)
    (hrest : rest = [] ∨ rest = [.dispatch, .endProc, .unregister, .markComplete]) :
    OutcomeLaw (before ++ .returns .done :: rest) := by
  have hquiet : Undecided rest := by
    rcases hrest with rfl | rfl <;> simp [Undecided]
  constructor
  · intro pre post hc
    have hmem : Call.returns .failed ∈ before ++ .returns .done :: rest := by simp [hc]
    simp [h.1, hquiet.1] at hmem
  · intro pre post hc _
    have hsplit := (List.append_cons_inj_of_notMem h.2 hquiet.2).mp hc
    rw [← hsplit.2.2]
    exact hrest

section Sufficiency

variable {results : ℕ → JobStatus}

/-- The job has been neither done nor failed so far. -/
structure Pending (results : ℕ → JobStatus) (r : JobRun) : Prop where
  stage : r.stage ≠ .freed
  calls : Undecided r.calls
  notDone : r.job.isJobStatusSet .done = false
  notFailed : r.job.isJobStatusSet .failed = false
  noError : r.job.jobErrorHandle = false
  results : ∀ m < r.returned, results m ≠ .done

/-- The job has returned `JOB_DONE` and waits for its closing dispatch. -/
structure Finished (r : JobRun) : Prop where
  stage : r.stage = .queued
  calls : ∃ before, Undecided before ∧ r.calls = before ++ [.returns .done]
  done : r.job.isJobStatusSet .done = true
  noError : r.job.jobErrorHandle = false

/-- The closing dispatch has run. -/
structure Closed (r : JobRun) : Prop where
  stage : r.stage = .freed
  calls : ∃ before, Undecided before ∧
    r.calls = before ++ [.returns .done, .dispatch, .endProc, .unregister, .markComplete]

/-- The states of a job that never fails before it is done. -/
def Regular (results : ℕ → JobStatus) (r : JobRun) : Prop :=
  Pending results r ∨ Finished r ∨ Closed r

theorem Regular.outcomeLaw {r : JobRun} (h : Regular results r) : OutcomeLaw r.calls := by
  rcases h with h | h | h
  · exact h.calls.outcomeLaw
  · obtain ⟨before, hb, hc⟩ := h.calls
    rw [hc]
    exact outcomeLaw_of_done hb (.inl rfl)
  · obtain ⟨before, hb, hc⟩ := h.calls
    rw [hc]
    exact outcomeLaw_of_done hb (.inr rfl)

theorem regular_start {job : QueueJob} (hjob : job.Fresh) : Regular results (.start job) := by
  left
  refine ⟨by simp [JobRun.start], by simp [JobRun.start, Undecided], ?_, ?_, hjob.2, ?_⟩
  · exact hjob.isJobStatusSet _
  · exact hjob.isJobStatusSet _
  · intro m hm
    simp [JobRun.start] at hm

theorem Pending.begin {r : JobRun} (h : Pending results r) : Pending results r.begin where
  stage := by simp [JobRun.begin]
  calls := h.calls.append (by simp [Undecided])
  notDone := by simp [JobRun.begin, h.notDone]
  notFailed := by simp [JobRun.begin, h.notFailed]
  noError := h.noError
  results := h.results

theorem Pending.afterStart {r : JobRun} {timer : JobTimer} (h : Pending results r)
    (hne : results r.returned ≠ .failed) :
    Regular results (r.afterStart (results r.returned) timer) := by
  by_cases hd : results r.returned = .done
  · right; left
    have hstage : r.afterStart .done timer =
        ⟨r.job.setJobStatus .done, .queued, r.returned + 1, r.calls ++ [.returns .done]⟩ := by
      simp [JobRun.afterStart, h.notFailed]
    rw [hd, hstage]
    exact ⟨rfl, ⟨r.calls, h.calls, rfl⟩, by simp, h.noError⟩
  · left
    have hquiet : Undecided [.returns (results r.returned)] := by
      simp [Undecided, Ne.symm hd, Ne.symm hne]
    have hresults : ∀ m < r.returned + 1, results m ≠ .done := by
      intro m hm
      rcases Nat.lt_succ_iff_lt_or_eq.mp hm with hm | rfl
      · exact h.results m hm
      · exact hd
    have hjob : ((r.job.setJobStatus (results r.returned)).isJobStatusSet .failed) = false := by
      simp [h.notFailed, hne]
    simp only [JobRun.afterStart, hjob, Bool.false_eq_true, ↓reduceIte]
    split_ifs
    · exact ⟨by simp, (h.calls.append hquiet).append (by simp [Undecided]),
        by simp [h.notDone, hd], hjob, h.noError, hresults⟩
    · exact ⟨by simp, h.calls.append hquiet, by simp [h.notDone, hd], hjob, h.noError, hresults⟩
    · exact ⟨by simp, h.calls.append hquiet, by simp [h.notDone, hd], hjob, h.noError, hresults⟩

theorem Pending.step {r t : JobRun} {e : Event} (h : Pending results r)
    (hne : results r.returned ≠ .failed) (ht : threadTask results r e = some t) :
    Regular results t := by
  rcases threadTask_cases ht with ⟨-, -, ⟨hdone, -⟩ | ⟨-, rfl⟩⟩ |
    ⟨timer, -, -, ⟨-, rfl⟩ | ⟨-, rfl⟩⟩ | ⟨timer, -, -, rfl⟩ |
    ⟨timer, -, -, ⟨-, rfl⟩ | ⟨-, rfl⟩⟩
  · rw [h.notDone] at hdone
    cases hdone
  · exact .inl h.begin
  · exact .inl ⟨by simp, h.calls, h.notDone, h.notFailed, h.noError, h.results⟩
  · exact .inl ⟨by simp, h.calls.append (by simp [Undecided]), h.notDone, h.notFailed,
      h.noError, h.results⟩
  · exact h.afterStart hne
  · exact .inl ⟨by simp, h.calls, h.notDone, h.notFailed, h.noError, h.results⟩
  · exact .inl ⟨by simp, h.calls, h.notDone, h.notFailed, h.noError, h.results⟩

theorem Finished.step {r t : JobRun} {e : Event} (h : Finished r)
    (ht : threadTask results r e = some t) : Closed t := by
  obtain ⟨before, hb, hc⟩ := h.calls
  cases e <;> simp only [threadTask, h.stage, h.done, ↓reduceIte] at ht <;> cases ht
  exact ⟨rfl, before, hb, by simp [JobRun.close, hc, h.noError]⟩

theorem Closed.not_step {r t : JobRun} {e : Event} (h : Closed r) :
    threadTask results r e ≠ some t := by
  cases e <;> simp [threadTask, h.stage]

theorem Regular.step (hresults : ∀ n, results n = .failed → ∃ m < n, results m = .done)
    {r t : JobRun} {e : Event} (h : Regular results r)
    (ht : threadTask results r e = some t) : Regular results t := by
  rcases h with h | h | h
  · refine h.step (fun hf => ?_) ht
    obtain ⟨m, hm, hd⟩ := hresults _ hf
    exact h.results m hm hd
  · exact .inr (.inr (h.step ht))
  · exact absurd ht h.not_step

end Sufficiency

section Necessity

variable {results : ℕ → JobStatus}

/-- A run that has just seen its `k`-th return, none of them `JOB_DONE`. -/
structure Returned (results : ℕ → JobStatus) (k : ℕ) (r : JobRun) : Prop where
  stage : r.stage = .queued ∨ ∃ timer, r.stage = .looping timer ∧ timer.jobShouldPause = false
  notDone : r.job.isJobStatusSet .done = false
  returned : r.returned = k

theorem Returned.start {job : QueueJob} (hjob : job.Fresh) :
    Returned results 0 (.start job) :=
  ⟨.inl rfl, hjob.isJobStatusSet _, rfl⟩

/-- From such a state the worker reaches the loop test with a running timer. -/
theorem Returned.looping {k : ℕ} {r : JobRun} (h : Returned results k r) :
    ∃ events t timer, exec (threadTask results) r events = some t ∧
      Returned results k t ∧ t.stage = .looping timer ∧ timer.jobShouldPause = false := by
  rcases h.stage with hs | ⟨timer, hs, hp⟩
  · refine ⟨[.dispatch], r.begin, initTimer r.job, ?_, ?_, rfl, rfl⟩
    · simp [exec_cons, threadTask, hs, h.notDone]
    · exact ⟨.inr ⟨_, rfl, rfl⟩, by simp [JobRun.begin, h.notDone], h.returned⟩
  · exact ⟨[], r, timer, rfl, h, hs, hp⟩

theorem JobRun.afterStart_calls {r : JobRun} {timer : JobTimer} {status : JobStatus}
    (hp : timer.jobShouldPause = false) :
    (r.afterStart status timer).calls = r.calls ++ [.returns status] := by
  simp only [JobRun.afterStart, hp]
  split_ifs <;> simp_all

theorem Returned.next {k : ℕ} {r : JobRun} (h : Returned results k r)
    (hd : results k ≠ .done) :
    ∃ events t before, exec (threadTask results) r events = some t ∧
      Returned results (k + 1) t ∧ t.calls = before ++ [.returns (results k)] := by
  obtain ⟨events, t, timer, ht, hr, hs, hp⟩ := h.looping
  let called : JobRun := { t with stage := .running timer, calls := t.calls ++ [.startProc] }
  have hcall : threadTask results t .iterate = some called := by simp [threadTask, hs, hp, called]
  have hreturn : threadTask results called .startReturns =
      some (called.afterStart (results k) timer) := by
    simp [threadTask, called, hr.returned]
  refine ⟨events ++ [.iterate] ++ [.startReturns], _, called.calls,
    exec_snoc (exec_snoc ht hcall) hreturn, ?_, JobRun.afterStart_calls hp⟩
  have hdone : (t.job.setJobStatus (results k)).isJobStatusSet .done = false := by
    simp [hr.notDone, hd]
  simp only [JobRun.afterStart, hp, called]
  split_ifs
  · simp_all
  · exact ⟨.inr ⟨timer, rfl, hp⟩, hdone, by simp [hr.returned]⟩
  · exact ⟨.inl rfl, hdone, by simp [hr.returned]⟩
  · exact ⟨.inl rfl, hdone, by simp [hr.returned]⟩

theorem exists_returned {job : QueueJob} (hjob : job.Fresh) (n : ℕ)
    (hd : ∀ m < n, results m ≠ .done) :
    ∃ events r, exec (threadTask results) (.start job) events = some r ∧ Returned results n r := by
  induction n with
  | zero => exact ⟨[], _, rfl, Returned.start hjob⟩
  | succ n ih =>
    obtain ⟨events, r, hr, hn⟩ := ih fun m hm => hd m (Nat.lt_succ_of_lt hm)
    obtain ⟨more, t, _, ht, hn, _⟩ := hn.next (hd n (Nat.lt_succ_self n))
    exact ⟨events ++ more, t, by simp [exec_append, hr, ht], hn⟩

/-- After a failure the job is still not done: the worker calls `start_proc`
again, in the same dispatch or in the next one. -/
theorem Returned.violates {k : ℕ} {r : JobRun} {before : List Call} (h : Returned results k r)
    (hc : r.calls = before ++ [.returns .failed]) :
    ∃ events t, exec (threadTask results) r events = some t ∧ ¬ OutcomeLaw t.calls := by
  rcases h.stage with hs | ⟨timer, hs, hp⟩
  · refine ⟨[.dispatch], r.begin, by simp [exec_cons, threadTask, hs, h.notDone], fun law => ?_⟩
    have := law.failed before [.dispatch] (by simp [JobRun.begin, hc])
    simp at this
  · refine ⟨[.iterate], { r with stage := .running timer, calls := r.calls ++ [.startProc] },
      by simp [exec_cons, threadTask, hs, hp], fun law => ?_⟩
    have := law.failed before [.startProc] (by simp [hc])
    simp at this

end Necessity

/-- The outcome law holds in every run of a job exactly when no call returns
`JOB_FAILED` before one has returned `JOB_DONE`. -/
theorem outcomeLaw_iff (job : QueueJob) (hjob : job.Fresh) (results : ℕ → JobStatus) :
    (∀ events r, exec (threadTask results) (.start job) events = some r → OutcomeLaw r.calls) ↔
      ∀ n, results n = .failed → ∃ m < n, results m = .done := by
  constructor
  · intro law n hn
    by_contra hnone
    have hd : ∀ m < n, results m ≠ .done := fun m hm hdone => hnone ⟨m, hm, hdone⟩
    obtain ⟨events, r, hr, hret⟩ := exists_returned hjob n hd
    obtain ⟨more, t, before, ht, hret, hc⟩ := hret.next (by simp [hn])
    rw [hn] at hc
    obtain ⟨last, u, hu, hbad⟩ := hret.violates hc
    exact hbad (law (events ++ more ++ last) u (by simp [exec_append, hr, ht, hu]))
  · intro hresults events r hr
    exact (exec_invariant (fun _ _ _ h ht => h.step hresults ht) (regular_start hjob) hr).outcomeLaw

/-- The job of a receiver task, as `init_receiver` schedules it. -/
def receiverJob : QueueJob :=
  .new (.registered 0 ⟨1, true, false, true, true⟩ .nonPreemtable)

theorem outcomeLaw_receiverJob_done :
    ∃ r, exec (threadTask fun _ => .done) (.start receiverJob)
        [.dispatch, .iterate, .startReturns, .dispatch] = some r ∧ OutcomeLaw r.calls := by
  have hrun : (exec (threadTask fun _ => .done) (.start receiverJob)
      [.dispatch, .iterate, .startReturns, .dispatch]).isSome = true := by decide
  obtain ⟨r, hr⟩ := Option.isSome_iff_exists.mp hrun
  exact ⟨r, hr, (outcomeLaw_iff receiverJob ⟨rfl, rfl⟩ fun _ => .done).mpr (by simp) _ r hr⟩

/-- A receiver that fails on its first call is started again by its next dispatch. -/
theorem not_outcomeLaw_receiverJob_failed :
    ¬ ∀ events r, exec (threadTask fun n => if n = 0 then .failed else .done)
      (.start receiverJob) events = some r → OutcomeLaw r.calls := by
  intro law
  have hrun : (exec (threadTask fun n => if n = 0 then .failed else .done) (.start receiverJob)
      [.dispatch, .iterate, .startReturns, .dispatch, .iterate]).map JobRun.calls =
      some [.dispatch, .startProc, .returns .failed, .dispatch, .startProc] := by decide
  obtain ⟨r, hr, hc⟩ := Option.map_eq_some_iff.mp hrun
  have := (law _ r hr).failed [.dispatch, .startProc] [.dispatch, .startProc] hc
  simp at this

end WorkerUnit.ThreadTask
