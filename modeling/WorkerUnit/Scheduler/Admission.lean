import WorkerUnit.Scheduler.Preemption
import WorkerUnit.Scheduler.TaskPool

/-!
# What the checks of an admission leave open

`scheduleTask` tests the start and end callbacks and that the type is not too
large. Afterwards `init_job` divides by the type, and the task thread calls
`fail_proc` for a job that has failed on its way to `JOB_DONE`.
-/

namespace WorkerUnit.ThreadTask

open StepSystem

/-- The callback that an entry of the record calls is set. -/
def provides (states : ProcessStates) : Call → Bool
  | .startProc => states.startProc
  | .pauseProc => states.pauseProc
  | .endProc => states.endProc
  | .failProc => states.failProc
  | _ => true

/-- The life of the job neither divides by zero nor calls a null callback. -/
def AdmissionLaw (procTable : ProcessTable) (results : ℕ → JobStatus) : Prop :=
  ∃ job, initJob procTable = some job ∧
    ∀ events r, exec (threadTask results) (.start job) events = some r →
      ∀ call ∈ r.calls, provides procTable.processState call = true

/-- The first call that returns `JOB_DONE` comes after one that returned `JOB_FAILED`. -/
def FailsThenDone (results : ℕ → JobStatus) : Prop :=
  ∃ n, results n = .done ∧ (∀ m < n, results m ≠ .done) ∧ ∃ m < n, results m = .failed

variable {results : ℕ → JobStatus}

/-- What the status bits of a job say of the values that were returned. -/
structure Tracked (results : ℕ → JobStatus) (r : JobRun) : Prop where
  unpaused : Unpaused r
  failed : r.job.isJobStatusSet .failed = true ↔ ∃ m < r.returned, results m = .failed
  error : r.job.jobErrorHandle = true → r.job.isJobStatusSet .failed = true
  notDone : r.job.isJobStatusSet .done = false → ∀ m < r.returned, results m ≠ .done
  done : r.job.isJobStatusSet .done = true → (r.stage = .queued ∨ r.stage = .freed) ∧
    ∃ n, r.returned = n + 1 ∧ results n = .done ∧ ∀ m < n, results m ≠ .done
  calls : .failProc ∈ r.calls → FailsThenDone results

theorem tracked_start {job : QueueJob} (hjob : job.Fresh) (hslice : job.getCpuTimeSlice = 0) :
    Tracked results (.start job) where
  unpaused := unpaused_start hslice
  failed := by simp [JobRun.start, hjob.isJobStatusSet]
  error := by simp [JobRun.start, hjob.2]
  notDone := by simp [JobRun.start]
  done := by simp [JobRun.start, hjob.isJobStatusSet]
  calls := by simp [JobRun.start]

namespace Tracked

variable {r t : JobRun}

/-- In its loop a job is not done. -/
theorem notDone_of_stage (h : Tracked results r) (hqueued : r.stage ≠ .queued)
    (hfreed : r.stage ≠ .freed) : r.job.isJobStatusSet .done = false := by
  by_contra hdone
  rcases (h.done (by simpa using hdone)).1 with hs | hs
  · exact hqueued hs
  · exact hfreed hs

/-- A job that is done with an error has failed before. -/
theorem failsThenDone (h : Tracked results r) (hdone : r.job.isJobStatusSet .done = true)
    (herror : r.job.jobErrorHandle = true) : FailsThenDone results := by
  obtain ⟨-, n, hn, hlast, hfirst⟩ := h.done hdone
  obtain ⟨m, hm, hfailed⟩ := h.failed.mp (h.error herror)
  refine ⟨n, hlast, hfirst, m, ?_, hfailed⟩
  rcases Nat.lt_succ_iff_lt_or_eq.mp (hn ▸ hm) with hm | rfl
  · exact hm
  · cases hfailed.symm.trans hlast

theorem close (h : Tracked results r) (hdone : r.job.isJobStatusSet .done = true)
    (ht : Unpaused r.close) : Tracked results r.close where
  unpaused := ht
  failed := by simpa [JobRun.close] using h.failed
  error := by simpa [JobRun.close] using h.error
  notDone := by simp [JobRun.close]
  done := fun _ => ⟨.inr rfl, (h.done hdone).2⟩
  calls := by
    intro hmem
    simp only [JobRun.close, List.mem_append, List.mem_cons] at hmem
    rcases hmem with hold | hnew
    · exact h.calls hold
    · cases herror : r.job.jobErrorHandle with
      | true => exact h.failsThenDone hdone herror
      | false => simp [herror] at hnew

/-- The loop goes on, or a job that is not done is set running. -/
theorem between (h : Tracked results r) (hdone : r.job.isJobStatusSet .done = false)
    {stage : Stage} {calls : List Call} (hcalls : .failProc ∈ calls → .failProc ∈ r.calls)
    (ht : Unpaused { r with stage := stage, calls := calls }) :
    Tracked results { r with stage := stage, calls := calls } where
  unpaused := ht
  failed := h.failed
  error := h.error
  notDone := h.notDone
  done := by simp [hdone]
  calls := fun hmem => h.calls (hcalls hmem)

theorem setRunning (h : Tracked results r) (hdone : r.job.isJobStatusSet .done = false) :
    Tracked results { r with job := r.job.setJobStatus .running } where
  unpaused := ⟨h.unpaused.noSlice, h.unpaused.calls⟩
  failed := by simpa using h.failed
  error := by simpa using h.error
  notDone := by simpa using h.notDone
  done := by simp [hdone]
  calls := h.calls

/-- The status bits after one more value. -/
theorem returns (h : Tracked results r) (hdone : r.job.isJobStatusSet .done = false) :
    ((r.job.setJobStatus (results r.returned)).isJobStatusSet .failed = true ↔
      ∃ m < r.returned + 1, results m = .failed) ∧
    ((r.job.setJobStatus (results r.returned)).isJobStatusSet .done = false →
      ∀ m < r.returned + 1, results m ≠ .done) ∧
    ((r.job.setJobStatus (results r.returned)).isJobStatusSet .done = true →
      results r.returned = .done ∧ ∀ m < r.returned, results m ≠ .done) := by
  have hbefore := h.notDone hdone
  refine ⟨?_, ?_, ?_⟩
  · rw [QueueJob.isJobStatusSet_setJobStatus, Bool.or_eq_true, h.failed, decide_eq_true_eq]
    constructor
    · rintro (⟨m, hm, hf⟩ | hf)
      · exact ⟨m, Nat.lt_succ_of_lt hm, hf⟩
      · exact ⟨r.returned, Nat.lt_succ_self _, hf⟩
    · rintro ⟨m, hm, hf⟩
      rcases Nat.lt_succ_iff_lt_or_eq.mp hm with hm | rfl
      · exact .inl ⟨m, hm, hf⟩
      · exact .inr hf
  · intro hnot m hm
    simp only [QueueJob.isJobStatusSet_setJobStatus, hdone, Bool.false_or,
      decide_eq_false_iff_not] at hnot
    rcases Nat.lt_succ_iff_lt_or_eq.mp hm with hm | rfl
    · exact hbefore m hm
    · exact hnot
  · intro hset
    simp only [QueueJob.isJobStatusSet_setJobStatus, hdone, Bool.false_or,
      decide_eq_true_eq] at hset
    exact ⟨hset, hbefore⟩

theorem afterStart (h : Tracked results r) {timer : JobTimer} (hs : r.stage = .running timer)
    (ht : Unpaused (r.afterStart (results r.returned) timer)) :
    Tracked results (r.afterStart (results r.returned) timer) := by
  have hdone := h.notDone_of_stage (by simp [hs]) (by simp [hs])
  obtain ⟨hfailed, hnot, hset⟩ := h.returns hdone
  rcases JobRun.afterStart_of_noSlice timer (results r.returned) h.unpaused.noSlice with
    ⟨⟨-, hopen⟩, hafter⟩ | ⟨-, hafter⟩
  · rw [hafter] at ht ⊢
    refine ⟨ht, hfailed, fun herror => ?_, hnot, by simp [hopen], fun hmem => ?_⟩
    · rw [QueueJob.isJobStatusSet_setJobStatus, h.error herror, Bool.true_or]
    · exact h.calls (by simpa using hmem)
  · rw [hafter] at ht ⊢
    refine ⟨ht, hfailed, fun herror => ?_, hnot, fun hd => ⟨.inl rfl, r.returned, rfl, hset hd⟩,
      fun hmem => ?_⟩
    · rcases (Bool.or_eq_true _ _).mp herror with hold | hnew
      · change (r.job.setJobStatus (results r.returned)).isJobStatusSet .failed = true
        rw [QueueJob.isJobStatusSet_setJobStatus, h.error hold, Bool.true_or]
      · exact hnew
    · exact h.calls (by simpa using hmem)

theorem step {e : Event} (h : Tracked results r) (ht : threadTask results r e = some t) :
    Tracked results t := by
  have hunpaused := h.unpaused.step ht
  rcases threadTask_cases ht with ⟨-, -, ⟨hdone, rfl⟩ | ⟨hdone, rfl⟩⟩ |
    ⟨timer, -, hs, ⟨-, rfl⟩ | ⟨-, rfl⟩⟩ | ⟨timer, -, hs, rfl⟩ |
    ⟨timer, -, -, ⟨hs, rfl⟩ | ⟨hs, rfl⟩⟩
  · exact h.close hdone hunpaused
  · exact (h.setRunning hdone).between (by simp [hdone]) (by simp) hunpaused
  · exact h.between (h.notDone_of_stage (by simp [hs]) (by simp [hs])) id hunpaused
  · exact h.between (h.notDone_of_stage (by simp [hs]) (by simp [hs])) (by simp) hunpaused
  · exact h.afterStart hs hunpaused
  · exact h.between (h.notDone_of_stage (by simp [hs]) (by simp [hs])) id hunpaused
  · exact h.between (h.notDone_of_stage (by simp [hs]) (by simp [hs])) id hunpaused

end Tracked

/-- A job that fails on its way to `JOB_DONE` is closed by `fail_proc`. -/
theorem FailsThenDone.exists_failProc (h : FailsThenDone results) {job : QueueJob}
    (hjob : job.Fresh) (hslice : job.getCpuTimeSlice = 0) :
    ∃ events r, exec (threadTask results) (.start job) events = some r ∧ .failProc ∈ r.calls := by
  obtain ⟨n, hn, hfirst, m, hm, hfailed⟩ := h
  obtain ⟨events, r, hr, hreturned⟩ := exists_returned hjob n hfirst
  obtain ⟨more, t, timer, ht, hreturned, hs, hpause⟩ := hreturned.looping
  let called : JobRun := { t with stage := .running timer, calls := t.calls ++ [.startProc] }
  have hcall : threadTask results t .iterate = some called := by
    simp [threadTask, hs, hpause, called]
  have hrun : exec (threadTask results) (.start job) (events ++ more ++ [.iterate]) =
      some called := exec_snoc (by simp [exec_append, hr, ht]) hcall
  have htracked : Tracked results called :=
    exec_invariant (fun _ _ _ hs ht => hs.step ht) (tracked_start hjob hslice) hrun
  have hbit : (called.job.setJobStatus .done).isJobStatusSet .failed = true := by
    rw [QueueJob.isJobStatusSet_setJobStatus,
      htracked.failed.mpr ⟨m, hreturned.returned ▸ hm, hfailed⟩, Bool.true_or]
  have hstart : threadTask results called .startReturns =
      some (called.afterStart .done timer) := by
    simp only [threadTask, called, hreturned.returned, hn]
  obtain ⟨⟨-, hopen⟩, -⟩ | ⟨-, hafter⟩ :=
    JobRun.afterStart_of_noSlice timer .done htracked.unpaused.noSlice
  · simp at hopen
  · let failed : JobRun := ⟨{ called.job.setJobStatus .done with jobErrorHandle := true }, .queued,
      called.returned + 1, called.calls ++ [.returns .done]⟩
    rw [hafter, hbit, Bool.or_true] at hstart
    have hdone : failed.job.isJobStatusSet .done = true := by
      change (called.job.setJobStatus .done).isJobStatusSet .done = true
      simp
    have hclose : threadTask results failed .dispatch = some failed.close := by
      have hqueued : failed.stage = .queued := rfl
      simp only [threadTask, hqueued, hdone, ↓reduceIte]
    exact ⟨_, failed.close, exec_snoc (exec_snoc hrun hstart) hclose,
      by simp [failed, JobRun.close]⟩

/-- The checks of `scheduleTask` suffice exactly when the type is not zero and
`fail_proc` is set or not needed. -/
theorem admissionLaw_iff {α : Type*} (taskSink : TaskPool) (address starveCounter : ℕ)
    (newProc : ProcessStates) (args : Option α) (priority : TaskPriority)
    (haccepted : (scheduleTask taskSink address starveCounter newProc args priority).isSome)
    (results : ℕ → JobStatus) :
    AdmissionLaw (.registered address newProc priority) results ↔
      newProc.type ≠ 0 ∧ (newProc.failProc = true ∨ ¬ FailsThenDone results) := by
  have hcallbacks : newProc.startProc = true ∧ newProc.endProc = true := by
    unfold scheduleTask at haccepted
    split_ifs at haccepted with h
    · cases args with
      | none => cases h
      | some a =>
        simp only [scheduleTaskAccepts, Bool.and_eq_true] at h
        exact h.1
    · cases haccepted
  constructor
  · rintro ⟨job, hjob, hlaw⟩
    have htype : newProc.type ≠ 0 := by
      intro hzero
      simp [initJob, ProcessTable.registered, hzero] at hjob
    refine ⟨htype, ?_⟩
    by_contra hnone
    obtain ⟨hfailProc, hfails⟩ := not_or.mp hnone
    have hslice : job.getCpuTimeSlice = 0 := by
      rw [initJob_eq_some hjob]
      rfl
    obtain ⟨events, r, hr, hmem⟩ := (not_not.mp hfails).exists_failProc (initJob_fresh hjob) hslice
    exact hfailProc (hlaw events r hr .failProc hmem)
  · rintro ⟨htype, hfail⟩
    have hjob : initJob (.registered address newProc priority) =
        some (.new (.registered address newProc priority)) := if_neg htype
    refine ⟨_, hjob, ?_⟩
    intro events r hr call hcall
    have htracked : Tracked results r :=
      exec_invariant (fun _ _ _ hs ht => hs.step ht) (tracked_start ⟨rfl, rfl⟩ rfl) hr
    cases call with
    | startProc => exact hcallbacks.1
    | endProc => exact hcallbacks.2
    | pauseProc => exact absurd hcall htracked.unpaused.calls
    | failProc => exact hfail.resolve_right fun hnot => hnot (htracked.calls hcall)
    | _ => rfl

/-- A compute task without `pause_proc` and `fail_proc` that is done at once. -/
theorem admissionLaw_done :
    (scheduleTask [] 0 0 ⟨4, true, false, true, false⟩ (some ()) .highPriority).isSome ∧
      AdmissionLaw (.registered 0 ⟨4, true, false, true, false⟩ .highPriority) fun _ => .done := by
  refine ⟨rfl, ?_⟩
  refine (admissionLaw_iff [] 0 0 ⟨4, true, false, true, false⟩ (some ()) .highPriority rfl _).mpr
    ⟨by decide, .inr ?_⟩
  rintro ⟨n, -, -, m, -, hfailed⟩
  cases hfailed

/-- `scheduleTask` accepts the type zero, by which `init_job` divides, and a task
without `fail_proc`, which is called when it fails first and is done then. -/
theorem not_admissionLaw_typeZero :
    (scheduleTask [] 0 0 ⟨0, true, true, true, true⟩ (some ()) .highPriority).isSome ∧
      (¬ AdmissionLaw (.registered 0 ⟨0, true, true, true, true⟩ .highPriority) fun _ => .done) ∧
    (scheduleTask [] 0 0 ⟨4, true, true, true, false⟩ (some ()) .highPriority).isSome ∧
      ¬ AdmissionLaw (.registered 0 ⟨4, true, true, true, false⟩ .highPriority)
        fun n => if n = 0 then .failed else .done := by
  refine ⟨rfl, ?_, rfl, ?_⟩
  · rintro ⟨job, hjob, -⟩
    simp [initJob, ProcessTable.registered] at hjob
  · rintro ⟨job, hjob, hlaw⟩
    cases initJob_eq_some hjob
    have hrun : (exec (threadTask fun n => if n = 0 then .failed else .done)
        (.start (.new (.registered 0 ⟨4, true, true, true, false⟩ .highPriority)))
        [.dispatch, .iterate, .startReturns, .dispatch, .iterate, .startReturns,
          .dispatch]).map (fun r => decide (Call.failProc ∈ r.calls)) = some true := by decide
    obtain ⟨r, hr, hmem⟩ := Option.map_eq_some_iff.mp hrun
    exact absurd (hlaw _ r hr .failProc (of_decide_eq_true hmem)) (by decide)

end WorkerUnit.ThreadTask
