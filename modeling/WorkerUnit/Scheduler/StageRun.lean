import WorkerUnit.Scheduler.ThreadTask

/-!
# Stages that are retried

A stage is given by the callbacks of its `ProcessStates`. `thread_task` calls the job of a
stage until a call has returned `JOB_DONE`; a call that returns `JOB_FAILED` is followed by
another one, and only sets the error flag that the end of the job tests. Between two calls
the rest of the worker may change what the callbacks read.
-/

namespace WorkerUnit

open StepSystem ThreadTask

/-- The callbacks over what they read and write. `context` is what else one call finds, and
`other` what the rest of the worker does. -/
structure StageCallbacks (σ context event : Type*) where
  startProc : context → σ → Option (JobStatus × σ)
  endProc : σ → Option σ
  failProc : σ → Option σ
  other : σ → event → σ

/-- `statuses` are what the calls of `start_proc` have returned. -/
structure StageRun (σ : Type*) where
  job : JobRun
  data : σ
  statuses : List JobStatus

inductive StageEvent (context event : Type*) where
  | task (e : ThreadTask.Event) (c : context)
  | other (w : event)

namespace StageRun

variable {σ context event : Type*}

def start (job : QueueJob) (data : σ) : StageRun σ := ⟨.start job, data, []⟩

/-- `thread_task` with the callbacks of the stage. -/
def stageStep (p : StageCallbacks σ context event) (s : StageRun σ) :
    StageEvent context event → Option (StageRun σ)
  | .other w => some { s with data := p.other s.data w }
  | .task .startReturns c => (p.startProc c s.data).bind fun (status, data) =>
      (threadTask (fun _ => status) s.job .startReturns).map fun job =>
        ⟨job, data, s.statuses ++ [status]⟩
  | .task .dispatch _ => (threadTask (fun _ => .done) s.job .dispatch).bind fun job =>
      if s.job.job.isJobStatusSet .done then
        (if s.job.job.jobErrorHandle then p.failProc s.data else p.endProc s.data).map
          fun data => { s with job := job, data := data }
      else some { s with job := job }
  | .task e _ => (threadTask (fun _ => .done) s.job e).map fun job => { s with job := job }

end StageRun

namespace ThreadTask.JobRun

/-- The failures that a job has returned, and the end of its calls. -/
structure Retried (r : JobRun) (statuses : List JobStatus) : Prop where
  unpending : r.job.isJobStatusSet .pending = false
  failed : r.job.isJobStatusSet .failed = true ↔ .failed ∈ statuses
  handled : r.job.jobErrorHandle = true ↔ .failed ∈ statuses
  notDone : r.job.isJobStatusSet .done = false →
    r.stage ≠ .freed ∧ ∃ k, statuses = List.replicate k .failed
  done : r.job.isJobStatusSet .done = true → (r.stage = .queued ∨ r.stage = .freed) ∧
    ∃ k, statuses = List.replicate k .failed ++ [.done]

variable {r t : JobRun} {statuses : List JobStatus} {status : JobStatus}

theorem retried_start {job : QueueJob} (hjob : job.Fresh) : (start job).Retried [] where
  unpending := hjob.isJobStatusSet .pending
  failed := by simp [start, hjob.isJobStatusSet]
  handled := by simp [start, hjob.2]
  notDone := fun _ => ⟨by simp [start], 0, rfl⟩
  done := by simp [start, hjob.isJobStatusSet]

/-- A job at another place, with the same word but for the running bit. -/
theorem Retried.moved (hs : r.Retried statuses)
    (hstage : r.job.isJobStatusSet .done = false → t.stage ≠ .freed)
    (hend : r.job.isJobStatusSet .done = true → t.stage = .queued ∨ t.stage = .freed)
    (hstatus : ∀ status, status ≠ .running →
      t.job.isJobStatusSet status = r.job.isJobStatusSet status)
    (hhandle : t.job.jobErrorHandle = r.job.jobErrorHandle) : t.Retried statuses where
  unpending := (hstatus .pending (by decide)).trans hs.unpending
  failed := by
    rw [hstatus .failed (by decide)]
    exact hs.failed
  handled := by
    rw [hhandle]
    exact hs.handled
  notDone := fun h => by
    rw [hstatus .done (by decide)] at h
    exact ⟨hstage h, (hs.notDone h).2⟩
  done := fun h => by
    rw [hstatus .done (by decide)] at h
    exact ⟨hend h, (hs.done h).2⟩

/-- A call that is not pending leaves the loop of its dispatch, and a failure that has been
set at any time sets the error flag. -/
theorem afterStart_of_unpending (timer : JobTimer) (hstatus : status ≠ .pending)
    (hpending : r.job.isJobStatusSet .pending = false) :
    (r.afterStart status timer).stage = .queued ∧
      (∀ other, (r.afterStart status timer).job.isJobStatusSet other =
        (r.job.isJobStatusSet other || decide (status = other))) ∧
      (r.afterStart status timer).job.jobErrorHandle =
        (r.job.jobErrorHandle || (r.job.isJobStatusSet .failed || decide (status = .failed))) := by
  have hunpending : (r.job.setJobStatus status).isJobStatusSet .pending = false := by
    simp [hpending, hstatus]
  simp only [JobRun.afterStart, hunpending, Bool.false_and, Bool.false_eq_true, if_false]
  split_ifs with hset
  · refine ⟨rfl, fun other => r.job.isJobStatusSet_setJobStatus status other, ?_⟩
    rw [QueueJob.isJobStatusSet_setJobStatus] at hset
    rw [hset, Bool.or_true]
  · refine ⟨rfl, fun other => r.job.isJobStatusSet_setJobStatus status other, ?_⟩
    rw [QueueJob.isJobStatusSet_setJobStatus] at hset
    rw [Bool.eq_false_iff.mpr hset, Bool.or_false, QueueJob.setJobStatus_jobErrorHandle]

theorem Retried.afterStart (hs : r.Retried statuses) (timer : JobTimer)
    (hdone : r.job.isJobStatusSet .done = false) (hstatus : status = .done ∨ status = .failed) :
    (r.afterStart status timer).Retried (statuses ++ [status]) := by
  have hne : status ≠ .pending := by rcases hstatus with rfl | rfl <;> decide
  obtain ⟨hstage, hbits, hhandle⟩ := afterStart_of_unpending timer hne hs.unpending
  obtain ⟨_, k, hk⟩ := hs.notDone hdone
  constructor
  · rw [hbits, hs.unpending, decide_eq_false hne, Bool.or_false]
  · rw [hbits, Bool.or_eq_true, hs.failed, decide_eq_true_iff, List.mem_append,
      List.mem_singleton, eq_comm]
  · rw [hhandle, Bool.or_eq_true, Bool.or_eq_true, hs.handled, hs.failed, decide_eq_true_iff,
      List.mem_append, List.mem_singleton, eq_comm, ← or_assoc, or_self]
  · intro h
    rw [hbits, hdone, Bool.false_or, decide_eq_false_iff_not] at h
    refine ⟨by simp [hstage], k + 1, ?_⟩
    rw [hstatus.resolve_left h, hk, List.replicate_succ']
  · intro h
    rw [hbits, hdone, Bool.false_or, decide_eq_true_iff] at h
    exact ⟨.inl hstage, k, by rw [hk, h]⟩

/-- A job in the loop of a dispatch is not done. -/
theorem Retried.undone {timer : JobTimer} (hs : r.Retried statuses)
    (hstage : r.stage = .looping timer ∨ r.stage = .running timer) :
    r.job.isJobStatusSet .done = false := by
  by_contra hdone
  obtain ⟨hend | hend, _⟩ := hs.done (by simpa using hdone)
  · simp [hend] at hstage
  · simp [hend] at hstage

theorem Retried.close (hs : r.Retried statuses) (hdone : r.job.isJobStatusSet .done = true) :
    r.close.Retried statuses := by
  apply hs.moved
  · simp [hdone]
  · exact fun _ => .inr rfl
  · intro status _
    simp only [JobRun.close, QueueJob.isJobStatusSet_setJobStatus]
    by_cases hstatus : JobStatus.done = status
    · simp [← hstatus, hdone]
    · simp [hstatus]
  · rfl

theorem Retried.begin (hs : r.Retried statuses) (hdone : r.job.isJobStatusSet .done = false) :
    r.begin.Retried statuses := by
  apply hs.moved
  · simp [JobRun.begin]
  · simp [hdone]
  · intro status hstatus
    simp [JobRun.begin, hstatus.symm]
  · rfl

/-- A job that stays in its loop, or leaves it for a pause. -/
theorem Retried.loops {timer : JobTimer} (hs : r.Retried statuses)
    (hstage : r.stage = .looping timer ∨ r.stage = .running timer) (hfreed : t.stage ≠ .freed)
    (hjob : t.job = r.job) : t.Retried statuses := by
  apply hs.moved
  · exact fun _ => hfreed
  · simp [hs.undone hstage]
  · exact fun status _ => by rw [hjob]
  · rw [hjob]

end ThreadTask.JobRun

variable {σ context event : Type*} {p : StageCallbacks σ context event} {G : event → Prop}
  {Open Closed : σ → List JobStatus → Prop} {s t : StageRun σ}

/-- `Open` holds of what the callbacks read and of what the calls have returned until the job
ends, and `Closed` from then on, when the rest of the worker does what `G` allows. -/
structure StageCallbacks.Keeps (p : StageCallbacks σ context event) (G : event → Prop)
    (Open Closed : σ → List JobStatus → Prop) : Prop where
  startProc : ∀ {c d status d' k}, Open d (List.replicate k .failed) →
    p.startProc c d = some (status, d') → (status = .done ∨ status = .failed) ∧
      Open d' (List.replicate k .failed ++ [status])
  endProc : ∀ {d d'}, Open d [.done] → p.endProc d = some d' → Closed d' [.done]
  failProc : ∀ {d d' k}, Open d (List.replicate (k + 1) .failed ++ [.done]) →
    p.failProc d = some d' → Closed d' (List.replicate (k + 1) .failed ++ [.done])
  other : ∀ {d statuses w}, Open d statuses → G w → Open (p.other d w) statuses
  otherClosed : ∀ {d statuses w}, Closed d statuses → G w → Closed (p.other d w) statuses

/-- Every call fails as long as `Failing` holds. -/
structure StageCallbacks.Fails (p : StageCallbacks σ context event) (G : event → Prop)
    (Failing : σ → Prop) : Prop where
  startProc : ∀ {d}, Failing d → ∀ c, ∃ d', p.startProc c d = some (.failed, d') ∧ Failing d'
  other : ∀ {d w}, Failing d → G w → Failing (p.other d w)

namespace StageRun

/-- What is known of a stage while its job is called and when it has ended. -/
structure Kept (Open Closed : σ → List JobStatus → Prop) (s : StageRun σ) : Prop where
  retried : s.job.Retried s.statuses
  opened : s.job.stage ≠ .freed → Open s.data s.statuses
  closed : s.job.stage = .freed → Closed s.data s.statuses

theorem Kept.dispatch {c : context} (hp : p.Keeps G Open Closed) (hs : s.Kept Open Closed)
    (h : s.stageStep p (.task .dispatch c) = some t) : t.Kept Open Closed := by
  obtain ⟨job, hjob, h⟩ := Option.bind_eq_some_iff.mp h
  rcases threadTask_cases hjob with ⟨_, hqueued, ⟨hdone, rfl⟩ | ⟨hdone, rfl⟩⟩ | ⟨_, he, _⟩ |
    ⟨_, he, _⟩ | ⟨_, he, _⟩
  · rw [if_pos hdone] at h
    obtain ⟨data, hdata, rfl⟩ := Option.map_eq_some_iff.mp h
    refine ⟨hs.retried.close hdone, fun hfreed => absurd rfl hfreed, fun _ => ?_⟩
    have hopen := hs.opened (by simp [hqueued])
    obtain ⟨_, k, hk⟩ := hs.retried.done hdone
    have hhandled := hs.retried.handled
    dsimp only
    rw [hk] at hopen hhandled ⊢
    cases k with
    | zero =>
      rw [if_neg (by simp [hhandled])] at hdata
      exact hp.endProc hopen hdata
    | succ k =>
      rw [if_pos (hhandled.mpr (by simp))] at hdata
      exact hp.failProc hopen hdata
  · rw [if_neg (by simp [hdone])] at h
    cases h
    exact ⟨hs.retried.begin hdone, fun _ => hs.opened (by simp [hqueued]),
      fun hfreed => nomatch hfreed⟩
  · cases he
  · cases he
  · cases he

theorem Kept.startReturns {c : context} (hp : p.Keeps G Open Closed) (hs : s.Kept Open Closed)
    (h : s.stageStep p (.task .startReturns c) = some t) : t.Kept Open Closed := by
  obtain ⟨⟨status, data⟩, hstart, h⟩ := Option.bind_eq_some_iff.mp h
  obtain ⟨job, hjob, rfl⟩ := Option.map_eq_some_iff.mp h
  rcases threadTask_cases hjob with ⟨he, _⟩ | ⟨_, he, _⟩ | ⟨timer, _, hrunning, rfl⟩ | ⟨_, he, _⟩
  · cases he
  · cases he
  · have hdone := hs.retried.undone (.inr hrunning)
    obtain ⟨_, k, hk⟩ := hs.retried.notDone hdone
    have hopen := hs.opened (by simp [hrunning])
    rw [hk] at hopen
    obtain ⟨hstatus, hopen⟩ := hp.startProc hopen hstart
    have hretried := hs.retried.afterStart timer hdone hstatus
    have hne : status ≠ .pending := by rcases hstatus with rfl | rfl <;> decide
    have hstage := (JobRun.afterStart_of_unpending timer hne hs.retried.unpending).1
    refine ⟨hretried, fun _ => ?_, fun hfreed => ?_⟩
    · dsimp only
      rw [hk]
      exact hopen
    · rw [hstage] at hfreed
      cases hfreed
  · cases he

theorem Kept.step {e : StageEvent context event} (hp : p.Keeps G Open Closed)
    (hs : s.Kept Open Closed) (hG : ∀ w, e = .other w → G w) (h : s.stageStep p e = some t) :
    t.Kept Open Closed := by
  have hmoves : ∀ timer, s.job.stage = .looping timer ∨ s.job.stage = .running timer →
      ∀ job : JobRun, job.stage ≠ .freed → job.job = s.job.job →
      Kept Open Closed { s with job := job } := by
    intro timer hstage job hfreed hjob
    refine ⟨hs.retried.loops hstage hfreed hjob, fun _ => hs.opened ?_, fun h => absurd h hfreed⟩
    rintro hend
    simp [hend] at hstage
  cases e with
  | other w =>
    cases h
    have hw := hG w rfl
    exact ⟨hs.retried, fun hopen => hp.other (hs.opened hopen) hw,
      fun hclosed => hp.otherClosed (hs.closed hclosed) hw⟩
  | task e c =>
    cases e with
    | dispatch => exact hs.dispatch hp h
    | startReturns => exact hs.startReturns hp h
    | iterate =>
      obtain ⟨job, hjob, rfl⟩ := Option.map_eq_some_iff.mp h
      rcases threadTask_cases hjob with ⟨he, _⟩ | ⟨timer, _, hlooping, ⟨_, rfl⟩ | ⟨_, rfl⟩⟩ |
        ⟨_, he, _⟩ | ⟨_, he, _⟩
      · cases he
      · exact hmoves timer (.inl hlooping) _ (by simp) rfl
      · exact hmoves timer (.inl hlooping) _ (by simp) rfl
      · cases he
      · cases he
    | timerExpires =>
      obtain ⟨job, hjob, rfl⟩ := Option.map_eq_some_iff.mp h
      rcases threadTask_cases hjob with ⟨he, _⟩ | ⟨_, he, _⟩ | ⟨_, he, _⟩ |
        ⟨timer, _, _, ⟨hstage, rfl⟩ | ⟨hstage, rfl⟩⟩
      · cases he
      · cases he
      · cases he
      · exact hmoves timer (.inl hstage) _ (by simp) rfl
      · exact hmoves timer (.inr hstage) _ (by simp) rfl

theorem Kept.exec (hp : p.Keeps G Open Closed) (hs : s.Kept Open Closed)
    {es : List (StageEvent context event)} (hG : ∀ w, .other w ∈ es → G w)
    (hrun : exec (stageStep p) s es = some t) : t.Kept Open Closed := by
  have hguarded : Guarded (stageStep p) (fun _ e => ∀ w, e = .other w → G w) s es :=
    .of_forall (fun _ he _ w hw => hG w (by rwa [← hw])) s
  exact hguarded.invariant (fun _ _ _ hs hG h => hs.step hp hG h) hs hrun

theorem kept_start {job : QueueJob} (hjob : job.Fresh) {data : σ} (hdata : Open data []) :
    (start job data).Kept Open Closed :=
  ⟨JobRun.retried_start hjob, fun _ => hdata, fun hfreed => nomatch hfreed⟩

end StageRun

/-- What is known of a stage whose calls all fail: its job does not end. -/
def AllFailed (Failing : σ → Prop) (d : σ) (statuses : List JobStatus) : Prop :=
  Failing d ∧ ∀ status ∈ statuses, status = .failed

variable {Failing : σ → Prop}

theorem StageCallbacks.Fails.keeps (hp : p.Fails G Failing) :
    p.Keeps G (AllFailed Failing) fun _ _ => False := by
  constructor
  · rintro c d status d' k ⟨hd, hall⟩ hstart
    obtain ⟨next, hnext, hfailing⟩ := hp.startProc hd c
    rw [hnext, Option.some.injEq, Prod.mk.injEq] at hstart
    obtain ⟨rfl, rfl⟩ := hstart
    refine ⟨.inr rfl, hfailing, ?_⟩
    rw [List.forall_mem_append, List.forall_mem_singleton]
    exact ⟨hall, rfl⟩
  · rintro d d' ⟨_, hall⟩
    simp at hall
  · rintro d d' k ⟨_, hall⟩
    simp at hall
  · exact fun hd hw => ⟨hp.other hd.1 hw, hd.2⟩
  · exact fun hd _ => hd

namespace StageRun

/-- A job whose calls fail is called once more. -/
theorem exists_failure (hp : p.Fails G Failing)
    (hs : s.Kept (AllFailed Failing) fun _ _ => False) (c : context) :
    ∃ more t, exec (stageStep p) s more = some t ∧ (∀ w, .other w ∉ more) ∧
      t.statuses = s.statuses ++ [.failed] := by
  have hkept : ∀ {u v : StageRun σ} {e : ThreadTask.Event},
      u.Kept (AllFailed Failing) (fun _ _ => False) →
      u.stageStep p (.task e c) = some v → v.Kept (AllFailed Failing) fun _ _ => False :=
    fun hu h => hu.step hp.keeps (by simp) h
  have hrunning : ∀ u : StageRun σ, u.Kept (AllFailed Failing) (fun _ _ => False) →
      ∀ timer, u.job.stage = .running timer →
      ∃ more t, exec (stageStep p) u more = some t ∧ (∀ w, .other w ∉ more) ∧
        t.statuses = u.statuses ++ [.failed] := by
    intro u hu timer hstage
    obtain ⟨data, hdata, _⟩ := hp.startProc (hu.opened (by simp [hstage])).1 c
    have hstep : u.stageStep p (.task .startReturns c) =
        some ⟨u.job.afterStart .failed timer, data, u.statuses ++ [.failed]⟩ := by
      simp [stageStep, hdata, threadTask, hstage]
    exact ⟨[.task .startReturns c], _, exec_cons_eq_some.mpr ⟨_, hstep, rfl⟩, by simp, rfl⟩
  have hlooping : ∀ u : StageRun σ, u.Kept (AllFailed Failing) (fun _ _ => False) →
      ∀ timer, u.job.stage = .looping timer → timer.jobShouldPause = false →
      ∃ more t, exec (stageStep p) u more = some t ∧ (∀ w, .other w ∉ more) ∧
        t.statuses = u.statuses ++ [.failed] := by
    intro u hu timer hstage hpause
    have hstep : u.stageStep p (.task .iterate c) = some { u with job :=
        { u.job with stage := .running timer, calls := u.job.calls ++ [.startProc] } } := by
      simp [stageStep, threadTask, hstage, hpause]
    obtain ⟨more, t, hmore, hnone, ht⟩ := hrunning _ (hkept hu hstep) timer rfl
    exact ⟨_ :: more, t, exec_cons_eq_some.mpr ⟨_, hstep, hmore⟩, by simpa using hnone, ht⟩
  have hqueued : ∀ u : StageRun σ, u.Kept (AllFailed Failing) (fun _ _ => False) →
      u.job.stage = .queued →
      ∃ more t, exec (stageStep p) u more = some t ∧ (∀ w, .other w ∉ more) ∧
        t.statuses = u.statuses ++ [.failed] := by
    intro u hu hstage
    have hdone : u.job.job.isJobStatusSet .done = false := by
      by_contra hdone
      obtain ⟨_, k, hk⟩ := hu.retried.done (by simpa using hdone)
      have hall := (hu.opened (by simp [hstage])).2 .done (by simp [hk])
      cases hall
    have hstep : u.stageStep p (.task .dispatch c) = some { u with job := u.job.begin } := by
      simp [stageStep, threadTask, hstage, hdone]
    obtain ⟨more, t, hmore, hnone, ht⟩ := hlooping _ (hkept hu hstep) _ rfl rfl
    exact ⟨_ :: more, t, exec_cons_eq_some.mpr ⟨_, hstep, hmore⟩, by simpa using hnone, ht⟩
  cases hstage : s.job.stage with
  | queued => exact hqueued s hs hstage
  | running timer => exact hrunning s hs timer hstage
  | looping timer =>
    cases hpause : timer.jobShouldPause with
    | false => exact hlooping s hs timer hstage hpause
    | true =>
      have hstep : s.stageStep p (.task .iterate c) =
          some { s with job := { s.job with stage := .queued } } := by
        simp [stageStep, threadTask, hstage, hpause]
      obtain ⟨more, t, hmore, hnone, ht⟩ := hqueued _ (hkept hs hstep) rfl
      exact ⟨_ :: more, t, exec_cons_eq_some.mpr ⟨_, hstep, hmore⟩, by simpa using hnone, ht⟩
  | freed => exact (hs.closed hstage).elim

/-- A job whose calls fail is never ended, and can be called any number of times. -/
theorem never_ends (hp : p.Fails G Failing) {job : QueueJob} (hjob : job.Fresh) {data : σ}
    (hdata : Failing data) {es : List (StageEvent context event)} (hG : ∀ w, .other w ∈ es → G w)
    (hrun : exec (stageStep p) (start job data) es = some s) (c : context) (k : ℕ) :
    s.job.stage ≠ .freed ∧ (∀ status ∈ s.statuses, status = .failed) ∧
      ∃ more t, exec (stageStep p) s more = some t ∧
        t.statuses = s.statuses ++ List.replicate k .failed := by
  have hs : s.Kept (AllFailed Failing) fun _ _ => False :=
    (kept_start hjob ⟨hdata, by simp⟩).exec hp.keeps hG hrun
  have hopen : s.job.stage ≠ .freed := fun hfreed => hs.closed hfreed
  refine ⟨hopen, (hs.opened hopen).2, ?_⟩
  clear hopen hrun
  induction k generalizing s with
  | zero => exact ⟨[], s, rfl, by simp⟩
  | succ k ih =>
    obtain ⟨first, u, hfirst, hnone, hu⟩ := exists_failure hp hs c
    obtain ⟨more, t, hmore, ht⟩ := ih (hs.exec hp.keeps (fun w hw => absurd hw (hnone w)) hfirst)
    refine ⟨first ++ more, t, ?_, ?_⟩
    · rw [exec_append, hfirst, Option.bind_some, hmore]
    · rw [ht, hu, List.append_assoc, List.replicate_succ, List.singleton_append]

end StageRun

end WorkerUnit
