import WorkerUnit.Scheduler.Drain

/-!
# Fetched jobs

`thread_task` sets a job running after `getNextTask` has given its lock back. The two are
steps of their own here. As long as no round of the scheduler thread comes between them,
and takes a job that is fetched, the threads do what they do when both are one step.
-/

namespace WorkerUnit

open StepSystem WakeState WorkState

variable {n : ℕ}

/-- The slot of a job that a thread has fetched and not yet set running is in `fetched`. -/
structure FetchState (n : ℕ) where
  work : WorkState n
  fetched : Fin n → Option (Fin queueSize)

inductive FetchEvent (n : ℕ) where
  | step (e : WakeEvent n)
  | setRunning (thread : Fin n)

namespace FetchState

def start (jobQueues : Fin n → Fin queueSize → Option QueueJob) : FetchState n :=
  ⟨.start jobQueues, fun _ => none⟩

def setQueue (s : FetchState n) (thread : Fin n) (queue : ThreadQueue) : FetchState n :=
  { s with work := { s.work with wake := { s.work.wake with
    sched := s.work.wake.sched.setQueue thread queue } } }

/-- The fetch alone. -/
def getNextTask (s : FetchState n) (thread : Fin n) : FetchState n :=
  match (s.work.wake.sched.threadQueueList thread).getNextTask with
  | (none, queue) => s.setQueue thread queue
  | (some job, queue) =>
    if job.isJobStatusSet .done then
      { s with work := { s.work with wake := { s.work.wake with
        sched := s.work.wake.sched.setQueue thread queue
        closing := Function.update s.work.wake.closing thread true } } }
    else
      { s.setQueue thread queue with
        fetched := Function.update s.fetched thread (some queue.head) }

/-- A thread that has fetched a job sets it running next. -/
def fetchStep (s : FetchState n) : FetchEvent n → Option (FetchState n)
  | .step (.getNextTask thread) =>
    if s.fetched thread = none ∧ s.work.starting thread = none ∧
        s.work.wake.closing thread = false then some (s.getNextTask thread)
    else none
  | .step e => (workStep s.work e).map fun work => { s with work := work }
  | .setRunning thread => (s.fetched thread).map fun slot =>
      let queue := (s.work.wake.sched.threadQueueList thread).setJobStatus slot .running
      ⟨{ (s.setQueue thread queue).work with
        starting := Function.update s.work.starting thread (some slot) },
        Function.update s.fetched thread none⟩

/-- No round comes while a job is fetched and not yet set running. -/
def LeavesFetched (s : FetchState n) : FetchEvent n → Prop
  | .step (.loopBody _) => ∀ i, s.fetched i = none
  | _ => True

instance (s : FetchState n) : ∀ e : FetchEvent n, Decidable (s.LeavesFetched e)
  | .step (.loopBody _) => inferInstanceAs (Decidable (∀ i, s.fetched i = none))
  | .step (.pushTask _ _ _ _) | .step (.getNextTask _) | .step (.markTaskAsComplete _)
  | .step (.startReturns _ _ _) | .step .signalSeen | .step .signalUnseen
  | .step .enterWait | .setRunning _ => isTrue trivial

/-- A thread that has fetched a job runs none, and completes none. -/
def Between (s : FetchState n) : Prop :=
  ∀ i, s.fetched i ≠ none → s.work.starting i = none ∧ s.work.wake.closing i = false

/-- The queues once the fetched jobs are set running. -/
def setRunning (queues : Fin n → ThreadQueue) (fetched : Fin n → Option (Fin queueSize))
    (i : Fin n) : ThreadQueue :=
  (fetched i).elim (queues i) fun slot => (queues i).setJobStatus slot .running

/-- The state in which a fetch has set the job running at once. -/
def fused (s : FetchState n) : WorkState n :=
  ⟨{ s.work.wake with sched := { s.work.wake.sched with
      threadQueueList := setRunning s.work.wake.sched.threadQueueList s.fetched } },
    fun i => (s.fetched i).or (s.work.starting i)⟩

section SetRunning

variable {queues : Fin n → ThreadQueue} {fetched : Fin n → Option (Fin queueSize)} {i : Fin n}

@[simp] theorem setRunning_of_none (h : fetched i = none) :
    setRunning queues fetched i = queues i := by
  simp [setRunning, h]

theorem setRunning_none (h : ∀ i, fetched i = none) : setRunning queues fetched = queues :=
  funext fun i => setRunning_of_none (h i)

/-- A thread changes its queue, and what it has fetched. -/
theorem setRunning_update (queue : ThreadQueue) (slot : Option (Fin queueSize)) :
    setRunning (Function.update queues i queue) (Function.update fetched i slot) =
      Function.update (setRunning queues fetched) i
        (slot.elim queue fun slot => queue.setJobStatus slot .running) := by
  ext j : 1
  by_cases hj : j = i
  · subst hj
    simp [setRunning]
  · simp [setRunning, hj]

/-- A thread changes its queue while it has fetched nothing. -/
theorem setRunning_update_of_none (h : fetched i = none) (queue : ThreadQueue) :
    setRunning (Function.update queues i queue) fetched =
      Function.update (setRunning queues fetched) i queue := by
  have hfetched : Function.update fetched i none = fetched :=
    Function.update_eq_self_iff.mpr h.symm
  have hupdate : setRunning (Function.update queues i queue) (Function.update fetched i none) =
      Function.update (setRunning queues fetched) i queue := setRunning_update queue none
  rwa [hfetched] at hupdate

theorem or_update (starting : Fin n → Option (Fin queueSize)) (slot : Option (Fin queueSize)) :
    (fun j => (Function.update fetched i slot j).or (starting j)) =
      Function.update (fun j => (fetched j).or (starting j)) i (slot.or (starting i)) := by
  ext j : 1
  by_cases hj : j = i
  · subst hj
    simp
  · simp [hj]

end SetRunning

variable {s t : FetchState n} {e : WakeEvent n}

theorem between_start (jobQueues : Fin n → Fin queueSize → Option QueueJob) :
    (start jobQueues).Between :=
  fun _ h => absurd rfl h

theorem fused_of_none (h : ∀ i, s.fetched i = none) : s.fused = s.work := by
  simp [fused, setRunning_none h, h]

/-- The second step of a fetch is not one of the fused state. -/
theorem fused_setRunning {thread : Fin n} (h : s.Between)
    (ht : fetchStep s (.setRunning thread) = some t) : t.Between ∧ t.fused = s.fused := by
  obtain ⟨slot, hslot, rfl⟩ := Option.map_eq_some_iff.mp ht
  constructor
  · intro i hi
    by_cases hit : i = thread
    · simp [hit] at hi
    · simpa [setQueue, hit] using h i (by simpa [hit] using hi)
  · have hqueues : setRunning (Function.update s.work.wake.sched.threadQueueList thread
          ((s.work.wake.sched.threadQueueList thread).setJobStatus slot .running))
        (Function.update s.fetched thread none) =
          setRunning s.work.wake.sched.threadQueueList s.fetched := by
      rw [setRunning_update, Option.elim_none, Function.update_eq_self_iff]
      simp [setRunning, hslot]
    have hstarting : (fun i => (Function.update s.fetched thread none i).or
        (Function.update s.work.starting thread (some slot) i)) =
          fun i => (s.fetched i).or (s.work.starting i) := by
      ext i : 1
      by_cases hit : i = thread
      · subst hit
        simp [hslot]
      · simp [hit]
    simp only [fused, setQueue, SchedState.setQueue, hqueues, hstarting]

theorem fused_getNextTask {thread : Fin n} (h : s.Between)
    (ht : fetchStep s (.step (.getNextTask thread)) = some t) :
    t.Between ∧ workStep s.fused (.getNextTask thread) = some t.fused := by
  simp only [fetchStep] at ht
  split_ifs at ht with hfree
  obtain ⟨hfetched, hstarting, hclosing⟩ := hfree
  cases ht
  have hqueue : s.fused.wake.sched.threadQueueList thread =
      s.work.wake.sched.threadQueueList thread := setRunning_of_none hfetched
  have hnone : Function.update s.fused.starting thread none = s.fused.starting := by
    simp [fused, hfetched, hstarting]
  have hstep : workStep s.fused (.getNextTask thread) = some
      ⟨s.fused.wake.getNextTask thread, Function.update s.fused.starting thread
        (WorkState.fetched (s.work.wake.sched.threadQueueList thread))⟩ := by
    have hopen : s.fused.wake.closing thread = false := hclosing
    have hidle : s.fused.starting thread = none := by simp [fused, hfetched, hstarting]
    simp [workStep, WakeState.wakeStep, hidle, hopen, hqueue]
  rw [hstep]
  rcases hnext : (s.work.wake.sched.threadQueueList thread).getNextTask with ⟨_ | job, queue⟩
  · have hstate : s.getNextTask thread = s.setQueue thread queue := by
      simp [getNextTask, hnext]
    rw [hstate]
    refine ⟨h, ?_⟩
    simp only [WakeState.getNextTask, WorkState.fetched, hqueue, hnext, hnone]
    simp only [fused, setQueue, SchedState.setQueue, setRunning_update_of_none hfetched]
  · cases hdone : job.isJobStatusSet .done with
    | true =>
      have hstate : s.getNextTask thread =
          { s with work := { s.work with wake := { s.work.wake with
            sched := s.work.wake.sched.setQueue thread queue
            closing := Function.update s.work.wake.closing thread true } } } := by
        simp [getNextTask, hnext, hdone]
      rw [hstate]
      refine ⟨fun i hi => ?_, ?_⟩
      · have hit : i ≠ thread := by
          rintro rfl
          exact hi hfetched
        simpa [hit] using h i hi
      · simp only [WakeState.getNextTask, WorkState.fetched, hqueue, hnext, hdone, if_true, hnone]
        simp only [fused, SchedState.setQueue, setRunning_update_of_none hfetched]
    | false =>
      have hstate : s.getNextTask thread = { s.setQueue thread queue with
          fetched := Function.update s.fetched thread (some queue.head) } := by
        simp [getNextTask, hnext, hdone]
      rw [hstate]
      refine ⟨fun i hi => ?_, ?_⟩
      · by_cases hit : i = thread
        · subst hit
          exact ⟨hstarting, hclosing⟩
        · simpa [setQueue, hit] using h i (by simpa [hit] using hi)
      · simp only [WakeState.getNextTask, WorkState.fetched, hqueue, hnext, hdone,
          Bool.false_eq_true, if_false]
        simp only [fused, setQueue, SchedState.setQueue, setRunning_update, or_update,
          Option.elim_some, Option.some_or]

/-- A thread that runs a job has fetched no other one. -/
theorem fused_startReturns {thread : Fin n} {slot : Fin queueSize} {status : JobStatus}
    (h : s.Between) (ht : fetchStep s (.step (.startReturns thread slot status)) = some t) :
    t.Between ∧ workStep s.fused (.startReturns thread slot status) = some t.fused := by
  obtain ⟨work, hwork, rfl⟩ := Option.map_eq_some_iff.mp ht
  simp only [workStep] at hwork
  split_ifs at hwork with hslot
  obtain ⟨wake, hwake, rfl⟩ := Option.map_eq_some_iff.mp hwork
  obtain ⟨sched, hsched, rfl⟩ := Option.map_eq_some_iff.mp hwake
  simp only [SchedState.schedStep] at hsched
  split_ifs at hsched with hrunning
  cases hsched
  have hfetched : s.fetched thread = none := by
    by_contra hfetched
    cases (h thread hfetched).1.symm.trans hslot
  have hqueue : setRunning s.work.wake.sched.threadQueueList s.fetched thread =
      s.work.wake.sched.threadQueueList thread := setRunning_of_none hfetched
  have hstarting : (s.fetched thread).or (s.work.starting thread) = some slot := by
    simp [hfetched, hslot]
  have hstopped : (fun i => (s.fetched i).or (Function.update s.work.starting thread none i)) =
      Function.update (fun i => (s.fetched i).or (s.work.starting i)) thread none := by
    ext i : 1
    by_cases hit : i = thread
    · subst hit
      simp [hfetched]
    · simp [hit]
  refine ⟨fun i hi => ?_, ?_⟩
  · have hit : i ≠ thread := by
      rintro rfl
      exact hi hfetched
    obtain ⟨hidle, hopen⟩ := h i hi
    refine ⟨?_, hopen⟩
    dsimp only
    split_ifs
    · exact hidle
    · simpa [hit] using hidle
  · simp only [workStep, WakeState.wakeStep, SchedState.schedStep, fused, hstarting, hqueue,
      hrunning, if_true, Option.map_some, SchedState.setQueue, Function.update_self,
      setRunning_update_of_none hfetched]
    split_ifs
    · rfl
    · rw [hstopped]

theorem fused_markTaskAsComplete {thread : Fin n} (h : s.Between)
    (ht : fetchStep s (.step (.markTaskAsComplete thread)) = some t) :
    t.Between ∧ workStep s.fused (.markTaskAsComplete thread) = some t.fused := by
  obtain ⟨work, hwork, rfl⟩ := Option.map_eq_some_iff.mp ht
  obtain ⟨hclosing, rfl⟩ := markTaskAsComplete_cases hwork
  have hfetched : s.fetched thread = none := by
    by_contra hfetched
    cases (h thread hfetched).2.symm.trans hclosing
  have hqueue : setRunning s.work.wake.sched.threadQueueList s.fetched thread =
      s.work.wake.sched.threadQueueList thread := setRunning_of_none hfetched
  refine ⟨fun i hi => ?_, ?_⟩
  · have hit : i ≠ thread := by
      rintro rfl
      exact hi hfetched
    simpa [SchedState.complete, SchedState.setQueue, hit] using h i hi
  · simp only [workStep, WakeState.wakeStep, fused, hclosing, if_true, Option.map_some,
      SchedState.complete, SchedState.setQueue, hqueue, setRunning_update_of_none hfetched]

/-- Outside of the rounds and the queues nothing depends on the fetched jobs. -/
theorem fused_other (h : s.Between)
    (he : (∃ newProc args priority starveCounter,
        e = .pushTask newProc args priority starveCounter) ∨
      e = .signalSeen ∨ e = .signalUnseen ∨ e = .enterWait)
    (ht : fetchStep s (.step e) = some t) : t.Between ∧ workStep s.fused e = some t.fused := by
  rcases he with ⟨newProc, args, priority, starveCounter, rfl⟩ | rfl | rfl | rfl
  · obtain ⟨work, hwork, rfl⟩ := Option.map_eq_some_iff.mp ht
    obtain ⟨wake, hwake, rfl⟩ := Option.map_eq_some_iff.mp hwork
    simp only [WakeState.wakeStep] at hwake
    split at hwake
    · rename_i hnone
      cases hwake
      refine ⟨h, ?_⟩
      simp only [workStep, WakeState.wakeStep, fused, hnone, Option.map_some]
    · rename_i taskPool hpool
      cases hwake
      refine ⟨h, ?_⟩
      simp only [workStep, WakeState.wakeStep, fused, hpool, Option.map_some]
  all_goals
    obtain ⟨work, hwork, rfl⟩ := Option.map_eq_some_iff.mp ht
    obtain ⟨wake, hwake, rfl⟩ := Option.map_eq_some_iff.mp hwork
    simp only [WakeState.wakeStep] at hwake
    split_ifs at hwake with hcount
    cases hwake
    refine ⟨h, ?_⟩
    simp only [workStep, WakeState.wakeStep, fused, hcount, if_true, if_false, Option.map_some]

theorem fused_loopBody {fuel : ℕ} (h : ∀ i, s.fetched i = none)
    (ht : fetchStep s (.step (.loopBody fuel)) = some t) :
    t.Between ∧ workStep s.fused (.loopBody fuel) = some t.fused := by
  obtain ⟨work, hwork, rfl⟩ := Option.map_eq_some_iff.mp ht
  refine ⟨fun i hi => absurd (h i) hi, ?_⟩
  rw [fused_of_none h, hwork, fused_of_none (by exact h)]

/-- As long as no round comes between the two steps of a fetch, the threads do what they do
when a fetch is one step. -/
theorem fused_step (h : s.Between) (hleaves : s.LeavesFetched (.step e))
    (ht : fetchStep s (.step e) = some t) : t.Between ∧ workStep s.fused e = some t.fused := by
  cases e with
  | getNextTask thread => exact fused_getNextTask h ht
  | startReturns thread slot status => exact fused_startReturns h ht
  | markTaskAsComplete thread => exact fused_markTaskAsComplete h ht
  | loopBody fuel => exact fused_loopBody hleaves ht
  | pushTask newProc args priority starveCounter =>
    exact fused_other h (.inl ⟨_, _, _, _, rfl⟩) ht
  | signalSeen => exact fused_other h (.inr (.inl rfl)) ht
  | signalUnseen => exact fused_other h (.inr (.inr (.inl rfl))) ht
  | enterWait => exact fused_other h (.inr (.inr (.inr rfl))) ht

/-- A run, without the second steps of the fetches. -/
theorem fused_of_exec (h : s.Between) {events : List (FetchEvent n)}
    (hG : Guarded fetchStep LeavesFetched s events) (hrun : exec fetchStep s events = some t) :
    t.Between ∧ ∃ es, exec workStep s.fused es = some t.fused ∧ ∀ e ∈ es, .step e ∈ events := by
  induction events generalizing s with
  | nil =>
    cases hrun
    exact ⟨h, [], rfl, by simp⟩
  | cons event events ih =>
    obtain ⟨u, hu, hrest⟩ := exec_cons_eq_some.mp hrun
    cases event with
    | step e =>
      obtain ⟨hbetween, hstep⟩ := fused_step h hG.1 hu
      obtain ⟨ht, es, hes, hmem⟩ := ih hbetween (hG.2 u hu) hrest
      refine ⟨ht, e :: es, exec_cons_eq_some.mpr ⟨_, hstep, hes⟩, ?_⟩
      rw [List.forall_mem_cons]
      exact ⟨List.mem_cons_self .., fun e' he' => List.mem_cons_of_mem _ (hmem e' he')⟩
    | setRunning thread =>
      obtain ⟨hbetween, hsame⟩ := fused_setRunning h hu
      obtain ⟨ht, es, hes, hmem⟩ := ih hbetween (hG.2 u hu) hrest
      rw [hsame] at hes
      exact ⟨ht, es, hes, fun e' he' => List.mem_cons_of_mem _ (hmem e' he')⟩

/-- The event accepts no task. -/
def AcceptsNone : FetchEvent n → Prop
  | .step e => WorkState.AcceptsNone e
  | .setRunning _ => True

/-- A run in which no round comes between the two steps of a fetch, and no task is
accepted. -/
structure DrainRun (s t : FetchState n) (events : List (FetchEvent n)) : Prop where
  run : exec fetchStep s events = some t
  leaves : Guarded fetchStep LeavesFetched s events
  accepts : ∀ e ∈ events, AcceptsNone e

theorem DrainRun.trans {u : FetchState n} {first second : List (FetchEvent n)}
    (hfirst : DrainRun s t first) (hsecond : DrainRun t u second) :
    DrainRun s u (first ++ second) := by
  refine ⟨exec_trans hfirst.run hsecond.run, hfirst.leaves.append fun v hv => ?_, ?_⟩
  · cases hfirst.run.symm.trans hv
    exact hsecond.leaves
  · rw [List.forall_mem_append]
    exact ⟨hfirst.accepts, hsecond.accepts⟩

theorem DrainRun.single {event : FetchEvent n} (h : fetchStep s event = some t)
    (hleaves : s.LeavesFetched event) (haccepts : AcceptsNone event) : DrainRun s t [event] :=
  ⟨exec_cons_eq_some.mpr ⟨t, h, rfl⟩, ⟨hleaves, fun _ _ => trivial⟩, by simpa using haccepts⟩

/-- The threads that have fetched a job set it running. -/
theorem exists_setRunning (h : s.Between) :
    ∃ events t, DrainRun s t events ∧ events.length ≤ n ∧ (∀ i, t.fetched i = none) ∧
      t.work = s.fused := by
  have hstep : ∀ u : FetchState n, u.Between ∧ u.fused = s.fused → ¬ (∀ i, u.fetched i = none) →
      ∃ e v, (∃ thread, e = .setRunning thread) ∧ fetchStep u e = some v ∧
        (v.Between ∧ v.fused = s.fused) ∧
        (Finset.univ.filter fun i => v.fetched i ≠ none).card <
          (Finset.univ.filter fun i => u.fetched i ≠ none).card := by
    rintro u ⟨hu, hsame⟩ hnot
    obtain ⟨thread, hthread⟩ := not_forall.mp hnot
    obtain ⟨slot, hslot⟩ := Option.ne_none_iff_exists'.mp hthread
    obtain ⟨v, hv⟩ : ∃ v, fetchStep u (.setRunning thread) = some v := by
      simp [fetchStep, hslot]
    have hfetched : v.fetched = Function.update u.fetched thread none := by
      obtain ⟨_, _, rfl⟩ := Option.map_eq_some_iff.mp hv
      rfl
    obtain ⟨hbetween, hfused⟩ := fused_setRunning hu hv
    refine ⟨_, v, ⟨thread, rfl⟩, hv, ⟨hbetween, hfused.trans hsame⟩, Finset.card_lt_card ?_⟩
    rw [Finset.ssubset_iff_of_subset]
    · exact ⟨thread, by simp [hthread], by simp [hfetched]⟩
    · intro i
      by_cases hi : i = thread <;> simp [hfetched, hi]
  obtain ⟨events, t, hrun, hset, hlength, ⟨_, hfused⟩, hnone⟩ := exists_run_to hstep ⟨h, rfl⟩
  refine ⟨events, t, ⟨hrun, .of_forall ?_ _, ?_⟩, hlength.trans ?_, hnone, ?_⟩
  · intro e he u
    obtain ⟨_, rfl⟩ := hset e he
    trivial
  · intro e he
    obtain ⟨_, rfl⟩ := hset e he
    trivial
  · simpa using Finset.card_filter_le Finset.univ fun i => s.fetched i ≠ none
  · rw [← fused_of_none hnone, hfused]

theorem fetched_getNextTask_of_ne {i thread : Fin n} (hi : i ≠ thread) :
    (s.getNextTask thread).fetched i = s.fetched i := by
  unfold getNextTask
  split
  · rfl
  · split_ifs
    · rfl
    · simp [hi]

/-- A fetch that is one step is made in two at most. -/
theorem exists_getNextTask (hnone : ∀ i, s.fetched i = none) {thread : Fin n}
    {work : WorkState n} (hwork : workStep s.work (.getNextTask thread) = some work) :
    ∃ events t, DrainRun s t events ∧ events.length ≤ 2 ∧ (∀ i, t.fetched i = none) ∧
      t.work = work := by
  have hbetween : s.Between := fun i hi => absurd (hnone i) hi
  have hfree : s.fetched thread = none ∧ s.work.starting thread = none ∧
      s.work.wake.closing thread = false := by
    simp only [workStep] at hwork
    split_ifs at hwork with hstarting
    obtain ⟨wake, hwake, rfl⟩ := Option.map_eq_some_iff.mp hwork
    simp only [WakeState.wakeStep] at hwake
    split_ifs at hwake with hclosing
    exact ⟨hnone thread, hstarting, by simpa using hclosing⟩
  have ht : fetchStep s (.step (.getNextTask thread)) = some (s.getNextTask thread) := if_pos hfree
  have hfetch : DrainRun s (s.getNextTask thread) [.step (.getNextTask thread)] :=
    .single ht trivial trivial
  obtain ⟨hbetween', hfused⟩ := fused_getNextTask hbetween ht
  rw [fused_of_none hnone, hwork, Option.some.injEq] at hfused
  cases hslot : (s.getNextTask thread).fetched thread with
  | none =>
    have hnone' : ∀ i, (s.getNextTask thread).fetched i = none := by
      intro i
      by_cases hi : i = thread
      · rwa [hi]
      · rw [fetched_getNextTask_of_ne hi, hnone i]
    exact ⟨_, _, hfetch, by simp, hnone', by rw [hfused, fused_of_none hnone']⟩
  | some slot =>
    obtain ⟨u, hu⟩ : ∃ u, fetchStep (s.getNextTask thread) (.setRunning thread) = some u := by
      simp [fetchStep, hslot]
    have hset : DrainRun (s.getNextTask thread) u [.setRunning thread] :=
      .single hu trivial trivial
    have hnone' : ∀ i, u.fetched i = none := by
      obtain ⟨_, _, rfl⟩ := Option.map_eq_some_iff.mp hu
      intro i
      by_cases hi : i = thread
      · simp [hi]
      · simp [hi, fetched_getNextTask_of_ne hi, hnone i]
    refine ⟨_, u, hfetch.trans hset, by simp, hnone', ?_⟩
    rw [hfused, ← (fused_setRunning hbetween' hu).2, fused_of_none hnone']

/-- A run in which a fetch is one step can be made when it is two. -/
theorem exists_drainRun (hnone : ∀ i, s.fetched i = none) {es : List (WakeEvent n)}
    {work : WorkState n} (hwork : exec workStep s.work es = some work)
    (haccepts : ∀ e ∈ es, WorkState.AcceptsNone e) :
    ∃ events t, DrainRun s t events ∧ events.length ≤ 2 * es.length ∧ t.work = work := by
  induction es generalizing s with
  | nil =>
    cases hwork
    exact ⟨[], s, ⟨rfl, trivial, by simp⟩, by simp, rfl⟩
  | cons e es ih =>
    obtain ⟨next, hnext, hwork⟩ := exec_cons_eq_some.mp hwork
    rw [List.forall_mem_cons] at haccepts
    have hfirst : ∃ events t, DrainRun s t events ∧ events.length ≤ 2 ∧
        (∀ i, t.fetched i = none) ∧ t.work = next := by
      have hleaves : s.LeavesFetched (.step e) := by
        unfold LeavesFetched
        split
        · exact hnone
        · trivial
      have hother : fetchStep s (.step e) = some ⟨next, s.fetched⟩ →
          ∃ events t, DrainRun s t events ∧ events.length ≤ 2 ∧ (∀ i, t.fetched i = none) ∧
            t.work = next := fun ht =>
        ⟨_, _, .single ht hleaves haccepts.1, by simp, hnone, rfl⟩
      cases e with
      | getNextTask thread => exact exists_getNextTask hnone hnext
      | _ => exact hother (by simp [fetchStep, hnext])
    obtain ⟨first, t, hfirst, hlength, hnone', rfl⟩ := hfirst
    obtain ⟨second, u, hsecond, hlength', hu⟩ := ih hnone' hwork haccepts.2
    refine ⟨first ++ second, u, hfirst.trans hsecond, ?_, hu⟩
    rw [List.length_append, List.length_cons]
    omega

/-- Each accepted task can be completed without another one being accepted. -/
def Drains (s : FetchState n) : Prop :=
  ∃ events t, DrainRun s t events ∧
    events.length ≤ 14 * s.work.wake.sched.taskPool.length + 35 * n + 4 ∧
    t.work.wake.sched.completed.Perm (List.range s.work.wake.sched.allocated)

theorem Drains.of_fused (h : s.Between) (hdrain : s.fused.CanDrain) : s.Drains := by
  obtain ⟨first, t, hfirst, hlength, hnone, hwork⟩ := exists_setRunning h
  obtain ⟨es, work, hes, haccepts, hbound, hperm⟩ := hdrain
  rw [← hwork] at hes
  obtain ⟨second, u, hsecond, hlength', rfl⟩ := exists_drainRun hnone hes haccepts
  have hpool : s.fused.wake.sched.taskPool = s.work.wake.sched.taskPool := rfl
  refine ⟨first ++ second, u, hfirst.trans hsecond, ?_, hperm⟩
  rw [hpool] at hbound
  rw [List.length_append]
  omega

theorem stranded_fused : s.fused.Stranded ↔ s.work.Stranded := by
  have hempty : (∀ i slot, (s.fused.wake.sched.threadQueueList i).occupied slot = none) ↔
      ∀ i slot, (s.work.wake.sched.threadQueueList i).occupied slot = none := by
    refine forall_congr' fun i => forall_congr' fun slot => ?_
    cases hslot : s.fetched i with
    | none => simp [fused, hslot]
    | some k =>
      by_cases hk : slot = k
      · subst hk
        simp [fused, setRunning, hslot, ThreadQueue.occupied_setJobStatus]
      · simp [fused, setRunning, hslot, ThreadQueue.occupied_setJobStatus, hk]
  constructor
  · exact fun h => ⟨h.phase, h.seen, h.unseen, h.pool, hempty.mp h.empty⟩
  · exact fun h => ⟨h.phase, h.seen, h.unseen, h.pool, hempty.mpr h.empty⟩

/-- The fused state of a run is one that working threads reach. -/
theorem working_of_exec (jobQueues : Fin n → Fin queueSize → Option QueueJob)
    {events : List (FetchEvent n)}
    (hG : Guarded fetchStep LeavesFetched (start jobQueues) events)
    (h : exec fetchStep (start jobQueues) events = some s) : s.Between ∧ s.fused.Working := by
  obtain ⟨hbetween, es, hes, _⟩ := fused_of_exec (between_start jobQueues) hG h
  rw [fused_of_none (fun _ => rfl)] at hes
  exact ⟨hbetween, WorkState.working_of_exec hes⟩

/-- As long as no round comes between the two steps of a fetch, all accepted tasks can be
completed, without another one being accepted, exactly when no process of type zero waits
and the pool is not stranded. -/
theorem drains_iff (hn : 0 < n) (jobQueues : Fin n → Fin queueSize → Option QueueJob)
    {events : List (FetchEvent n)}
    (hG : Guarded fetchStep LeavesFetched (start jobQueues) events)
    (h : exec fetchStep (start jobQueues) events = some s) :
    s.Drains ↔ s.work.wake.sched.Divides ∧ ¬ s.work.Stranded := by
  obtain ⟨hbetween, hworking⟩ := working_of_exec jobQueues hG h
  rw [← stranded_fused]
  constructor
  · rintro ⟨events, t, hdrain, _, hperm⟩
    obtain ⟨_, es, hes, hmem⟩ := fused_of_exec hbetween hdrain.leaves hdrain.run
    exact hworking.divides_and_not_stranded hes (fun e he => hdrain.accepts _ (hmem e he)) hperm
  · rintro ⟨hdivides, hstranded⟩
    exact .of_fused hbetween (hworking.canDrain hn hdivides hstranded)

/-- The signal that finds the scheduler thread waiting lets the task be completed, and the
one that comes too soon does not. -/
theorem drains_iff_signals :
    (∃ s, exec fetchStep (start fun _ _ => none) (signalled.map .step) = some s ∧ s.Drains) ∧
    (∃ s, exec fetchStep (start fun _ _ => none) (signalledTooSoon.map .step) = some s ∧
      ¬ s.Drains) := by
  have hfound : (exec fetchStep (start fun _ _ => none) (signalled.map .step)).map
      (fun s => s.work.wake.sched.taskPool) = some [] := by decide
  have hlost : (exec fetchStep (start fun _ _ => none) (signalledTooSoon.map .step)).map (fun s =>
      (s.work.wake.phase, s.work.wake.seen, s.work.wake.unseen, s.work.wake.sched.taskPool.length,
        decide (∀ i slot, (s.work.wake.sched.threadQueueList i).occupied slot = none))) =
        some (.waiting, 0, 0, 1, true) := by decide
  constructor
  · obtain ⟨s, hs, hpool⟩ := Option.map_eq_some_iff.mp hfound
    refine ⟨s, hs, (drains_iff Nat.one_pos _ (by decide) hs).mpr ⟨?_, fun hstranded => ?_⟩⟩
    · rw [SchedState.Divides, hpool]
      exact fun _ hmem => absurd hmem List.not_mem_nil
    · exact hstranded.pool hpool
  · obtain ⟨s, hs, hobserved⟩ := Option.map_eq_some_iff.mp hlost
    simp only [Prod.mk.injEq, decide_eq_true_eq] at hobserved
    obtain ⟨hphase, hseen, hunseen, hlength, hempty⟩ := hobserved
    refine ⟨s, hs, fun hdrain => ((drains_iff Nat.one_pos _ (by decide) hs).mp hdrain).2 ?_⟩
    refine ⟨by simp [hphase], hseen, hunseen, fun hnil => ?_, hempty⟩
    simp [hnil] at hlength

/-- No signal of a later change comes between a round and the wait. -/
def SignalsWait (s : FetchState n) : FetchEvent n → Prop
  | .step e => s.work.wake.SignalsWait e
  | .setRunning _ => True

/-- The process of a task that is pushed is not of type zero. -/
def PushesTyped : FetchEvent n → Prop
  | .step e => WorkState.PushesTyped e
  | .setRunning _ => True

/-- What every step keeps that meets the three conditions. -/
structure Ready (s : FetchState n) : Prop where
  between : s.Between
  working : s.fused.Working
  attended : s.fused.wake.Attended
  divides : s.fused.wake.sched.Divides

theorem Ready.step {event : FetchEvent n} (h : s.Ready) (hleaves : s.LeavesFetched event)
    (hsignal : s.SignalsWait event) (htyped : PushesTyped event)
    (ht : fetchStep s event = some t) : t.Ready := by
  cases event with
  | step e =>
    obtain ⟨hbetween, hstep⟩ := fused_step h.between hleaves ht
    have hwake := wakeStep_of_workStep hstep
    exact ⟨hbetween, h.working.step hstep, h.attended.step hsignal hwake,
      divides_step h.working h.divides htyped hstep⟩
  | setRunning thread =>
    obtain ⟨hbetween, hsame⟩ := fused_setRunning h.between ht
    exact ⟨hbetween, hsame ▸ h.working, hsame ▸ h.attended, hsame ▸ h.divides⟩

theorem ready_start (jobQueues : Fin n → Fin queueSize → Option QueueJob) :
    (start jobQueues).Ready := by
  have hfused : (start jobQueues).fused = .start jobQueues := fused_of_none fun _ => rfl
  refine ⟨between_start jobQueues, ?_, ?_, ?_⟩
  · rw [hfused]
    exact working_start jobQueues
  · rw [hfused]
    exact WakeState.attended_start jobQueues
  · exact fun _ hmem => absurd hmem List.not_mem_nil

/-- When no round comes between the two steps of a fetch, no signal of a later change reaches
the scheduler thread between its round and its wait, and no process is of type zero, all
accepted tasks can be completed from every state of the run. -/
theorem drains_of_signalsWait (hn : 0 < n)
    (jobQueues : Fin n → Fin queueSize → Option QueueJob) {events : List (FetchEvent n)}
    (htyped : ∀ e ∈ events, PushesTyped e)
    (hleaves : Guarded fetchStep LeavesFetched (start jobQueues) events)
    (hsignals : Guarded fetchStep SignalsWait (start jobQueues) events)
    (h : exec fetchStep (start jobQueues) events = some s) : s.Drains := by
  have hG := (hleaves.and hsignals).and
    (.of_forall (G := fun _ e => PushesTyped e) (fun e he _ => htyped e he) _)
  have hready : s.Ready :=
    hG.invariant (fun _ _ _ hs hG ht => hs.step hG.1.1 hG.1.2 hG.2 ht) (ready_start jobQueues) h
  exact .of_fused hready.between
    (hready.working.canDrain hn hready.divides (not_stranded hready.attended hn))

/-- A round comes after the thread has fetched the job and set it running. -/
def atWork : List (FetchEvent 1) :=
  [.step receiverTask, .step (.loopBody 2), .step (.getNextTask 0), .step .enterWait,
    .setRunning 0, .step .signalSeen, .step (.loopBody 2)]

theorem drains_atWork :
    ∃ s, exec fetchStep (start fun _ _ => none) atWork = some s ∧ s.Drains := by
  have hrun : (exec fetchStep (start fun _ _ => none) atWork).isSome = true := by decide
  have hleaves : Guarded fetchStep LeavesFetched (start fun _ _ => none) atWork := by decide
  obtain ⟨s, hs⟩ := Option.isSome_iff_exists.mp hrun
  refine ⟨s, hs, drains_of_signalsWait Nat.one_pos _ ?_ hleaves (.of_forall ?_ _) hs⟩
  · simp [atWork, receiverTask, PushesTyped, WorkState.PushesTyped]
  · simp [atWork, receiverTask, SignalsWait, WakeState.SignalsWait]

end FetchState

end WorkerUnit
