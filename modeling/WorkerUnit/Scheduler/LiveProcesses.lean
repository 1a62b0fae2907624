import WorkerUnit.Scheduler.JobReferences
import WorkerUnit.Scheduler.ProcessManager

/-!
# Live processes

A process is registered before its task is in the pool, and no call refers to a
process that none referred to before. So every process stays live until it is
unregistered, and its slot refers to a deleted one until it is marked complete.
-/

namespace WorkerUnit

open StepSystem

/-- `popJob` looks only at jobs in slots whose flag is clear. -/
theorem ThreadQueue.exists_of_mem_popReads {q : ThreadQueue} {is : List (Fin queueSize)}
    {address : ℕ} (h : address ∈ q.popReads is) :
    ∃ i job, q.occupied i = some job ∧ job.processTable.address = address := by
  induction is with
  | nil => cases h
  | cons i is ih =>
    simp only [popReads] at h
    split_ifs at h with hdone
    · exact ih h
    · split at h
      · cases h
      · rename_i job hjob
        rcases List.mem_cons.mp h with rfl | h
        · exact ⟨i, job, by simp [occupied, hdone, hjob], rfl⟩
        · split_ifs at h
          · cases h
          · exact ih h

namespace LiveState

variable {n : ℕ} {s t : LiveState n} {thread : Fin n} {status : JobStatus} {address : ℕ}

/-- What one call of a task thread does. -/
inductive ThreadStep (s : LiveState n) (thread : Fin n) : LiveState n → Prop where
  | fetch (steal : StealState n) (call : WorkerCall) (hcall : s.calls thread = .getNextTask)
      (hnext : call ≠ .markTaskAsComplete)
      (hsteal : StealState.stealStep s.steal (.getNextTask thread) = some steal) :
      ThreadStep s thread ((s.withSteal steal).goTo thread call)
  | goTo (call : WorkerCall) (hcall : s.calls thread ≠ .markTaskAsComplete)
      (hnext : call ≠ .markTaskAsComplete) : ThreadStep s thread (s.goTo thread call)
  | unregister (job : QueueJob) (hcall : s.calls thread = .unregisterProcess)
      (hjob : (s.steal.workers thread).job = some job) :
      ThreadStep s thread
        { s.goTo thread .markTaskAsComplete with
          pidVector := s.pidVector.erase job.processTable.address }
  | complete (steal : StealState n) (job : QueueJob) (hcall : s.calls thread = .markTaskAsComplete)
      (hjob : (s.steal.workers thread).job = some job)
      (hsteal : s.steal.close thread = some steal) :
      ThreadStep s thread ((s.withSteal steal).goTo thread .getNextTask)
  | setRunning (job : QueueJob) (hcall : s.calls thread = .setRunning)
      (hjob : (s.steal.workers thread).job = some job) :
      ThreadStep s thread
        ((s.withSteal ((s.steal.write job.processTable.address fun job =>
          job.setJobStatus .running).setWorker thread (.running (job.setJobStatus .running)))).goTo
          thread .runStartProcess)
  | write (target : ℕ) (g : QueueJob → QueueJob) (call : WorkerCall) (hg : QueueJob.Keeps g)
      (hcall : s.calls thread ≠ .markTaskAsComplete) (hnext : call ≠ .markTaskAsComplete) :
      ThreadStep s thread ((s.withSteal (s.steal.write target g)).goTo thread call)
  | release (hcall : s.calls thread ≠ .markTaskAsComplete) :
      ThreadStep s thread
        ((s.withSteal (s.steal.setWorker thread .idle)).goTo thread .getNextTask)
  | fail (target : ℕ) (g : QueueJob → QueueJob) (hg : QueueJob.Keeps g)
      (hcall : s.calls thread ≠ .markTaskAsComplete) :
      ThreadStep s thread
        ((s.withSteal ((s.steal.write target g).setWorker thread .idle)).goTo thread .getNextTask)

theorem threadTask_cases (h : s.threadTask thread status = some t) : ThreadStep s thread t := by
  unfold threadTask at h
  split at h
  · rename_i hcall
    obtain ⟨steal, hsteal, rfl⟩ := Option.map_eq_some_iff.mp h
    exact .fetch steal _ hcall (by split_ifs <;> decide) hsteal
  · cases h
  · rename_i hcall _
    cases h
    exact .goTo _ (by simp [hcall]) (by split_ifs <;> decide)
  · rename_i hcall _
    cases h
    exact .goTo _ (by simp [hcall]) (by decide)
  · rename_i job hcall hjob
    cases h
    exact .unregister job hcall hjob
  · rename_i job hcall hjob
    obtain ⟨steal, hsteal, rfl⟩ := Option.map_eq_some_iff.mp h
    exact .complete steal job hcall hjob hsteal
  · rename_i job hcall hjob
    cases h
    exact .setRunning job hcall hjob
  · rename_i hcall _
    cases h
    exact .goTo _ (by simp [hcall]) (by simp)
  · rename_i job result hcall _
    cases h
    exact .write _ _ _ (QueueJob.keeps_setJobStatus _) (by simp [hcall]) (by decide)
  · rename_i hcall _
    cases h
    exact .goTo _ (by simp [hcall]) (by split_ifs <;> decide)
  · rename_i hcall _
    cases h
    exact .goTo _ (by simp [hcall]) (by split_ifs <;> decide)
  · rename_i job hcall _
    dsimp only at h
    split_ifs at h
    · cases h
      exact .fail _ _ QueueJob.keeps_jobErrorHandle (by simp [hcall])
    · cases h
      exact .release (by simp [hcall])

/-- The processes whose tasks are not yet in a queue. -/
def outside (s : LiveState n) : List ℕ :=
  s.taskPool.procTables.map (·.address) ++
    (s.scheduled.map (·.2.procTable.address)).toList

theorem outside_place (s : LiveState n) (threadId : Fin n) (job : QueueJob) :
    (s.place threadId job).outside = s.taskPool.procTables.map (·.address) := by
  simp [outside, place]

/-- Some pointer to the process is left. -/
def Known (s : LiveState n) (address : ℕ) : Prop :=
  address ∈ s.outside ∨ s.steal.Refers address

/-- The task threads know no new process. -/
theorem ThreadStep.refers (h : ThreadStep s thread t) (ht : t.steal.Refers address) :
    s.steal.Refers address := by
  cases h with
  | fetch steal call hcall hnext hsteal => exact StealState.refers_getNextTask hsteal ht
  | goTo call hcall hnext => exact ht
  | unregister job hcall hjob => exact ht
  | complete steal job hcall hjob hsteal => exact StealState.refers_close hsteal ht
  | setRunning job hcall hjob =>
    have hkeep := QueueJob.keeps_setJobStatus .running
    refine StealState.refers_write hkeep (StealState.refers_setWorker ?_ ht)
    intro other hother
    cases hother
    refine .worker thread (QueueJob.writeAt job.processTable.address
      (fun job => job.setJobStatus .running) job) ?_ ((hkeep.writeAt _).address job)
    simp only [StealState.write, StealState.WorkerStage.job_map, hjob]
    rfl
  | write target g call hg hcall hnext => exact StealState.refers_write hg ht
  | release hcall => exact StealState.refers_setWorker (fun _ hidle => by cases hidle) ht
  | fail target g hg hcall =>
    exact StealState.refers_write hg
      (StealState.refers_setWorker (fun _ hidle => by cases hidle) ht)

theorem ThreadStep.outside (h : ThreadStep s thread t) : t.outside = s.outside := by
  cases h <;> rfl

/-- The calls of the scheduler thread on the queues. -/
inductive QueueCall : StealEvent n → Prop where
  | flushFinishedJobs (thread : Fin n) : QueueCall (.flushFinishedJobs thread)
  | rebalance : QueueCall .rebalance
  | popJob : QueueCall .popJob
  | addNewTask : QueueCall .addNewTask

/-- They leave the task threads alone. -/
theorem QueueCall.frame {e : StealEvent n} (he : QueueCall e) {u v : StealState n}
    (h : StealState.stealStep u e = some v) :
    v.allocated = u.allocated ∧ v.workers = u.workers := by
  cases he with
  | flushFinishedJobs thread =>
    simp only [StealState.stealStep] at h
    split_ifs at h
    cases h
    exact ⟨rfl, rfl⟩
  | rebalance =>
    simp only [StealState.stealStep] at h
    split at h
    · cases h
    · obtain ⟨w, _, rfl⟩ := Option.map_eq_some_iff.mp h
      exact ⟨rfl, rfl⟩
  | popJob =>
    simp only [StealState.stealStep] at h
    split at h
    · obtain ⟨r, _, rfl⟩ := Option.map_eq_some_iff.mp h
      exact ⟨rfl, rfl⟩
    · cases h
  | addNewTask =>
    simp only [StealState.stealStep] at h
    split at h
    · cases h
      exact ⟨rfl, rfl⟩
    · cases h

theorem QueueCall.refers {e : StealEvent n} (he : QueueCall e) {steal : StealState n}
    (ht : StealState.stealStep s.steal e = some steal) (h : steal.Refers address) :
    s.steal.Refers address := by
  cases he with
  | flushFinishedJobs thread => exact StealState.refers_flushFinishedJobs ht h
  | rebalance => exact StealState.refers_rebalance ht h
  | popJob => exact StealState.refers_popJob ht h
  | addNewTask => exact StealState.refers_addNewTask ht h

/-- What one call does, whoever makes it. -/
inductive LiveStep (s : LiveState n) : LiveEvent n → LiveState n → Prop where
  | refuse (newProc : ProcessStates) (args : Option Unit) (priority : TaskPriority)
      (starveCounter : ℕ) : LiveStep s (.scheduleTask newProc args priority starveCounter) s
  | register (newProc : ProcessStates) (args : Option Unit) (priority : TaskPriority)
      (starveCounter : ℕ) (taskPool : TaskPool)
      (hpool : (taskPool.procTables.map (·.address)).Perm
        (s.steal.allocated :: s.taskPool.procTables.map (·.address))) :
      LiveStep s (.scheduleTask newProc args priority starveCounter) (s.register taskPool)
  | take (threadId : Fin n) (taskData : TaskData) (taskPool : TaskPool)
      (hscheduled : s.scheduled = none) (hpool : s.taskPool = taskData :: taskPool) :
      LiveStep s .getScheduledTask
        { s with taskPool := taskPool, scheduled := some (threadId, taskData) }
  | place (threadId : Fin n) (taskData : TaskData)
      (hscheduled : s.scheduled = some (threadId, taskData)) :
      LiveStep s .placeTask (s.place threadId (.new taskData.procTable))
  | queues (e : LiveEvent n) (call : StealEvent n) (hcall : QueueCall call)
      (hpop : call = .popJob → e = .popJob) (steal : StealState n)
      (hsteal : StealState.stealStep s.steal call = some steal) :
      LiveStep s e (s.withSteal steal)
  | thread (thread : Fin n) (status : JobStatus) (t : LiveState n) (h : ThreadStep s thread t) :
      LiveStep s (.threadTask thread status) t

theorem liveStep_cases {e : LiveEvent n} (h : liveStep s e = some t) : LiveStep s e t := by
  have hqueues : ∀ call, s.onQueues call = some t → QueueCall call →
      (call = .popJob → e = .popJob) → LiveStep s e t := by
    intro call hon hcall hpop
    unfold onQueues at hon
    split_ifs at hon
    obtain ⟨steal, hsteal, rfl⟩ := Option.map_eq_some_iff.mp hon
    exact .queues e call hcall hpop steal hsteal
  cases e with
  | scheduleTask newProc args priority starveCounter =>
    simp only [liveStep] at h
    split at h
    · cases h
      exact .refuse ..
    · rename_i taskPool hpool
      cases h
      unfold scheduleTask at hpool
      split_ifs at hpool
      cases hpool
      exact .register _ _ _ _ _ ((TaskPool.procTables_pushTask ..).map _)
  | getScheduledTask =>
    simp only [liveStep] at h
    split at h
    · rename_i threadId taskData taskPool _ hscheduled _ hpop
      cases h
      unfold TaskPool.popTask at hpop
      split at hpop
      · cases hpop
      · rename_i hpool
        cases hpop
        exact .take threadId taskData taskPool hscheduled hpool
    · cases h
  | placeTask =>
    simp only [liveStep] at h
    split at h
    · cases h
    · rename_i threadId taskData hscheduled
      obtain ⟨job, hjob, rfl⟩ := Option.map_eq_some_iff.mp h
      rw [initJob_eq_some hjob]
      exact .place threadId taskData hscheduled
  | flushFinishedJobs thread => exact hqueues _ h (.flushFinishedJobs thread) nofun
  | rebalance => exact hqueues _ h .rebalance nofun
  | popJob => exact hqueues _ h .popJob fun _ => rfl
  | addNewTask => exact hqueues _ h .addNewTask nofun
  | threadTask thread status => exact .thread thread status t (threadTask_cases h)

/-- A process that becomes known has been registered. -/
theorem LiveStep.known {e : LiveEvent n} (h : LiveStep s e t) (ht : t.Known address) :
    s.Known address ∨ address ∈ t.pidVector := by
  cases h with
  | refuse => exact .inl ht
  | register newProc args priority starveCounter taskPool hpool =>
    rcases ht with hout | hrefers
    · rcases List.mem_append.mp hout with hin | hin
      · rcases List.mem_cons.mp (hpool.subset hin) with rfl | hold
        · exact .inr (List.mem_append_right _ (List.mem_singleton_self _))
        · exact .inl (.inl (List.mem_append_left _ hold))
      · exact .inl (.inl (List.mem_append_right _ hin))
    · exact .inl (.inr (StealState.refers_allocated hrefers))
  | take threadId taskData taskPool hscheduled hpool =>
    left
    rcases ht with hout | hrefers
    · left
      simp only [outside, hscheduled, hpool] at hout ⊢
      simpa [TaskPool.procTables, or_comm] using hout
    · exact .inr hrefers
  | place threadId taskData hscheduled =>
    left
    rcases ht with hout | hrefers
    · left
      rw [outside_place] at hout
      exact List.mem_append_left _ hout
    · rcases StealState.refers_place hrefers with hold | rfl
      · exact .inr hold
      · exact .inl (by simp [outside, hscheduled, QueueJob.new])
  | queues e call hcall hpop steal hsteal => exact .inl (ht.imp id (hcall.refers hsteal))
  | thread thread status t h => exact .inl (ht.imp (h.outside ▸ ·) h.refers)

/-- The pointers that are left are to live processes, so are the calls. -/
theorem processesLive_of_refers (hrefers : ∀ address, s.steal.Refers address →
    address ∈ s.pidVector) (hcalls : ∀ thread, s.calls thread ≠ .markTaskAsComplete) :
    s.ProcessesLive := by
  have hworker : ∀ thread, ∀ address ∈
      ((s.steal.workers thread).job.map (·.processTable.address)).toList,
        address ∈ s.pidVector := by
    intro thread address haddress
    obtain ⟨job, hjob, heq⟩ := Option.map_eq_some_iff.mp (Option.mem_toList.mp haddress)
    exact hrefers address (.worker thread job hjob heq)
  constructor
  · intro thread slot job hjob
    exact hrefers _ (.slot thread slot job hjob rfl)
  · intro e _ address haddress
    cases e with
    | popJob =>
      simp only [statusAccesses] at haddress
      split at haddress
      · obtain ⟨slot, job, hjob, heq⟩ := ThreadQueue.exists_of_mem_popReads haddress
        exact hrefers address (.slot _ slot job hjob heq)
      · cases haddress
    | threadTask thread status =>
      cases hcall : s.calls thread with
      | markTaskAsComplete => exact absurd hcall (hcalls thread)
      | _ =>
        simp only [statusAccesses, hcall] at haddress
        first
          | exact hworker thread address haddress
          | cases haddress
    | _ => cases haddress

/-- Nothing has been unregistered. -/
structure Registered (s : LiveState n) : Prop where
  known : ∀ address, s.Known address → address ∈ s.pidVector
  calls : ∀ thread, s.calls thread ≠ .markTaskAsComplete

theorem registered_start (jobQueues : Fin n → Fin queueSize → Option QueueJob) :
    (start jobQueues).Registered where
  known := by
    rintro address (hout | hrefers)
    · simp [outside, start, TaskPool.procTables] at hout
    · cases hrefers with
      | slot i slot job h haddress => simp [start, StealState.start] at h
      | popped job h haddress => simp [start, StealState.start] at h
      | worker i job h haddress => cases h
  calls := fun thread => by simp [start]

theorem goTo_calls (s : LiveState n) (thread : Fin n) (call : WorkerCall) (i : Fin n) :
    (s.goTo thread call).calls i = if i = thread then call else s.calls i :=
  Function.update_apply ..

theorem ThreadStep.registered (h : ThreadStep s thread t)
    (hcall : s.calls thread ≠ .unregisterProcess) (hs : s.Registered) :
    t.pidVector = s.pidVector ∧ ∀ i, t.calls i ≠ .markTaskAsComplete := by
  have hgo : ∀ u : LiveState n, ∀ call ≠ .markTaskAsComplete, u.calls = s.calls →
      ∀ i, (u.goTo thread call).calls i ≠ .markTaskAsComplete := by
    intro u call hnext hu i
    rw [goTo_calls, hu]
    split_ifs
    · exact hnext
    · exact hs.calls i
  cases h with
  | fetch steal call _ hnext _ => exact ⟨rfl, hgo _ call hnext rfl⟩
  | goTo call _ hnext => exact ⟨rfl, hgo _ call hnext rfl⟩
  | unregister job hcall' _ => exact absurd hcall' hcall
  | complete steal job hmark _ _ => exact absurd hmark (hs.calls thread)
  | setRunning job _ _ => exact ⟨rfl, hgo _ _ (by decide) rfl⟩
  | write target g call _ _ hnext => exact ⟨rfl, hgo _ call hnext rfl⟩
  | release _ => exact ⟨rfl, hgo _ _ (by decide) rfl⟩
  | fail target g _ _ => exact ⟨rfl, hgo _ _ (by decide) rfl⟩

theorem Registered.step {e : LiveEvent n} (h : s.Registered) (hG : s.KeepsProcesses e)
    (ht : LiveStep s e t) : t.Registered := by
  have hkept : (∀ a ∈ s.pidVector, a ∈ t.pidVector) ∧
      ∀ thread, t.calls thread ≠ .markTaskAsComplete := by
    cases ht with
    | refuse => exact ⟨fun _ => id, h.calls⟩
    | register => exact ⟨fun a ha => List.mem_append_left _ ha, h.calls⟩
    | take => exact ⟨fun _ => id, h.calls⟩
    | place => exact ⟨fun _ => id, h.calls⟩
    | queues => exact ⟨fun _ => id, h.calls⟩
    | thread thread status t hstep =>
      obtain ⟨hpids, hcalls⟩ := hstep.registered (hG thread status rfl) h
      exact ⟨fun a ha => hpids.symm ▸ ha, hcalls⟩
  refine ⟨fun a ha => ?_, hkept.2⟩
  rcases ht.known ha with hold | hnew
  · exact hkept.1 a (h.known a hold)
  · exact hnew

/-- The process of the job that the task thread has. -/
def processOf (s : LiveState n) (thread : Fin n) : Option ℕ :=
  (s.steal.workers thread).job.map (·.processTable.address)

/-- The task thread has unregistered the process and not yet marked its slot. -/
def Closing (s : LiveState n) (thread : Fin n) (address : ℕ) : Prop :=
  s.calls thread = .markTaskAsComplete ∧ s.processOf thread = some address

/-- Each pointer that is left is to a live process or to one whose slot is about to
be marked. -/
structure Tracked (s : LiveState n) : Prop where
  held : s.steal.Held
  outside : s.outside.Nodup
  apart : ∀ address ∈ s.outside, ¬ s.steal.Refers address
  fresh : ∀ address, address ∈ s.outside ∨ address ∈ s.pidVector → address < s.steal.allocated
  pids : s.pidVector.Nodup
  known : ∀ address, s.Known address →
    address ∈ s.pidVector ∨ ∃ thread, s.Closing thread address
  closing : ∀ thread, s.calls thread = .markTaskAsComplete →
    ∃ address, s.processOf thread = some address ∧ address ∉ s.pidVector

/-- A job of a closing thread is still in its slot. -/
theorem Tracked.processesLive_iff (h : s.Tracked) :
    s.ProcessesLive ↔ ∀ thread, s.calls thread ≠ .markTaskAsComplete := by
  constructor
  · intro hlive thread hcall
    obtain ⟨address, hprocess, hdead⟩ := h.closing thread hcall
    obtain ⟨job, hjob, rfl⟩ := Option.map_eq_some_iff.mp hprocess
    exact hdead (hlive.slots thread _ job (h.held.held thread job hjob))
  · intro hcalls
    refine processesLive_of_refers (fun address hrefers => ?_) hcalls
    rcases h.known address (.inr hrefers) with hlive | ⟨thread, hcall, _⟩
    · exact hlive
    · exact absurd hcall (hcalls thread)

theorem tracked_start (jobQueues : Fin n → Fin queueSize → Option QueueJob) :
    (start jobQueues).Tracked where
  held := StealState.held_start jobQueues
  outside := List.nodup_nil
  apart := nofun
  fresh := by simp [outside, start, TaskPool.procTables]
  pids := List.nodup_nil
  known := fun address h => .inl ((registered_start jobQueues).known address h)
  closing := fun thread h => absurd h ((registered_start jobQueues).calls thread)

/-- A call that registers and unregisters nothing, and closes no job. -/
structure Quiet (s t : LiveState n) : Prop where
  outside : t.outside.Perm s.outside
  refers : ∀ address, t.steal.Refers address → s.steal.Refers address
  allocated : t.steal.allocated = s.steal.allocated
  pids : t.pidVector = s.pidVector
  calls : ∀ thread, t.calls thread = s.calls thread ∧ t.processOf thread = s.processOf thread ∨
    t.calls thread ≠ .markTaskAsComplete ∧ s.calls thread ≠ .markTaskAsComplete

theorem Tracked.quiet (h : s.Tracked) (hheld : t.steal.Held) (hquiet : Quiet s t) :
    t.Tracked where
  held := hheld
  outside := hquiet.outside.nodup_iff.mpr h.outside
  apart := fun address hout hrefers =>
    h.apart address (hquiet.outside.subset hout) (hquiet.refers address hrefers)
  fresh := by
    intro address haddress
    rw [hquiet.allocated]
    rw [hquiet.pids, hquiet.outside.mem_iff] at haddress
    exact h.fresh address haddress
  pids := hquiet.pids.symm ▸ h.pids
  known := by
    intro address hknown
    rw [hquiet.pids]
    rcases h.known address (hknown.imp (hquiet.outside.subset ·) (hquiet.refers address)) with
      hlive | ⟨thread, hcall, hprocess⟩
    · exact .inl hlive
    · rcases hquiet.calls thread with ⟨hcalls, hsame⟩ | ⟨_, hnot⟩
      · exact .inr ⟨thread, hcalls.trans hcall, hsame.trans hprocess⟩
      · exact absurd hcall hnot
  closing := by
    intro thread hcall
    rcases hquiet.calls thread with ⟨hcalls, hsame⟩ | ⟨hnot, _⟩
    · rw [hsame, hquiet.pids]
      exact h.closing thread (hcalls.symm.trans hcall)
    · exact absurd hcall hnot

theorem processOf_write (s : LiveState n) (target : ℕ) {g : QueueJob → QueueJob}
    (hg : QueueJob.Keeps g) (thread : Fin n) :
    (s.withSteal (s.steal.write target g)).processOf thread = s.processOf thread := by
  simp only [processOf, withSteal, StealState.write, StealState.WorkerStage.job_map,
    Option.map_map]
  congr 1
  funext job
  exact (hg.writeAt target).address job

/-- Another thread's worker is not the one that is set. -/
theorem processOf_setWorker (s : LiveState n) (steal : StealState n) {thread i : Fin n}
    (hi : i ≠ thread) (worker : WorkerStage) :
    (s.withSteal (steal.setWorker thread worker)).processOf i =
      (s.withSteal steal).processOf i := by
  simp only [processOf, withSteal, StealState.setWorker, Function.update_of_ne hi]

/-- The calls of the other threads stay as they are. -/
theorem quiet_calls {u : LiveState n} {call : WorkerCall} (hu : u.calls = s.calls)
    (hcall : s.calls thread ≠ .markTaskAsComplete) (hnext : call ≠ .markTaskAsComplete)
    (hprocess : ∀ i ≠ thread, u.processOf i = s.processOf i) (i : Fin n) :
    (u.goTo thread call).calls i = s.calls i ∧ (u.goTo thread call).processOf i = s.processOf i ∨
      (u.goTo thread call).calls i ≠ .markTaskAsComplete ∧ s.calls i ≠ .markTaskAsComplete := by
  rw [goTo_calls, hu]
  by_cases hi : i = thread
  · subst hi
    rw [if_pos rfl]
    exact .inr ⟨hnext, hcall⟩
  · rw [if_neg hi]
    exact .inl ⟨rfl, hprocess i hi⟩

theorem getNextTask_frame {steal : StealState n}
    (h : StealState.stealStep s.steal (.getNextTask thread) = some steal) :
    steal.allocated = s.steal.allocated ∧
      ∀ i ≠ thread, (s.withSteal steal).processOf i = s.processOf i := by
  simp only [StealState.stealStep] at h
  split at h
  · cases h
    refine ⟨rfl, fun i hi => ?_⟩
    simp only [processOf, withSteal, StealState.setWorker, StealState.setQueue,
      Function.update_of_ne hi]
  · cases h

theorem close_frame {steal : StealState n} (h : s.steal.close thread = some steal) :
    steal.allocated = s.steal.allocated ∧
      ∀ i ≠ thread, (s.withSteal steal).processOf i = s.processOf i := by
  unfold StealState.close at h
  split at h
  · cases h
  · rename_i job _
    cases h
    refine ⟨rfl, fun i hi => ?_⟩
    rw [processOf_setWorker s _ hi]
    exact processOf_write s job.processTable.address (QueueJob.keeps_setJobStatus .done) i

/-- A process that is unregistered has its slot yet to be marked. -/
theorem Tracked.unregister (h : s.Tracked) {job : QueueJob}
    (hcall : s.calls thread = .unregisterProcess)
    (hjob : (s.steal.workers thread).job = some job) :
    Tracked
      { s.goTo thread .markTaskAsComplete with
        pidVector := s.pidVector.erase job.processTable.address } where
  held := h.held
  outside := h.outside
  apart := h.apart
  fresh := fun address haddress => h.fresh address (haddress.imp id List.mem_of_mem_erase)
  pids := h.pids.erase _
  known := by
    intro address hknown
    by_cases haddress : address = job.processTable.address
    · right
      refine ⟨thread, Function.update_self .., ?_⟩
      rw [haddress]
      exact congrArg (Option.map _) hjob
    · rcases h.known address hknown with hlive | ⟨i, hi, hprocess⟩
      · exact .inl ((List.mem_erase_of_ne haddress).mpr hlive)
      · have hne : i ≠ thread := fun he => by simp [he, hcall] at hi
        exact .inr ⟨i, (Function.update_of_ne hne ..).trans hi, hprocess⟩
  closing := by
    intro i hi
    by_cases hne : i = thread
    · subst hne
      exact ⟨_, congrArg (Option.map _) hjob, h.pids.not_mem_erase⟩
    · obtain ⟨address, hprocess, hdead⟩ :=
        h.closing i ((Function.update_of_ne hne ..).symm.trans hi)
      exact ⟨address, hprocess, fun hlive => hdead (List.mem_of_mem_erase hlive)⟩

/-- No pointer to the process is left when its slot has been marked. -/
theorem Tracked.complete (h : s.Tracked) {job : QueueJob} {steal : StealState n}
    (hjob : (s.steal.workers thread).job = some job)
    (hsteal : s.steal.close thread = some steal) :
    ((s.withSteal steal).goTo thread .getNextTask).Tracked := by
  obtain ⟨hheld, hgone⟩ := h.held.close hjob hsteal
  obtain ⟨hallocated, hprocess⟩ := close_frame hsteal
  have hrefers : ∀ address, steal.Refers address → s.steal.Refers address :=
    fun address => StealState.refers_close hsteal
  have hknown : ∀ address, Known ((s.withSteal steal).goTo thread .getNextTask) address →
      address ≠ job.processTable.address := by
    rintro address (hout | hleft) rfl
    · exact h.apart _ hout (.worker thread job hjob rfl)
    · exact absurd hgone (hheld.jobCount_pos hleft).ne'
  have hapart : ∀ address ∈ s.outside, ¬ steal.Refers address :=
    fun address hout hleft => h.apart address hout (hrefers address hleft)
  refine ⟨hheld, h.outside, hapart, ?_, h.pids, ?_, ?_⟩
  · intro address haddress
    exact (h.fresh address haddress).trans_eq hallocated.symm
  · intro address hleft
    rcases h.known address (hleft.imp id (hrefers address)) with hlive | ⟨i, hi, hat⟩
    · exact .inl hlive
    · by_cases hne : i = thread
      · subst hne
        rw [processOf, hjob, Option.map_some, Option.some.injEq] at hat
        exact absurd hat.symm (hknown address hleft)
      · exact .inr ⟨i, (Function.update_of_ne hne ..).trans hi, (hprocess i hne).trans hat⟩
  · intro i hi
    by_cases hne : i = thread
    · subst hne
      simp [goTo] at hi
    · obtain ⟨address, hat, hdead⟩ := h.closing i ((Function.update_of_ne hne ..).symm.trans hi)
      exact ⟨address, (hprocess i hne).trans hat, hdead⟩

theorem Tracked.threadStep (h : s.Tracked) (ht : ThreadStep s thread t) : t.Tracked := by
  have hrefers : ∀ address, t.steal.Refers address → s.steal.Refers address :=
    fun address => ht.refers
  have hout : t.outside.Perm s.outside := .of_eq ht.outside
  cases ht with
  | fetch steal call hcall hnext hsteal =>
    obtain ⟨hallocated, hprocess⟩ := getNextTask_frame hsteal
    exact h.quiet (h.held.getNextTask hsteal) ⟨hout, hrefers, hallocated, rfl,
      quiet_calls rfl (by simp [hcall]) hnext hprocess⟩
  | goTo call hcall hnext =>
    exact h.quiet h.held ⟨hout, hrefers, rfl, rfl, quiet_calls rfl hcall hnext fun _ _ => rfl⟩
  | unregister job hcall hjob => exact h.unregister hcall hjob
  | complete steal job hcall hjob hsteal => exact h.complete hjob hsteal
  | setRunning job hcall hjob =>
    refine h.quiet (h.held.setRunning hjob) ⟨hout, hrefers, rfl, rfl,
      quiet_calls rfl (by simp [hcall]) (by decide) fun i hi => ?_⟩
    rw [processOf_setWorker s _ hi]
    exact processOf_write s _ (QueueJob.keeps_setJobStatus .running) i
  | write target g call hg hcall hnext =>
    exact h.quiet (h.held.write target hg) ⟨hout, hrefers, rfl, rfl,
      quiet_calls rfl hcall hnext fun i _ => processOf_write s target hg i⟩
  | release hcall =>
    exact h.quiet (h.held.release thread) ⟨hout, hrefers, rfl, rfl,
      quiet_calls rfl hcall (by decide) fun i hi => processOf_setWorker s s.steal hi _⟩
  | fail target g hg hcall =>
    refine h.quiet ((h.held.write target hg).release thread) ⟨hout, hrefers, rfl, rfl,
      quiet_calls rfl hcall (by decide) fun i hi => ?_⟩
    rw [processOf_setWorker s _ hi]
    exact processOf_write s target hg i

/-- No pointer to a process that has not been registered exists. -/
theorem Tracked.not_known (h : s.Tracked) : ¬ s.Known s.steal.allocated := by
  rintro (hout | hrefers)
  · exact absurd (h.fresh _ (.inl hout)) (lt_irrefl _)
  · exact absurd (h.held.fresh _ le_rfl) (h.held.jobCount_pos hrefers).ne'

theorem Tracked.register (h : s.Tracked) {taskPool : TaskPool}
    (hpool : (taskPool.procTables.map (·.address)).Perm
      (s.steal.allocated :: s.taskPool.procTables.map (·.address)))
    (hknown : ∀ address, (s.register taskPool).Known address →
      s.Known address ∨ address ∈ s.pidVector ++ [s.steal.allocated]) :
    (s.register taskPool).Tracked := by
  have hperm : (s.register taskPool).outside.Perm (s.steal.allocated :: s.outside) :=
    hpool.append_right _
  have hnew : s.steal.allocated ∉ s.outside := fun hout => h.not_known (.inl hout)
  refine ⟨h.held.allocate, hperm.nodup_iff.mpr (List.nodup_cons.mpr ⟨hnew, h.outside⟩), ?_, ?_, ?_,
    ?_, ?_⟩
  · intro address hout hrefers
    have hrefers := StealState.refers_allocated hrefers
    rcases List.mem_cons.mp (hperm.subset hout) with rfl | hold
    · exact h.not_known (.inr hrefers)
    · exact h.apart address hold hrefers
  · intro address haddress
    have hpids : (s.register taskPool).pidVector = s.pidVector ++ [s.steal.allocated] := rfl
    rw [hperm.mem_iff, hpids, List.mem_cons, List.mem_append, List.mem_singleton] at haddress
    rcases haddress with (rfl | hold) | hold | rfl
    · exact Nat.lt_succ_self _
    · exact Nat.lt_succ_of_lt (h.fresh address (.inl hold))
    · exact Nat.lt_succ_of_lt (h.fresh address (.inr hold))
    · exact Nat.lt_succ_self _
  · refine List.nodup_append.mpr ⟨h.pids, List.nodup_singleton _, ?_⟩
    intro address hold other hother
    rw [List.mem_singleton.mp hother]
    exact (h.fresh address (.inr hold)).ne
  · intro address hleft
    rcases hknown address hleft with hold | hlive
    · rcases h.known address hold with hlive | hclosing
      · exact .inl (List.mem_append_left _ hlive)
      · exact .inr hclosing
    · exact .inl hlive
  · intro thread hcall
    obtain ⟨address, hprocess, hdead⟩ := h.closing thread hcall
    refine ⟨address, hprocess, fun hlive => ?_⟩
    rcases List.mem_append.mp hlive with hlive | hlive
    · exact hdead hlive
    · obtain ⟨job, hjob, heq⟩ := Option.map_eq_some_iff.mp hprocess
      rw [List.mem_singleton.mp hlive] at heq
      exact h.not_known (.inr (.worker thread job hjob heq))

/-- A scheduled task is in no queue before it is placed. -/
theorem Tracked.place (h : s.Tracked) {threadId : Fin n} {taskData : TaskData}
    (hscheduled : s.scheduled = some (threadId, taskData)) :
    (s.place threadId (.new taskData.procTable)).Tracked := by
  have hout : s.outside =
      s.taskPool.procTables.map (·.address) ++ [taskData.procTable.address] := by
    rw [LiveState.outside, hscheduled]
    rfl
  have hnodup := h.outside
  rw [hout, List.nodup_append] at hnodup
  have hmem : taskData.procTable.address ∈ s.outside := by simp [hout]
  have hpool : ∀ address ∈ s.taskPool.procTables.map (·.address), address ∈ s.outside :=
    fun address haddress => hout ▸ List.mem_append_left _ haddress
  have hnone : s.steal.jobCount taskData.procTable.address = 0 := by
    by_contra hcount
    exact h.apart _ hmem (StealState.refers_of_jobCount hcount)
  have hrest := outside_place s threadId (.new taskData.procTable)
  refine ⟨h.held.add threadId rfl hnone (h.fresh _ (.inl hmem)), ?_, ?_, ?_, h.pids, ?_, h.closing⟩
  · rw [hrest]
    exact hnodup.1
  · intro address hin hrefers
    rw [hrest] at hin
    rcases StealState.refers_place hrefers with hold | rfl
    · exact h.apart address (hpool address hin) hold
    · exact hnodup.2.2 _ hin _ (List.mem_singleton_self _) rfl
  · intro address haddress
    rw [hrest] at haddress
    exact h.fresh address (haddress.imp (hpool address) id)
  · intro address hleft
    apply h.known address
    rcases hleft with hin | hrefers
    · rw [hrest] at hin
      exact .inl (hpool address hin)
    · rcases StealState.refers_place hrefers with hold | rfl
      · exact .inr hold
      · exact .inl hmem

theorem Tracked.step {e : LiveEvent n} (h : s.Tracked) (hG : s.LeavesFetched e)
    (ht : LiveStep s e t) : t.Tracked := by
  cases ht with
  | refuse => exact h
  | register newProc args priority starveCounter taskPool hpool =>
    exact h.register hpool fun address hleft =>
      LiveStep.known (.register newProc args priority starveCounter taskPool hpool) hleft
  | take threadId taskData taskPool hscheduled hpool =>
    refine h.quiet h.held ⟨?_, fun _ => id, rfl, rfl, fun _ => .inl ⟨rfl, rfl⟩⟩
    simp [LiveState.outside, hscheduled, hpool, TaskPool.procTables]
  | place threadId taskData hscheduled => exact h.place hscheduled
  | queues e call hcall hpop steal hsteal =>
    obtain ⟨hallocated, hworkers⟩ := hcall.frame hsteal
    have hleaves : s.steal.LeavesFetched call := fun he => hG (hpop he) rfl
    refine h.quiet (h.held.step hleaves hsteal) ⟨.refl _, fun _ => hcall.refers hsteal,
      hallocated, rfl, fun thread => .inl ⟨rfl, ?_⟩⟩
    rw [processOf, withSteal, hworkers]
    rfl
  | thread thread status t hstep => exact h.threadStep hstep

/-- In a run that unregisters no process, slots and calls refer to live ones. When
`popJob` leaves fetched jobs alone, they do exactly as long as no task thread is
between `unregisterProcess` and `markTaskAsComplete`. -/
theorem processesLive_of_run (jobQueues : Fin n → Fin queueSize → Option QueueJob)
    {events : List (LiveEvent n)} (h : exec liveStep (start jobQueues) events = some s) :
    (Guarded liveStep KeepsProcesses (start jobQueues) events → s.ProcessesLive) ∧
      (Guarded liveStep LeavesFetched (start jobQueues) events →
        (s.ProcessesLive ↔ ∀ thread, s.calls thread ≠ .markTaskAsComplete)) := by
  constructor
  · intro hG
    have hregistered : s.Registered := Guarded.invariant
      (fun _ _ _ hs hG hstep => hs.step hG (liveStep_cases hstep)) (registered_start jobQueues) hG h
    exact processesLive_of_refers (fun address hrefers => hregistered.known address (.inr hrefers))
      hregistered.calls
  · intro hG
    have htracked : s.Tracked := Guarded.invariant
      (fun _ _ _ hs hG hstep => hs.step hG (liveStep_cases hstep)) (tracked_start jobQueues) hG h
    exact htracked.processesLive_iff

/-- A task is scheduled and placed, and its thread makes the given number of calls. -/
def oneTask (thread : Fin 1) (calls : ℕ) : List (LiveEvent 1) :=
  [.scheduleTask ⟨1, true, false, true, true⟩ (some ()) .nonPreemtable 0, .getScheduledTask,
    .placeTask] ++ .replicate calls (.threadTask thread .done)

/-- After `markTaskAsComplete`. -/
theorem processesLive_of_run_oneTask :
    ∃ s, exec liveStep (start fun _ _ => none) (oneTask 0 12) = some s ∧ s.ProcessesLive := by
  have hrun : (exec liveStep (start fun _ _ => none) (oneTask 0 12)).map (·.calls 0) =
      some .getNextTask := by decide
  obtain ⟨s, hs, hcall⟩ := Option.map_eq_some_iff.mp hrun
  refine ⟨s, hs, ((processesLive_of_run _ hs).2 (.of_forall ?_ _)).mpr fun thread => ?_⟩
  · have hnone : ∀ e ∈ oneTask 0 12, e ≠ .popJob := by simp [oneTask]
    exact fun e he _ hpop => absurd hpop (hnone e he)
  · rw [Subsingleton.elim thread 0, hcall]
    decide

/-- After `unregisterProcess` the job is in its slot and its process deleted. -/
theorem not_processesLive_oneTask :
    ¬ ∀ events s, exec liveStep (start fun (_ : Fin 1) _ => none) events = some s →
      s.ProcessesLive := by
  intro h
  have hrun : (exec liveStep (start fun _ _ => none) (oneTask 0 11)).map (fun s =>
      (((s.steal.threadQueueList 0).occupied 0).map (·.processTable.address), s.pidVector)) =
        some (some 0, []) := by decide
  obtain ⟨s, hs, hdead⟩ := Option.map_eq_some_iff.mp hrun
  rw [Prod.mk.injEq, Option.map_eq_some_iff] at hdead
  obtain ⟨⟨job, hjob, _⟩, hpids⟩ := hdead
  have hlive := (h _ s hs).slots 0 0 job hjob
  rw [hpids] at hlive
  cases hlive

end LiveState

end WorkerUnit
