import WorkerUnit.Scheduler.SchedTask

/-!
# Stealing jobs from a busy queue

`rebalance_thread_queues` with `popJob` and `addNewTask` as steps of their own,
and `thread_task` with a step between the fetch of a job and the status that
protects it. Every copy of a job stands for a pointer to it, so a write changes
all the copies with its address.
-/

namespace WorkerUnit

open StepSystem

/-- Where a task thread stands: at the head of its loop, with a job fetched, or in
the loop over `start_proc`. -/
inductive WorkerStage where
  | idle
  | fetched (job : QueueJob)
  | running (job : QueueJob)
  deriving DecidableEq, Repr

namespace WorkerStage

/-- The job between `getNextTask` and the end of its dispatch. -/
def job : WorkerStage → Option QueueJob
  | idle => none
  | fetched job => some job
  | running job => some job

def map (g : QueueJob → QueueJob) : WorkerStage → WorkerStage
  | idle => idle
  | fetched job => fetched (g job)
  | running job => running (g job)

end WorkerStage

/-- A write through a pointer to the job at the address. -/
def QueueJob.writeAt (address : ℕ) (g : QueueJob → QueueJob) (job : QueueJob) : QueueJob :=
  if job.processTable.address = address then g job else job

def ThreadQueue.mapJobs (g : QueueJob → QueueJob) (q : ThreadQueue) : ThreadQueue :=
  { q with jobQueue := fun i => (q.jobQueue i).map g }

/-- `popped` is what `popJob` has returned and `addNewTask` not yet been given. -/
structure StealState (n : ℕ) where
  threadQueueList : Fin n → ThreadQueue
  stage : SchedStage n
  popped : Option (Option QueueJob)
  workers : Fin n → WorkerStage
  allocated : ℕ

inductive StealEvent (n : ℕ) where
  | placeTask (processState : ProcessStates) (priority : TaskPriority)
  | flushFinishedJobs (thread : Fin n)
  | rebalance
  | popJob
  | addNewTask
  | getNextTask (thread : Fin n)
  | dispatch (thread : Fin n)
  | startProc (thread : Fin n) (status : JobStatus)
  deriving DecidableEq

namespace StealState

variable {n : ℕ}

def start (jobQueues : Fin n → Fin queueSize → Option QueueJob) : StealState n :=
  ⟨fun i => .new (jobQueues i), .idle, none, fun _ => .idle, 0⟩

def setQueue (s : StealState n) (thread : Fin n) (queue : ThreadQueue) : StealState n :=
  { s with threadQueueList := Function.update s.threadQueueList thread queue }

def setWorker (s : StealState n) (thread : Fin n) (worker : WorkerStage) : StealState n :=
  { s with workers := Function.update s.workers thread worker }

def write (s : StealState n) (address : ℕ) (g : QueueJob → QueueJob) : StealState n :=
  { s with
    threadQueueList := fun i => (s.threadQueueList i).mapJobs (QueueJob.writeAt address g)
    popped := s.popped.map (Option.map (QueueJob.writeAt address g))
    workers := fun i => (s.workers i).map (QueueJob.writeAt address g) }

/-- The queues and the stage as the scheduler thread sees them. -/
def sched (s : StealState n) : SchedState n :=
  ⟨[], s.threadQueueList, s.stage, [], [], s.allocated⟩

/-- A job that is done: one of the closing callbacks runs, and the slot at the head
is marked complete. -/
def close (s : StealState n) (thread : Fin n) : Option (StealState n) :=
  match (s.threadQueueList thread).jobQueue (s.threadQueueList thread).head with
  | none => none
  | some job =>
    let s := s.write job.processTable.address fun job => job.setJobStatus .done
    some ((s.setQueue thread (s.threadQueueList thread).markTaskAsComplete).setWorker thread .idle)

/-- The loop body after `start_proc` has returned. The timer never asks for a
pause, so a job that is pending is called again. -/
def afterStart (s : StealState n) (thread : Fin n) (job : QueueJob) (status : JobStatus) :
    StealState n :=
  let address := job.processTable.address
  let s := s.write address fun job => job.setJobStatus status
  let job := job.setJobStatus status
  if job.isJobStatusSet .pending && !job.isJobStatusSet .done then s
  else if job.isJobStatusSet .failed then
    (s.write address fun job => { job with jobErrorHandle := true }).setWorker thread .idle
  else s.setWorker thread .idle

/-- A placed task is a new one: the pool hands out each of its tasks once. -/
def stealStep (s : StealState n) : StealEvent n → Option (StealState n)
  | .placeTask processState priority =>
    if s.stage = .idle then
      match getQuickestQueue s.threadQueueList with
      | none => some s
      | some threadId =>
        (initJob (.registered s.allocated processState priority)).map fun job =>
          { s.setQueue threadId ((s.threadQueueList threadId).addNewTask (some job)).2 with
            allocated := s.allocated + 1 }
    else none
  | .flushFinishedJobs thread =>
    if s.stage = .idle then
      some (s.setQueue thread (s.threadQueueList thread).flushFinishedJobs)
    else none
  | .rebalance =>
    match s.stage with
    | .moving _ _ _ => none
    | _ => s.sched.rebalance.map fun t => { s with stage := t.stage }
  | .popJob =>
    match s.stage, s.popped with
    | .moving _ _ busiestThreadId, none =>
      (s.threadQueueList busiestThreadId).popJob.map fun r =>
        { s.setQueue busiestThreadId r.2 with popped := some r.1 }
    | _, _ => none
  | .addNewTask =>
    match s.stage, s.popped with
    | .moving i freeThreadId busiestThreadId, some job =>
      let r := (s.threadQueueList freeThreadId).addNewTask job
      some
        { s.setQueue freeThreadId r.2 with
          popped := none
          stage :=
            if r.1 = 0 then .testing i freeThreadId busiestThreadId else .balancing (i + 1) }
    | _, _ => none
  | .getNextTask thread =>
    match s.workers thread with
    | .idle =>
      let r := (s.threadQueueList thread).getNextTask
      some ((s.setQueue thread r.2).setWorker thread (r.1.elim .idle .fetched))
    | _ => none
  | .dispatch thread =>
    match s.workers thread with
    | .fetched job =>
      if job.isJobStatusSet .done then s.close thread
      else
        let s := s.write job.processTable.address fun job => job.setJobStatus .running
        some (s.setWorker thread (.running (job.setJobStatus .running)))
    | _ => none
  | .startProc thread status =>
    match s.workers thread with
    | .running job => some (s.afterStart thread job status)
    | _ => none

/-- No job is dispatched by two task threads. -/
def NoSharedJob (s : StealState n) : Prop :=
  ∀ thread thread' job job', (s.workers thread).job = some job →
    (s.workers thread').job = some job' →
    job.processTable.address = job'.processTable.address → thread = thread'

/-- `popJob` leaves the jobs that a task thread has fetched and not yet set
running. -/
def LeavesFetched (s : StealState n) (e : StealEvent n) : Prop :=
  e = .popJob → ∀ i freeThreadId busiestThreadId, s.stage = .moving i freeThreadId busiestThreadId →
    ∀ job queue, (s.threadQueueList busiestThreadId).popJob = some (some job, queue) →
      ∀ thread fetched, s.workers thread = .fetched fetched →
        fetched.processTable.address ≠ job.processTable.address

end StealState

/-- A write that moves no job and takes no protection from one. -/
structure QueueJob.Keeps (g : QueueJob → QueueJob) : Prop where
  slice : ∀ job, (g job).cpuSliceMs = job.cpuSliceMs
  address : ∀ job, (g job).processTable.address = job.processTable.address
  running : ∀ job, job.isJobStatusSet .running = true → (g job).isJobStatusSet .running = true

theorem QueueJob.keeps_setJobStatus (status : JobStatus) :
    Keeps fun job => job.setJobStatus status :=
  ⟨fun _ => rfl, fun _ => rfl, fun job h => by simp [h]⟩

theorem QueueJob.keeps_jobErrorHandle : Keeps fun job => { job with jobErrorHandle := true } :=
  ⟨fun _ => rfl, fun _ => rfl, fun _ h => h⟩

theorem QueueJob.Keeps.writeAt {g : QueueJob → QueueJob} (hg : Keeps g) (address : ℕ) :
    Keeps (QueueJob.writeAt address g) := by
  constructor
  all_goals
    intro job
    unfold QueueJob.writeAt
    split_ifs
  · exact hg.slice job
  · rfl
  · exact hg.address job
  · rfl
  · exact hg.running job
  · exact id

namespace ThreadQueue

variable {q : ThreadQueue} {g : QueueJob → QueueJob} {job : QueueJob}

theorem occupied_mapJobs (g : QueueJob → QueueJob) (q : ThreadQueue) :
    (q.mapJobs g).occupied = fun i => (q.occupied i).map g := by
  funext i
  cases hi : q.jobSlotDone i <;> simp [occupied, mapJobs, hi]

theorem Sound.mapJobs (h : q.Sound) (hg : QueueJob.Keeps g) : (q.mapJobs g).Sound := by
  constructor
  · intro i hi
    obtain ⟨job, hjob, hslice⟩ := h.filled i hi
    exact ⟨g job, by simp [ThreadQueue.mapJobs, hjob], (hg.slice job).trans hslice⟩
  · rw [occupied_mapJobs, Slots.load, Slots.countIf_mapAll g fun _ => rfl]
    exact h.total

theorem holdsTask_mapJobs (hg : QueueJob.Keeps g) (q : ThreadQueue) (address : ℕ) :
    (q.mapJobs g).holdsTask address = q.holdsTask address := by
  rw [holdsTask, occupied_mapJobs, Slots.countIf_mapAll g]
  · rfl
  · intro job
    rw [hg.address]

end ThreadQueue

namespace StealState

variable {n : ℕ} {s t : StealState n}

/-- The number of places where the job is: in occupied slots and with the scheduler
thread. -/
def jobCount (s : StealState n) (address : ℕ) : ℕ :=
  ∑ i, (s.threadQueueList i).holdsTask address +
    Slots.weight (fun job => job.processTable.address == address) s.popped.join

/-- Each job is in one place at most, a job that is dispatched at the head of its
thread's queue, and protected once it is running. -/
structure Held (s : StealState n) : Prop where
  queues : ∀ i, (s.threadQueueList i).Sound
  count : ∀ address, s.jobCount address ≤ 1
  fresh : ∀ address, s.allocated ≤ address → s.jobCount address = 0
  slice : ∀ job, s.popped.join = some job → job.cpuSliceMs = 0
  held : ∀ thread job, (s.workers thread).job = some job →
    (s.threadQueueList thread).occupied (s.threadQueueList thread).head = some job
  running : ∀ thread job, s.workers thread = .running job → job.isJobStatusSet .running = true

theorem held_start (jobQueues : Fin n → Fin queueSize → Option QueueJob) :
    (start jobQueues).Held where
  queues := fun i => ThreadQueue.sound_new _
  count := by simp [jobCount, start, ThreadQueue.holdsTask_new]
  fresh := by simp [jobCount, start, ThreadQueue.holdsTask_new]
  slice := nofun
  held := nofun
  running := nofun

/-- Two threads with one job would hold it in two places. -/
theorem Held.noSharedJob (h : s.Held) : s.NoSharedJob := by
  intro thread thread' job job' hjob hjob' haddress
  by_contra hne
  have hpos := ThreadQueue.holdsTask_pos (h.held thread job hjob)
  have hpos' := ThreadQueue.holdsTask_pos (h.held thread' job' hjob')
  rw [← haddress] at hpos'
  have hpair : ∑ i ∈ {thread, thread'},
      (s.threadQueueList i).holdsTask job.processTable.address ≤ s.jobCount _ :=
    (Finset.sum_le_sum_of_subset (Finset.subset_univ _)).trans (Nat.le_add_right _ _)
  rw [Finset.sum_pair hne] at hpair
  have hone := h.count job.processTable.address
  omega

theorem jobCount_setQueue (s : StealState n) (thread : Fin n) (queue : ThreadQueue)
    (address : ℕ) :
    (s.setQueue thread queue).jobCount address + (s.threadQueueList thread).holdsTask address =
      s.jobCount address + queue.holdsTask address := by
  have hsum := Slots.sum_update (fun q : ThreadQueue => q.holdsTask address)
    s.threadQueueList thread queue
  simp only [jobCount, setQueue] at hsum ⊢
  omega

/-- A queue that gains no job and keeps the one its thread has. -/
theorem Held.setQueue (h : s.Held) (thread : Fin n) {queue : ThreadQueue} (hq : queue.Sound)
    (hle : ∀ address, queue.holdsTask address ≤ (s.threadQueueList thread).holdsTask address)
    (hheld : ∀ job, (s.workers thread).job = some job → queue.occupied queue.head = some job) :
    (s.setQueue thread queue).Held := by
  have hcount : ∀ address, (s.setQueue thread queue).jobCount address ≤ s.jobCount address := by
    intro address
    have hset := jobCount_setQueue s thread queue address
    have hless := hle address
    omega
  refine ⟨?_, fun address => (hcount address).trans (h.count address), ?_, h.slice, ?_, h.running⟩
  · intro i
    by_cases hi : i = thread
    · subst hi
      simpa [StealState.setQueue] using hq
    · simpa [StealState.setQueue, hi] using h.queues i
  · intro address hfresh
    exact Nat.le_zero.mp (h.fresh address hfresh ▸ hcount address)
  · intro i job hjob
    by_cases hi : i = thread
    · subst hi
      simpa [StealState.setQueue] using hheld job hjob
    · simpa [StealState.setQueue, hi] using h.held i job hjob

theorem Held.setWorker (h : s.Held) (thread : Fin n) {worker : WorkerStage}
    (hheld : ∀ job, worker.job = some job → (s.threadQueueList thread).occupied
      (s.threadQueueList thread).head = some job)
    (hrunning : ∀ job, worker = .running job → job.isJobStatusSet .running = true) :
    (s.setWorker thread worker).Held := by
  refine ⟨h.queues, h.count, h.fresh, h.slice, ?_, ?_⟩
  · intro i job hjob
    by_cases hi : i = thread
    · subst hi
      exact hheld job (by simpa [StealState.setWorker] using hjob)
    · exact h.held i job (by simpa [StealState.setWorker, hi] using hjob)
  · intro i job hjob
    by_cases hi : i = thread
    · subst hi
      exact hrunning job (by simpa [StealState.setWorker] using hjob)
    · exact h.running i job (by simpa [StealState.setWorker, hi] using hjob)

/-- A thread that gives up its job. -/
theorem Held.release (h : s.Held) (thread : Fin n) : (s.setWorker thread .idle).Held :=
  h.setWorker thread nofun nofun

theorem WorkerStage.job_map (g : QueueJob → QueueJob) (worker : WorkerStage) :
    (worker.map g).job = worker.job.map g := by
  cases worker <;> rfl

theorem popped_write (s : StealState n) (address : ℕ) (g : QueueJob → QueueJob) :
    (s.write address g).popped.join = s.popped.join.map (QueueJob.writeAt address g) := by
  cases hpopped : s.popped <;> simp [write, hpopped]

/-- A write moves no job. -/
theorem jobCount_write (s : StealState n) (address : ℕ) {g : QueueJob → QueueJob}
    (hg : QueueJob.Keeps g) (a : ℕ) : (s.write address g).jobCount a = s.jobCount a := by
  have hkeep := hg.writeAt address
  have hhand : Slots.weight (fun job => job.processTable.address == a)
      (s.write address g).popped.join =
        Slots.weight (fun job => job.processTable.address == a) s.popped.join := by
    rw [popped_write]
    cases s.popped.join with
    | none => rfl
    | some job => simp [Slots.weight_some, hkeep.address]
  rw [jobCount, jobCount, hhand]
  congr 1
  exact Finset.sum_congr rfl fun i _ => ThreadQueue.holdsTask_mapJobs hkeep _ a

theorem Held.write (h : s.Held) (address : ℕ) {g : QueueJob → QueueJob} (hg : QueueJob.Keeps g) :
    (s.write address g).Held := by
  have hkeep := hg.writeAt address
  have hcount := jobCount_write s address hg
  constructor
  · exact fun i => (h.queues i).mapJobs hkeep
  · exact fun a => (hcount a).trans_le (h.count a)
  · exact fun a ha => (hcount a).trans (h.fresh a ha)
  · intro job hjob
    rw [popped_write, Option.map_eq_some_iff] at hjob
    obtain ⟨old, hold, rfl⟩ := hjob
    exact (hkeep.slice old).trans (h.slice old hold)
  · intro thread job hjob
    simp only [StealState.write, WorkerStage.job_map, Option.map_eq_some_iff] at hjob
    obtain ⟨old, hold, rfl⟩ := hjob
    have hheld := h.held thread old hold
    simp only [StealState.write]
    rw [ThreadQueue.occupied_mapJobs]
    exact congrArg (Option.map _) hheld
  · intro thread job hjob
    cases hworker : s.workers thread with
    | idle => simp [StealState.write, WorkerStage.map, hworker] at hjob
    | fetched old => simp [StealState.write, WorkerStage.map, hworker] at hjob
    | running old =>
      simp only [StealState.write, WorkerStage.map, hworker, WorkerStage.running.injEq] at hjob
      rw [← hjob]
      exact hkeep.running old (h.running thread old hworker)

/-- A job that is nowhere yet goes into a queue. -/
theorem Held.add (h : s.Held) (thread : Fin n) {job : QueueJob} (hslice : job.cpuSliceMs = 0)
    (hnone : s.jobCount job.processTable.address = 0)
    (hlt : job.processTable.address < s.allocated) :
    (s.setQueue thread ((s.threadQueueList thread).addNewTask (some job)).2).Held := by
  rcases (s.threadQueueList thread).addNewTask_cases job with hfull | ⟨slot, hslot, hput⟩
  · rw [hfull]
    exact h.setQueue thread (h.queues thread) (fun _ => le_rfl) (h.held thread)
  · rw [hput]
    have hcount : ∀ address,
        (s.setQueue thread ((s.threadQueueList thread).place slot job)).jobCount address =
          s.jobCount address + if job.processTable.address = address then 1 else 0 := by
      intro address
      have hset := jobCount_setQueue s thread ((s.threadQueueList thread).place slot job) address
      rw [ThreadQueue.holdsTask_place hslot] at hset
      omega
    refine ⟨?_, ?_, ?_, h.slice, ?_, h.running⟩
    · intro i
      by_cases hi : i = thread
      · subst hi
        simpa [StealState.setQueue] using (h.queues i).place hslot hslice
      · simpa [StealState.setQueue, hi] using h.queues i
    · intro address
      rw [hcount]
      have hone := h.count address
      split_ifs with haddress
      · rw [← haddress, hnone]
      · exact hone
    · intro address hfresh
      have hne : job.processTable.address ≠ address := fun he => by
        subst he
        exact absurd hlt (not_lt.mpr hfresh)
      rw [hcount, if_neg hne]
      exact h.fresh address hfresh
    · intro i other hother
      have hheld := h.held i other hother
      by_cases hi : i = thread
      · subst hi
        have hkept := ThreadQueue.occupied_place_of_some job hslot hheld
        simp only [StealState.setQueue, Function.update_self]
        exact hkept
      · simpa [StealState.setQueue, hi] using hheld

/-- A task is accepted. -/
theorem Held.allocate (h : s.Held) : Held { s with allocated := s.allocated + 1 } :=
  ⟨h.queues, h.count, fun address hfresh => h.fresh address (Nat.le_of_succ_le hfresh), h.slice,
    h.held, h.running⟩

theorem Held.placeTask (h : s.Held) {processState : ProcessStates} {priority : TaskPriority}
    (ht : stealStep s (.placeTask processState priority) = some t) : t.Held := by
  simp only [stealStep] at ht
  split_ifs at ht
  split at ht
  · cases ht
    exact h
  · rename_i threadId _
    obtain ⟨job, hjob, rfl⟩ := Option.map_eq_some_iff.mp ht
    have hnew := initJob_eq_some hjob
    refine h.allocate.add threadId ?_ ?_ ?_
    · rw [hnew]
      rfl
    · rw [hnew]
      exact h.fresh s.allocated le_rfl
    · rw [hnew]
      exact Nat.lt_succ_self _

/-- The steps of the scheduler thread between its calls change its stage only. -/
theorem Held.atStage (h : s.Held) (stage : SchedStage n) : Held { s with stage := stage } :=
  ⟨h.queues, h.count, h.fresh, h.slice, h.held, h.running⟩

theorem Held.rebalance (h : s.Held) (ht : stealStep s .rebalance = some t) : t.Held := by
  simp only [stealStep] at ht
  split at ht
  · cases ht
  · obtain ⟨u, _, rfl⟩ := Option.map_eq_some_iff.mp ht
    exact h.atStage _

/-- The job that a thread holds is not the one that is popped from its queue. -/
theorem Held.occupied_remove_head (h : s.Held) {busy : Fin n} {slot : Fin queueSize}
    {job : QueueJob} (hoccupied : (s.threadQueueList busy).occupied slot = some job)
    (hunprotected : job.isJobStatusSet .running = false)
    (hunfetched : ∀ thread fetched, s.workers thread = .fetched fetched →
      fetched.processTable.address ≠ job.processTable.address)
    {other : QueueJob} (hother : (s.workers busy).job = some other) :
    ((s.threadQueueList busy).remove slot).occupied ((s.threadQueueList busy).remove slot).head =
      some other := by
  have hheld := h.held busy other hother
  have hne : (s.threadQueueList busy).head ≠ slot := by
    intro hhead
    rw [hhead, hoccupied, Option.some.injEq] at hheld
    subst hheld
    cases hworker : s.workers busy with
    | idle => simp [WorkerStage.job, hworker] at hother
    | fetched fetched =>
      simp only [WorkerStage.job, hworker, Option.some.injEq] at hother
      exact hunfetched busy fetched hworker (by rw [hother])
    | running running =>
      simp only [WorkerStage.job, hworker, Option.some.injEq] at hother
      have hprotected := h.running busy running hworker
      rw [hother, hunprotected] at hprotected
      cases hprotected
  rw [ThreadQueue.occupied_remove]
  exact (Function.update_of_ne hne ..).trans hheld

/-- A job that is popped leaves its slot for the hands of the scheduler thread. -/
theorem Held.popJob (h : s.Held) (hG : s.LeavesFetched .popJob)
    (ht : stealStep s .popJob = some t) : t.Held := by
  simp only [stealStep] at ht
  split at ht
  · rename_i i free busy hstage hpopped
    obtain ⟨r, hpop, rfl⟩ := Option.map_eq_some_iff.mp ht
    rcases (h.queues busy).popJob_cases with hnone | ⟨slot, job, hslot, hjob, hslice, hsome⟩
    · cases hnone.symm.trans hpop
      have hsame := h.setQueue busy (h.queues busy) (fun _ => le_rfl) (h.held busy)
      have hcount : ∀ address, jobCount { s.setQueue busy (s.threadQueueList busy) with
          popped := some none } address = (s.setQueue busy (s.threadQueueList busy)).jobCount
            address := by
        intro address
        simp only [jobCount, StealState.setQueue, hpopped, Option.join_none, Option.join_some]
      exact ⟨hsame.queues, fun address => (hcount address).trans_le (hsame.count address),
        fun address hfresh => (hcount address).trans (hsame.fresh address hfresh), nofun,
        hsame.held, hsame.running⟩
    · cases hsome.symm.trans hpop
      have hoccupied : (s.threadQueueList busy).occupied slot = some job := by
        simp [ThreadQueue.occupied, hslot, hjob]
      have hremove := ThreadQueue.holdsTask_remove hslot hjob
      have hmoved := h.setQueue busy ((h.queues busy).remove hslot)
        (fun address => (Nat.le_add_right _ _).trans_eq (hremove address)) fun other =>
          h.occupied_remove_head hoccupied (ThreadQueue.popJob_not_running hsome)
            (hG rfl i free busy hstage job _ hsome)
      have hcount : ∀ address, jobCount { s.setQueue busy
          ((s.threadQueueList busy).remove slot) with popped := some (some job) } address =
            s.jobCount address := by
        intro address
        have hset := jobCount_setQueue s busy ((s.threadQueueList busy).remove slot) address
        have hless := hremove address
        simp only [jobCount, StealState.setQueue, hpopped, Option.join_none, Slots.weight_none,
          Option.join_some, Slots.weight_some, beq_iff_eq] at hset ⊢
        omega
      refine ⟨hmoved.queues, fun address => (hcount address).trans_le (h.count address),
        fun address hfresh => (hcount address).trans (h.fresh address hfresh), ?_, hmoved.held,
        hmoved.running⟩
      intro other hother
      cases hother
      exact hslice
  · cases ht

/-- The popped job goes into the free queue. -/
theorem Held.addNewTask (h : s.Held) (ht : stealStep s .addNewTask = some t) : t.Held := by
  simp only [stealStep] at ht
  split at ht
  · rename_i i free busy popped hstage hpopped
    cases ht
    have hempty : Held { s with popped := none } := by
      have hle : ∀ address, jobCount { s with popped := none } address ≤ s.jobCount address :=
        fun address => Nat.le_add_right _ _
      exact ⟨h.queues, fun address => (hle address).trans (h.count address),
        fun address hfresh => Nat.le_zero.mp ((hle address).trans_eq (h.fresh address hfresh)),
        nofun, h.held, h.running⟩
    cases popped with
    | none =>
      exact (hempty.setQueue free (h.queues free) (fun _ => le_rfl) (h.held free)).atStage _
    | some job =>
      have hcount : s.jobCount job.processTable.address =
          jobCount { s with popped := none } job.processTable.address + 1 := by
        simp [jobCount, hpopped, Slots.weight_some]
      have hone := h.count job.processTable.address
      have hlt : job.processTable.address < s.allocated := by
        by_contra hge
        have hzero := h.fresh _ (not_lt.mp hge)
        omega
      exact (hempty.add free (h.slice job (by rw [hpopped]; rfl)) (by omega) hlt).atStage _
  · cases ht

/-- A thread that fetches a job has it at the head of its queue. -/
theorem Held.getNextTask (h : s.Held) {thread : Fin n}
    (ht : stealStep s (.getNextTask thread) = some t) : t.Held := by
  simp only [stealStep] at ht
  split at ht
  · rename_i hidle
    cases ht
    obtain ⟨i, hnext | ⟨job, hi, hjob, hnext⟩⟩ := (h.queues thread).getNextTask_cases
    · rw [hnext]
      exact (h.setQueue thread ((h.queues thread).atHead i) (fun _ => le_rfl)
        (by simp [hidle, WorkerStage.job])).release thread
    · rw [hnext]
      refine (h.setQueue thread ((h.queues thread).atHead i) (fun _ => le_rfl)
        (by simp [hidle, WorkerStage.job])).setWorker thread ?_ nofun
      intro other hother
      cases hother
      simp [StealState.setQueue, ThreadQueue.atHead, ThreadQueue.occupied, hi, hjob]
  · cases ht

/-- The slot of a job that is closed is free again, and the job is in no other place. -/
theorem Held.close (h : s.Held) {thread : Fin n} {job : QueueJob}
    (hworker : (s.workers thread).job = some job) (ht : s.close thread = some t) :
    t.Held ∧ t.jobCount job.processTable.address = 0 := by
  unfold StealState.close at ht
  split at ht
  · cases ht
  · rename_i head _
    cases ht
    have hkeep := (QueueJob.keeps_setJobStatus .done).writeAt head.processTable.address
    have hdone := h.write head.processTable.address (QueueJob.keeps_setJobStatus .done)
    have hheld := hdone.held thread _ (by
      simp only [StealState.write, WorkerStage.job_map, hworker]
      rfl)
    set q := (s.write head.processTable.address fun job => job.setJobStatus .done).threadQueueList
      thread with hq
    have hslot : q.jobSlotDone q.head = false := by
      by_contra hfree
      simp [ThreadQueue.occupied, hfree] at hheld
    obtain ⟨closed, hclosed, _⟩ := (hdone.queues thread).filled q.head hslot
    have hmark := ThreadQueue.holdsTask_markTaskAsComplete hslot hclosed
    refine ⟨(hdone.release thread).setQueue thread
      ((hdone.queues thread).markTaskAsComplete hslot)
      (fun address => (Nat.le_add_right _ _).trans_eq (hmark address))
      (by simp [StealState.setWorker, WorkerStage.job]), ?_⟩
    have haddress : closed.processTable.address = job.processTable.address := by
      rw [ThreadQueue.occupied, hslot] at hheld
      cases hclosed.symm.trans hheld
      exact hkeep.address job
    have hcount := jobCount_setQueue (s.write head.processTable.address fun job =>
      job.setJobStatus .done) thread q.markTaskAsComplete job.processTable.address
    have hone := hdone.count job.processTable.address
    have hgone := hmark job.processTable.address
    rw [← hq] at hcount
    rw [if_pos haddress] at hgone
    change StealState.jobCount (StealState.setQueue _ thread q.markTaskAsComplete) _ = 0
    omega

/-- A job that is set running stays where it is. -/
theorem Held.setRunning (h : s.Held) {thread : Fin n} {job : QueueJob}
    (hjob : (s.workers thread).job = some job) :
    ((s.write job.processTable.address fun job => job.setJobStatus .running).setWorker thread
      (.running (job.setJobStatus .running))).Held := by
  refine (h.write _ (QueueJob.keeps_setJobStatus .running)).setWorker thread ?_ ?_
  · intro other hother
    cases hother
    have hheld := h.held thread job hjob
    simp only [StealState.write]
    rw [ThreadQueue.occupied_mapJobs]
    apply (congrArg (Option.map _) hheld).trans
    simp [QueueJob.writeAt]
  · intro other hother
    cases hother
    simp

theorem Held.dispatch (h : s.Held) {thread : Fin n}
    (ht : stealStep s (.dispatch thread) = some t) : t.Held := by
  simp only [stealStep] at ht
  split at ht
  · rename_i job hworker
    have hjob : (s.workers thread).job = some job := by rw [hworker]; rfl
    split_ifs at ht with hdone
    · exact (h.close hjob ht).1
    · cases ht
      exact h.setRunning hjob
  · cases ht

theorem Held.afterStart (h : s.Held) (thread : Fin n) (job : QueueJob) (status : JobStatus) :
    (s.afterStart thread job status).Held := by
  have hstatus := h.write job.processTable.address (QueueJob.keeps_setJobStatus status)
  unfold StealState.afterStart
  dsimp only
  split_ifs
  · exact hstatus
  · exact (hstatus.write _ QueueJob.keeps_jobErrorHandle).release thread
  · exact hstatus.release thread

theorem Held.step {e : StealEvent n} (h : s.Held) (hG : s.LeavesFetched e)
    (ht : stealStep s e = some t) : t.Held := by
  cases e with
  | placeTask processState priority => exact h.placeTask ht
  | flushFinishedJobs thread =>
    simp only [stealStep] at ht
    split_ifs at ht
    cases ht
    refine h.setQueue thread (h.queues thread).flushFinishedJobs (fun address => ?_) ?_
    · rw [ThreadQueue.holdsTask, ThreadQueue.occupied_flushFinishedJobs]
      exact le_rfl
    · rw [ThreadQueue.occupied_flushFinishedJobs]
      exact h.held thread
  | rebalance => exact h.rebalance ht
  | popJob => exact h.popJob hG ht
  | addNewTask => exact h.addNewTask ht
  | getNextTask thread => exact h.getNextTask ht
  | dispatch thread => exact h.dispatch ht
  | startProc thread status =>
    simp only [stealStep] at ht
    split at ht
    · cases ht
      exact h.afterStart thread _ status
    · cases ht

/-- In every run in which `popJob` takes no job that is fetched and not yet set
running, no job is ever dispatched by two task threads. -/
theorem noSharedJob_of_leavesFetched (jobQueues : Fin n → Fin queueSize → Option QueueJob)
    {events : List (StealEvent n)}
    (hG : Guarded stealStep LeavesFetched (start jobQueues) events)
    (h : exec stealStep (start jobQueues) events = some s) : s.NoSharedJob :=
  (hG.invariant (fun _ _ _ hs hG ht => hs.step hG ht) (held_start jobQueues) h).noSharedJob

/-- Two of three jobs are in the queue of thread 0. The other thread has closed its
own. -/
def oneIdle (idle : Fin 2) : List (StealEvent 2) :=
  List.replicate 3 (.placeTask ⟨1, true, false, true, true⟩ .lowPriority) ++
    [.getNextTask idle, .dispatch idle, .startProc idle .done, .getNextTask idle, .dispatch idle]

/-- The scheduler thread is about to pop a job. -/
def rebalancing : List (StealEvent 2) := List.replicate 4 .rebalance

theorem noSharedJob_stolen :
    ∃ s, exec stealStep (start fun _ _ => none)
        (oneIdle 1 ++ rebalancing ++ [.popJob, .addNewTask, .getNextTask 1, .getNextTask 0]) =
          some s ∧
      s.NoSharedJob := by
  have hrun : (exec stealStep (start fun _ _ => none)
      (oneIdle 1 ++ rebalancing ++ [.popJob, .addNewTask, .getNextTask 1, .getNextTask 0])).isSome =
        true := by decide
  have hidle : (exec stealStep (start fun _ _ => none) (oneIdle 1 ++ rebalancing)).map (fun s =>
      (s.workers 0, s.workers 1)) = some (.idle, .idle) := by decide
  obtain ⟨s, hs⟩ := Option.isSome_iff_exists.mp hrun
  refine ⟨s, hs, noSharedJob_of_leavesFetched _ (.append (.of_forall ?_ _) ?_) hs⟩
  · have hnone : StealEvent.popJob ∉ oneIdle 1 ++ rebalancing := by decide
    exact fun e he _ hpop => absurd (hpop ▸ he) hnone
  · intro t ht
    rw [ht, Option.map_some, Option.some.injEq, Prod.mk.injEq] at hidle
    have hworkers : ∀ thread, t.workers thread = .idle := Fin.forall_fin_two.mpr hidle
    refine ⟨fun _ _ _ _ _ _ _ _ thread fetched hfetched => ?_, fun u _ => .of_forall ?_ u⟩
    · rw [hworkers thread] at hfetched
      cases hfetched
    · have hnone : StealEvent.popJob ∉ [.addNewTask, .getNextTask 1, .getNextTask (0 : Fin 2)] := by
        decide
      exact fun e he _ hpop => absurd (hpop ▸ he) hnone

/-- The busy thread has fetched its second job when it is popped. -/
def fetchedAndStolen (busy idle : Fin 2) : List (StealEvent 2) :=
  oneIdle idle ++ [.getNextTask busy, .dispatch busy, .startProc busy .done, .getNextTask busy] ++
    rebalancing ++ [.popJob, .addNewTask, .getNextTask idle]

theorem not_noSharedJob_fetchedAndStolen :
    ∃ s, exec stealStep (start fun _ _ => none) (fetchedAndStolen 0 1) = some s ∧
      ¬ s.NoSharedJob := by
  have hrun : (exec stealStep (start fun _ _ => none) (fetchedAndStolen 0 1)).map (fun s =>
      ((s.workers 0).job, (s.workers 1).job)) =
      some (some (.new (.registered 0 ⟨1, true, false, true, true⟩ .lowPriority)),
        some (.new (.registered 0 ⟨1, true, false, true, true⟩ .lowPriority))) := by decide
  obtain ⟨s, hs, hjobs⟩ := Option.map_eq_some_iff.mp hrun
  rw [Prod.mk.injEq] at hjobs
  exact ⟨s, hs, fun hshared => absurd (hshared 0 1 _ _ hjobs.1 hjobs.2 rfl) (by decide)⟩

end StealState

end WorkerUnit
