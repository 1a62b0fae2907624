import WorkerUnit.Library.FirstLeast
import WorkerUnit.Library.StepSystem
import WorkerUnit.Scheduler.TaskPool
import WorkerUnit.Scheduler.ThreadQueue

/-!
# The scheduler thread and the task threads

`sched_task`, `rebalance_thread_queues` and the queue side of `thread_task`, one
atomic step at a time. The scheduler thread places tasks, flushes queues and
rebalances; between any two of its steps the workers fetch, run and complete
jobs and other threads schedule tasks. A task is known by the number of its
process table.
-/

namespace WorkerUnit

open StepSystem

variable {n : ℕ}

def getTotalEmptySlots (threadQueueList : Fin n → ThreadQueue) : ℤ :=
  ((List.finRange n).map fun i => (queueSize : ℤ) - (threadQueueList i).totalJobsInQueue).sum

/-- One round of the loop of `get_quickest_queue`. -/
def quickestRound (threadQueueList : Fin n → ThreadQueue) (best : Option (Fin n) × ℕ) (i : Fin n) :
    Option (Fin n) × ℕ :=
  if (threadQueueList i).totalJobsInQueue ≥ queueSize then best
  else if best.2 > (threadQueueList i).getTotalWaitTime then
    (some i, (threadQueueList i).getTotalWaitTime)
  else best

/-- `get_quickest_queue`; the search starts from `INT_MAX`. -/
def getQuickestQueue (threadQueueList : Fin n → ThreadQueue) : Option (Fin n) :=
  ((List.finRange n).foldl (quickestRound threadQueueList) (none, 2 ^ 31 - 1)).1

def getEmptyThreadQueue (threadQueueList : Fin n → ThreadQueue) : Option (Fin n) :=
  (List.finRange n).find? fun i => (threadQueueList i).getTotalWaitTime = 0

/-- `get_busiest_thread_queue`; `largestWaitTime` stays zero, so the last
candidate wins. -/
def getBusiestThreadQueue (threadQueueList : Fin n → ThreadQueue) : Option (Fin n) :=
  (List.finRange n).foldl (fun busiest i =>
    if (threadQueueList i).totalJobsInQueue < 2 then busiest
    else if (threadQueueList i).getTotalWaitTime > 0 then some i
    else busiest) none

/-- Where the scheduler thread stands: outside `rebalance_thread_queues`, at the
top of its loop, with a free queue found, at the test of the inner loop, or
about to move a job. -/
inductive SchedStage (n : ℕ) where
  | idle
  | balancing (i : ℕ)
  | freeFound (i : ℕ) (freeThreadId : Fin n)
  | testing (i : ℕ) (freeThreadId busiestThreadId : Fin n)
  | moving (i : ℕ) (freeThreadId busiestThreadId : Fin n)
  deriving DecidableEq, Repr

/-- `refused` records the jobs that `addNewTask` did not take, and `allocated`
counts the tasks that `scheduleTask` accepted. -/
structure SchedState (n : ℕ) where
  taskPool : TaskPool
  threadQueueList : Fin n → ThreadQueue
  stage : SchedStage n
  completed : List ℕ
  refused : List QueueJob
  allocated : ℕ

inductive SchedEvent (n : ℕ) where
  | scheduleTask (newProc : ProcessStates) (args : Option Unit) (priority : TaskPriority)
      (starveCounter : ℕ)
  | placeTask
  | flushFinishedJobs (thread : Fin n)
  | rebalance
  | getNextTask (thread : Fin n)
  | startReturns (thread : Fin n) (slot : Fin queueSize) (status : JobStatus)

namespace SchedState

/-- Every queue starts with whatever its slots hold. -/
def start (jobQueues : Fin n → Fin queueSize → Option QueueJob) : SchedState n :=
  ⟨[], fun i => .new (jobQueues i), .idle, [], [], 0⟩

def setQueue (s : SchedState n) (thread : Fin n) (queue : ThreadQueue) : SchedState n :=
  { s with threadQueueList := Function.update s.threadQueueList thread queue }

/-- `addNewTask` on one of the queues, whose result the callers do not report. -/
def addTo (s : SchedState n) (thread : Fin n) (job : Option QueueJob) : ℤ × SchedState n :=
  let r := (s.threadQueueList thread).addNewTask job
  (r.1, { s.setQueue thread r.2 with
    refused := if r.1 = 0 then s.refused else s.refused ++ job.toList })

/-- One placement of `sched_task`. A process of type zero ends the run: the
division of `init_job` is undefined. -/
def placeTask (s : SchedState n) : Option (SchedState n) :=
  match getQuickestQueue s.threadQueueList, s.taskPool.popTask with
  | some threadId, some (taskData, taskPool) =>
    (initJob taskData.procTable).map fun job =>
      (addTo { s with taskPool := taskPool } threadId (some job)).2
  | _, _ => some s

/-- The next step of `rebalance_thread_queues`. -/
def rebalance (s : SchedState n) : Option (SchedState n) :=
  match s.stage with
  | .idle =>
    if getTotalEmptySlots s.threadQueueList ≤ 0 then some s
    else some { s with stage := .balancing 0 }
  | .balancing i =>
    if (i : ℤ) < (n : ℤ) - 1 then
      match getEmptyThreadQueue s.threadQueueList with
      | none => some { s with stage := .idle }
      | some freeThreadId => some { s with stage := .freeFound i freeThreadId }
    else some { s with stage := .idle }
  | .freeFound i freeThreadId =>
    match getBusiestThreadQueue s.threadQueueList with
    | none => some { s with stage := .idle }
    | some busiestThreadId =>
      if busiestThreadId = freeThreadId then some { s with stage := .idle }
      else some { s with stage := .testing i freeThreadId busiestThreadId }
  | .testing i freeThreadId busiestThreadId =>
    if (s.threadQueueList freeThreadId).getTotalWaitTime <
        (s.threadQueueList busiestThreadId).getTotalWaitTime then
      some { s with stage := .moving i freeThreadId busiestThreadId }
    else some { s with stage := .balancing (i + 1) }
  | .moving i freeThreadId busiestThreadId =>
    (s.threadQueueList busiestThreadId).popJob.map fun r =>
      let added := (s.setQueue busiestThreadId r.2).addTo freeThreadId r.1
      { added.2 with stage :=
          if added.1 = 0 then .testing i freeThreadId busiestThreadId else .balancing (i + 1) }

/-- A worker fetches a job: it completes a job that is done, and sets the others
running. -/
def fetch (s : SchedState n) (thread : Fin n) : SchedState n :=
  match (s.threadQueueList thread).getNextTask with
  | (none, queue) => s.setQueue thread queue
  | (some job, queue) =>
    if job.isJobStatusSet .done then
      { s.setQueue thread queue.markTaskAsComplete with
        completed := s.completed ++ [job.processTable.address] }
    else s.setQueue thread (queue.setJobStatus queue.head .running)

def schedStep (s : SchedState n) : SchedEvent n → Option (SchedState n)
  | .scheduleTask newProc args priority starveCounter =>
    match scheduleTask s.taskPool s.allocated starveCounter newProc args priority with
    | none => some s
    | some taskPool => some { s with taskPool := taskPool, allocated := s.allocated + 1 }
  | .placeTask => if s.stage = .idle then s.placeTask else none
  | .flushFinishedJobs thread =>
    if s.stage = .idle then
      some (s.setQueue thread (s.threadQueueList thread).flushFinishedJobs)
    else none
  | .rebalance => s.rebalance
  | .getNextTask thread => some (s.fetch thread)
  | .startReturns thread slot status =>
    if ((s.threadQueueList thread).occupied slot).any fun job => job.isJobStatusSet .running then
      some (s.setQueue thread ((s.threadQueueList thread).setJobStatus slot status))
    else none

/-- The number of places where the task is: in the pool, in occupied slots, and
among the completed tasks. -/
def taskCount (s : SchedState n) (address : ℕ) : ℕ :=
  (s.taskPool.procTables.map (·.address)).count address +
    ∑ i, (s.threadQueueList i).holdsTask address + s.completed.count address

/-- What the scheduler thread relies on at its stage: a queue that is about to
receive a job has room for it. -/
def StageOk (s : SchedState n) : Prop :=
  match s.stage with
  | .testing _ freeThreadId busiestThreadId => freeThreadId ≠ busiestThreadId
  | .moving _ freeThreadId busiestThreadId => freeThreadId ≠ busiestThreadId ∧
      (s.threadQueueList freeThreadId).totalJobsInQueue < queueSize
  | _ => True

structure Accounted (s : SchedState n) : Prop where
  queues : ∀ i, (s.threadQueueList i).Sound
  count : ∀ address, s.taskCount address = if address < s.allocated then 1 else 0
  stage : s.StageOk
  refused : s.refused = []

variable {s t : SchedState n}

theorem accounted_start (jobQueues : Fin n → Fin queueSize → Option QueueJob) :
    (start jobQueues).Accounted where
  queues := fun i => ThreadQueue.sound_new _
  count := by
    intro address
    simp [taskCount, start, TaskPool.procTables, ThreadQueue.holdsTask_new]
  stage := trivial
  refused := rfl

theorem taskCount_setQueue (s : SchedState n) (thread : Fin n) (queue : ThreadQueue)
    (address : ℕ) :
    (s.setQueue thread queue).taskCount address + (s.threadQueueList thread).holdsTask address =
      s.taskCount address + queue.holdsTask address := by
  have hsum := Slots.sum_update (fun q : ThreadQueue => q.holdsTask address)
    s.threadQueueList thread queue
  simp only [taskCount, setQueue] at hsum ⊢
  omega

theorem queues_setQueue (h : ∀ i, (s.threadQueueList i).Sound) (thread : Fin n)
    {queue : ThreadQueue} (hq : queue.Sound) (i : Fin n) :
    ((s.setQueue thread queue).threadQueueList i).Sound := by
  by_cases hi : i = thread
  · subst hi
    simpa [setQueue] using hq
  · simpa [setQueue, hi] using h i

/-- A queue that gains no job keeps the stage of the scheduler thread. -/
theorem StageOk.setQueue (h : s.StageOk) (thread : Fin n) {queue : ThreadQueue}
    (hle : queue.totalJobsInQueue ≤ (s.threadQueueList thread).totalJobsInQueue) :
    (s.setQueue thread queue).StageOk := by
  unfold StageOk at *
  cases hs : s.stage with
  | idle => simp [SchedState.setQueue, hs]
  | balancing i => simp [SchedState.setQueue, hs]
  | freeFound i free => simp [SchedState.setQueue, hs]
  | testing i free busy => simpa [SchedState.setQueue, hs] using h
  | moving i free busy =>
    simp only [hs] at h
    simp only [SchedState.setQueue, hs]
    refine ⟨h.1, ?_⟩
    by_cases hf : free = thread
    · subst hf
      simpa using hle.trans_lt h.2
    · simpa [hf] using h.2

/-- The queue that `get_quickest_queue` picks is not full. -/
theorem getQuickestQueue_lt {threadQueueList : Fin n → ThreadQueue} {i : Fin n}
    (h : getQuickestQueue threadQueueList = some i) :
    (threadQueueList i).totalJobsInQueue < queueSize := by
  have hfold : ∀ (is : List (Fin n)) (best : Option (Fin n) × ℕ),
      (∀ j, best.1 = some j → (threadQueueList j).totalJobsInQueue < queueSize) →
        ∀ j, (is.foldl (quickestRound threadQueueList) best).1 = some j →
          (threadQueueList j).totalJobsInQueue < queueSize := by
    intro is
    induction is with
    | nil => exact fun _ hbest => hbest
    | cons k is ih =>
      intro best hbest
      apply ih
      intro j hj
      unfold quickestRound at hj
      split_ifs at hj with hfull hless
      · exact hbest j hj
      · cases hj
        exact not_le.mp hfull
      · exact hbest j hj
  exact hfold _ _ (by simp) i h

/-- A sound queue waits far less than the bound that the search starts from. -/
theorem wait_lt_intMax {queue : ThreadQueue} (h : queue.Sound) :
    queue.getTotalWaitTime < 2 ^ 31 - 1 := by
  have hwait := h.getTotalWaitTime_eq
  have hle := h.total_le
  simp only [queueSize] at hle
  omega

/-- The search is that for the first queue with room that waits least. -/
theorem getQuickestQueue_eq_search (threadQueueList : Fin n → ThreadQueue) :
    getQuickestQueue threadQueueList =
      FirstLeast.search (fun i => (threadQueueList i).totalJobsInQueue < queueSize)
        (fun i => (threadQueueList i).getTotalWaitTime) (2 ^ 31 - 1) := by
  have hround : quickestRound threadQueueList =
      FirstLeast.round (fun i => (threadQueueList i).totalJobsInQueue < queueSize)
        fun i => (threadQueueList i).getTotalWaitTime := by
    funext best i
    simp only [quickestRound, FirstLeast.round, ge_iff_le, gt_iff_lt]
    by_cases hfull : (queueSize : ℤ) ≤ (threadQueueList i).totalJobsInQueue
    · rw [if_pos hfull, if_neg (not_lt.mpr hfull)]
    · rw [if_neg hfull, if_pos (not_le.mp hfull)]
  rw [getQuickestQueue, hround, FirstLeast.search]

/-- A job added to a queue with room is taken, and is in one more place. -/
theorem addTo_some (hq : ∀ i, (s.threadQueueList i).Sound) {thread : Fin n}
    (hlt : (s.threadQueueList thread).totalJobsInQueue < queueSize) {job : QueueJob}
    (hslice : job.cpuSliceMs = 0) :
    (s.addTo thread (some job)).1 = 0 ∧
      (∀ i, ((s.addTo thread (some job)).2.threadQueueList i).Sound) ∧
      (s.addTo thread (some job)).2.refused = s.refused ∧
      (s.addTo thread (some job)).2.allocated = s.allocated ∧
      ∀ address, (s.addTo thread (some job)).2.taskCount address =
        s.taskCount address + if job.processTable.address = address then 1 else 0 := by
  obtain ⟨i, hi, hadd⟩ := (hq thread).addNewTask_eq hlt job
  have hcount : ∀ address, (s.addTo thread (some job)).2.taskCount address =
      (s.setQueue thread ((s.threadQueueList thread).place i job)).taskCount address := by
    intro address
    simp only [addTo, hadd]
    rfl
  refine ⟨by simp [addTo, hadd], ?_, by simp [addTo, hadd], rfl, ?_⟩
  · intro j
    have hj := queues_setQueue hq thread ((hq thread).place hi hslice) j
    simpa only [addTo, hadd] using hj
  · intro address
    have hset := taskCount_setQueue s thread ((s.threadQueueList thread).place i job) address
    rw [ThreadQueue.holdsTask_place hi] at hset
    rw [hcount]
    omega

theorem addTo_none (s : SchedState n) (thread : Fin n) :
    s.addTo thread none = (-1, s) := by
  simp [addTo, ThreadQueue.addNewTask, setQueue]

namespace Accounted

theorem scheduleTask (h : s.Accounted) {newProc : ProcessStates} {args : Option Unit}
    {priority : TaskPriority} {starveCounter : ℕ} {taskPool : TaskPool}
    (hpush : WorkerUnit.scheduleTask s.taskPool s.allocated starveCounter newProc args priority =
      some taskPool) :
    Accounted { s with taskPool := taskPool, allocated := s.allocated + 1 } := by
  unfold WorkerUnit.scheduleTask at hpush
  split_ifs at hpush
  cases hpush
  refine ⟨h.queues, ?_, h.stage, h.refused⟩
  intro address
  have hcount := h.count address
  have hperm := (TaskPool.procTables_pushTask s.taskPool
    ⟨.registered s.allocated newProc priority, priority, starveCounter⟩).map (·.address)
  simp only [taskCount] at hcount ⊢
  rw [hperm.count_eq, List.map_cons, List.count_cons]
  simp only [ProcessTable.registered, beq_iff_eq]
  by_cases ha : s.allocated = address
  · subst ha
    rw [if_neg (Nat.lt_irrefl _)] at hcount
    rw [if_pos rfl, if_pos (Nat.lt_succ_self _)]
    omega
  · rw [if_neg ha, Nat.add_zero, hcount]
    split_ifs <;> omega

theorem placeTask (h : s.Accounted) (hs : s.stage = .idle) (ht : s.placeTask = some t) :
    t.Accounted := by
  unfold SchedState.placeTask at ht
  split at ht
  · rename_i threadId taskData taskPool hthread hpop
    obtain ⟨job, hjob, rfl⟩ := Option.map_eq_some_iff.mp ht
    have hlt := getQuickestQueue_lt hthread
    have hnew := initJob_eq_some hjob
    have hslice : job.cpuSliceMs = 0 := by
      rw [hnew]
      rfl
    obtain ⟨_, hsound, hrefused, hallocated, hcount⟩ :=
      addTo_some (s := { s with taskPool := taskPool }) h.queues hlt hslice
    refine ⟨hsound, ?_, ?_, hrefused.trans h.refused⟩
    · intro address
      have hold := h.count address
      have haddress : job.processTable.address = taskData.procTable.address := by
        rw [hnew]
        rfl
      rw [hcount, hallocated, haddress, ← hold]
      cases hpool : s.taskPool with
      | nil => simp [hpool, TaskPool.popTask] at hpop
      | cons task rest =>
        simp only [hpool, TaskPool.popTask, Option.some.injEq, Prod.mk.injEq] at hpop
        obtain ⟨rfl, rfl⟩ := hpop
        simp only [taskCount, hpool, TaskPool.procTables, List.map_cons, List.count_cons,
          beq_iff_eq]
        omega
    · unfold StageOk
      simp [addTo, setQueue, hs]
  · cases ht
    exact h

/-- A worker or the scheduler changes one queue without losing or gaining a task. -/
theorem setQueue (h : s.Accounted) (thread : Fin n) {queue : ThreadQueue} (hq : queue.Sound)
    (hle : queue.totalJobsInQueue ≤ (s.threadQueueList thread).totalJobsInQueue)
    (hholds : ∀ address, queue.holdsTask address =
      (s.threadQueueList thread).holdsTask address) :
    (s.setQueue thread queue).Accounted := by
  refine ⟨queues_setQueue h.queues thread hq, ?_, h.stage.setQueue thread hle, h.refused⟩
  intro address
  have hset := taskCount_setQueue s thread queue address
  rw [hholds] at hset
  have hsame := Nat.add_right_cancel hset
  rw [hsame]
  exact h.count address

theorem flushFinishedJobs (h : s.Accounted) (thread : Fin n) :
    (s.setQueue thread (s.threadQueueList thread).flushFinishedJobs).Accounted := by
  apply h.setQueue thread (h.queues thread).flushFinishedJobs le_rfl
  intro address
  rw [ThreadQueue.holdsTask, ThreadQueue.occupied_flushFinishedJobs]
  rfl

theorem startReturns (h : s.Accounted) (thread : Fin n) (slot : Fin queueSize)
    (status : JobStatus) :
    (s.setQueue thread ((s.threadQueueList thread).setJobStatus slot status)).Accounted :=
  h.setQueue thread ((h.queues thread).setJobStatus slot status) le_rfl fun address =>
    ThreadQueue.holdsTask_setJobStatus _ slot status address

/-- The job at the head of a queue leaves it for the completed ones. -/
theorem complete (h : s.Accounted) (thread : Fin n) (job : QueueJob)
    (hslot : (s.threadQueueList thread).jobSlotDone (s.threadQueueList thread).head = false)
    (hjob : (s.threadQueueList thread).jobQueue (s.threadQueueList thread).head = some job) :
    Accounted { s.setQueue thread (s.threadQueueList thread).markTaskAsComplete with
      completed := s.completed ++ [job.processTable.address] } := by
  have hcomplete := (h.queues thread).markTaskAsComplete hslot
  have hle : (s.threadQueueList thread).markTaskAsComplete.totalJobsInQueue ≤
      (s.threadQueueList thread).totalJobsInQueue := by
    simp [ThreadQueue.markTaskAsComplete, ThreadQueue.setJobStatus]
  refine ⟨queues_setQueue h.queues thread hcomplete, ?_, h.stage.setQueue thread hle, h.refused⟩
  intro address
  have hset := taskCount_setQueue s thread (s.threadQueueList thread).markTaskAsComplete address
  have hmark := ThreadQueue.holdsTask_markTaskAsComplete hslot hjob address
  refine Eq.trans ?_ (h.count address)
  simp only [taskCount, SchedState.setQueue, List.count_append, List.count_singleton,
    beq_iff_eq] at hset ⊢
  omega

theorem fetch (h : s.Accounted) (thread : Fin n) : (s.fetch thread).Accounted := by
  have hsound := h.queues thread
  obtain ⟨i, hnext | ⟨job, hi, hjob, hnext⟩⟩ := hsound.getNextTask_cases
  · have hstate : s.fetch thread = s.setQueue thread ((s.threadQueueList thread).atHead i) := by
      simp [SchedState.fetch, hnext]
    rw [hstate]
    exact h.setQueue thread (hsound.atHead i) le_rfl fun _ => rfl
  · have hhead := hsound.atHead i
    by_cases hdone : job.isJobStatusSet .done = true
    · have hstate : s.fetch thread = { s.setQueue thread
          ((s.threadQueueList thread).atHead i).markTaskAsComplete with
            completed := s.completed ++ [job.processTable.address] } := by
        simp [SchedState.fetch, hnext, hdone]
      have hmoved := h.setQueue thread hhead le_rfl fun _ => rfl
      have hcomplete := hmoved.complete thread job
        (by simpa [SchedState.setQueue, ThreadQueue.atHead] using hi)
        (by simpa [SchedState.setQueue, ThreadQueue.atHead] using hjob)
      rw [hstate]
      simpa [SchedState.setQueue] using hcomplete
    · have hstate : s.fetch thread = s.setQueue thread
          (((s.threadQueueList thread).atHead i).setJobStatus i .running) := by
        simp [SchedState.fetch, hnext, hdone, ThreadQueue.atHead]
      rw [hstate]
      exact h.setQueue thread (hhead.setJobStatus i .running) le_rfl fun address =>
        ThreadQueue.holdsTask_setJobStatus _ i .running address

theorem atStage (h : s.Accounted) (stage : SchedStage n)
    (hs : StageOk { s with stage := stage }) : Accounted { s with stage := stage } :=
  ⟨h.queues, h.count, hs, h.refused⟩

/-- One move of the inner loop of `rebalance_thread_queues`. -/
theorem move (h : s.Accounted) {i : ℕ} {free busy : Fin n} (hs : s.stage = .moving i free busy)
    (ht : s.rebalance = some t) : t.Accounted := by
  have hstage := h.stage
  simp only [StageOk, hs] at hstage
  obtain ⟨hne, hroom⟩ := hstage
  simp only [SchedState.rebalance, hs] at ht
  obtain ⟨r, hpop, rfl⟩ := Option.map_eq_some_iff.mp ht
  have hsound := h.queues busy
  rcases hsound.popJob_cases with hnone | ⟨slot, job, hslot, hjob, hslice, hsome⟩
  · cases hnone.symm.trans hpop
    rw [addTo_none]
    have hsame := h.setQueue busy hsound le_rfl fun _ => rfl
    exact hsame.atStage _ trivial
  · cases hsome.symm.trans hpop
    have hroom' : ((s.setQueue busy ((s.threadQueueList busy).remove slot)).threadQueueList
        free).totalJobsInQueue < queueSize := by
      simpa [SchedState.setQueue, hne] using hroom
    obtain ⟨hrc, hqueues, hrefused, hallocated, hcount⟩ :=
      addTo_some (queues_setQueue h.queues busy (hsound.remove hslot)) hroom' hslice
    simp only [hrc, ↓reduceIte]
    refine ⟨hqueues, ?_, hne, hrefused.trans h.refused⟩
    intro address
    have hset := taskCount_setQueue s busy ((s.threadQueueList busy).remove slot) address
    have hremove := ThreadQueue.holdsTask_remove hslot hjob address
    refine Eq.trans ?_ (h.count address)
    apply (hcount address).trans
    omega

theorem rebalance (h : s.Accounted) (ht : s.rebalance = some t) : t.Accounted := by
  cases hs : s.stage with
  | idle =>
    simp only [SchedState.rebalance, hs] at ht
    split_ifs at ht
    · cases ht
      exact h
    · cases ht
      exact h.atStage _ trivial
  | balancing i =>
    simp only [SchedState.rebalance, hs] at ht
    split_ifs at ht
    · split at ht
      · cases ht
        exact h.atStage _ trivial
      · cases ht
        exact h.atStage _ trivial
    · cases ht
      exact h.atStage _ trivial
  | freeFound i free =>
    simp only [SchedState.rebalance, hs] at ht
    split at ht
    · cases ht
      exact h.atStage _ trivial
    · split_ifs at ht with hsame
      · cases ht
        exact h.atStage _ trivial
      · cases ht
        exact h.atStage _ (Ne.symm hsame)
  | testing i free busy =>
    have hstage := h.stage
    simp only [StageOk, hs] at hstage
    simp only [SchedState.rebalance, hs] at ht
    split_ifs at ht with hwait
    · cases ht
      refine h.atStage _ ⟨hstage, ?_⟩
      have hfree := (h.queues free).getTotalWaitTime_eq
      have hbusy := (h.queues busy).getTotalWaitTime_eq
      have hle := (h.queues busy).total_le
      change (s.threadQueueList free).totalJobsInQueue < queueSize
      omega
    · cases ht
      exact h.atStage _ trivial
  | moving i free busy => exact h.move hs ht

theorem step (h : s.Accounted) {e : SchedEvent n} (ht : schedStep s e = some t) :
    t.Accounted := by
  cases e with
  | scheduleTask newProc args priority starveCounter =>
    simp only [schedStep] at ht
    split at ht
    · cases ht
      exact h
    · rename_i taskPool hpush
      cases ht
      exact h.scheduleTask hpush
  | placeTask =>
    simp only [schedStep] at ht
    split_ifs at ht with hs
    exact h.placeTask hs ht
  | flushFinishedJobs thread =>
    simp only [schedStep] at ht
    split_ifs at ht
    cases ht
    exact h.flushFinishedJobs thread
  | rebalance => exact h.rebalance ht
  | getNextTask thread =>
    cases ht
    exact h.fetch thread
  | startReturns thread slot status =>
    simp only [schedStep] at ht
    split_ifs at ht
    cases ht
    exact h.startReturns thread slot status

end Accounted

/-- In every reachable state each accepted task is in exactly one place, every
queue counts its occupied slots, and no job was refused by a queue. -/
theorem tasks_accounted (jobQueues : Fin n → Fin queueSize → Option QueueJob)
    (events : List (SchedEvent n)) (h : exec schedStep (start jobQueues) events = some s) :
    (∀ address < s.allocated, s.taskCount address = 1) ∧
    (∀ i, (s.threadQueueList i).totalJobsInQueue =
        (Finset.univ.filter fun j => (s.threadQueueList i).jobSlotDone j = false).card ∧
      0 ≤ (s.threadQueueList i).totalJobsInQueue ∧
      (s.threadQueueList i).totalJobsInQueue ≤ queueSize ∧
      ∀ j, (s.threadQueueList i).jobSlotDone j = false →
        ∃ job, (s.threadQueueList i).jobQueue j = some job) ∧
    s.refused = [] := by
  have haccounted : s.Accounted :=
    exec_invariant (fun _ _ _ hs ht => hs.step ht) (accounted_start jobQueues) h
  refine ⟨fun address ha => ?_, fun i => ?_, haccounted.refused⟩
  · rw [haccounted.count, if_pos ha]
  · have hsound := haccounted.queues i
    refine ⟨hsound.total_eq_card, hsound.total_nonneg, hsound.total_le, fun j hj => ?_⟩
    obtain ⟨job, hjob, _⟩ := hsound.filled j hj
    exact ⟨job, hjob⟩

/-- Three tasks on two queues; the first is run to its end. -/
def threeTasks : List (SchedEvent 2) :=
  List.replicate 3 (.scheduleTask ⟨1, true, false, true, true⟩ (some ()) .lowPriority 0) ++
    List.replicate 3 .placeTask ++
    [.getNextTask 0, .rebalance, .getNextTask 0, .startReturns 0 1 .done, .getNextTask 0,
      .getNextTask 0]

theorem tasks_accounted_threeTasks :
    ∃ s, exec schedStep (start fun _ _ => none) threeTasks = some s ∧ s.allocated = 3 ∧
      s.completed = [2] ∧ s.taskCount 2 = 1 := by
  have hrun : ((exec schedStep (start fun _ _ => none) threeTasks).map fun s =>
      (s.allocated, s.completed)) = some (3, [2]) := by decide
  obtain ⟨s, hs, hobserved⟩ := Option.map_eq_some_iff.mp hrun
  simp only [Prod.mk.injEq] at hobserved
  refine ⟨s, hs, hobserved.1, hobserved.2, (tasks_accounted _ threeTasks hs).1 2 ?_⟩
  rw [hobserved.1]
  decide

end SchedState

end WorkerUnit
