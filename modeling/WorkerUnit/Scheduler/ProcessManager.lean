import WorkerUnit.Scheduler.WorkStealing

/-!
# Registered processes and the calls that look at them

`globalProcessManager` beside the queues. A task waits in the pool, or with the
scheduler thread between `getScheduledTask` and `addNewTask`; `thread_task` takes
one of its calls at a time. Process tables are numbered, and `pidVector` has the
numbers of those that are registered. A table that is deleted keeps what it held.
-/

namespace WorkerUnit

open StepSystem

/-- The call that a task thread makes next. -/
inductive WorkerCall where
  | getNextTask
  | testDone
  | runEndProcess
  | unregisterProcess
  | markTaskAsComplete
  | setRunning
  | runStartProcess
  | setReturned (status : JobStatus)
  | testPending
  | testStillDone
  | testFailed
  deriving DecidableEq, Repr

/-- The tables that `popJob` looks at in the listed slots. -/
def ThreadQueue.popReads (q : ThreadQueue) : List (Fin queueSize) → List ℕ
  | [] => []
  | i :: is =>
    if q.jobSlotDone i then popReads q is
    else match q.jobQueue i with
      | none => []
      | some job =>
        job.processTable.address ::
          if !job.isJobStatusSet .running && !job.isJobStatusSet .finalized then []
          else popReads q is

/-- `scheduled` is the queue that `sched_task` has chosen and the task that it has
taken from the pool for it. -/
structure LiveState (n : ℕ) where
  steal : StealState n
  calls : Fin n → WorkerCall
  taskPool : TaskPool
  scheduled : Option (Fin n × TaskData)
  pidVector : List ℕ

/-- `status` is what `start_proc` returns, when that is the call. -/
inductive LiveEvent (n : ℕ) where
  | scheduleTask (newProc : ProcessStates) (args : Option Unit) (priority : TaskPriority)
      (starveCounter : ℕ)
  | getScheduledTask
  | placeTask
  | flushFinishedJobs (thread : Fin n)
  | rebalance
  | popJob
  | addNewTask
  | threadTask (thread : Fin n) (status : JobStatus)

namespace LiveState

variable {n : ℕ}

def start (jobQueues : Fin n → Fin queueSize → Option QueueJob) : LiveState n :=
  ⟨.start jobQueues, fun _ => .getNextTask, [], none, []⟩

def goTo (s : LiveState n) (thread : Fin n) (call : WorkerCall) : LiveState n :=
  { s with calls := Function.update s.calls thread call }

def withSteal (s : LiveState n) (steal : StealState n) : LiveState n := { s with steal := steal }

/-- The pool has the task of a process that is registered. -/
def register (s : LiveState n) (taskPool : TaskPool) : LiveState n :=
  { s with
    steal := { s.steal with allocated := s.steal.allocated + 1 }
    taskPool := taskPool
    pidVector := s.pidVector ++ [s.steal.allocated] }

/-- `addNewTask` on the queue that `sched_task` has chosen. -/
def place (s : LiveState n) (threadId : Fin n) (job : QueueJob) : LiveState n :=
  { s with
    steal := s.steal.setQueue threadId
      ((s.steal.threadQueueList threadId).addNewTask (some job)).2
    scheduled := none }

/-- A call of the scheduler thread on the queues. -/
def onQueues (s : LiveState n) (e : StealEvent n) : Option (LiveState n) :=
  if s.scheduled.isSome then none else (StealState.stealStep s.steal e).map s.withSteal

/-- The next call of `thread_task` on its job. The timer never asks for a pause. -/
def threadTask (s : LiveState n) (thread : Fin n) (status : JobStatus) : Option (LiveState n) :=
  match s.calls thread, (s.steal.workers thread).job with
  | .getNextTask, _ =>
    (StealState.stealStep s.steal (.getNextTask thread)).map fun steal =>
      (s.withSteal steal).goTo thread
        (if (steal.workers thread).job.isSome then .testDone else .getNextTask)
  | _, none => none
  | .testDone, some job =>
    some (s.goTo thread (if job.isJobStatusSet .done then .runEndProcess else .setRunning))
  | .runEndProcess, some _ => some (s.goTo thread .unregisterProcess)
  | .unregisterProcess, some job =>
    some
      { s.goTo thread .markTaskAsComplete with
        pidVector := s.pidVector.erase job.processTable.address }
  | .markTaskAsComplete, some _ =>
    (s.steal.close thread).map fun steal => (s.withSteal steal).goTo thread .getNextTask
  | .setRunning, some job =>
    let steal := s.steal.write job.processTable.address fun job => job.setJobStatus .running
    some ((s.withSteal (steal.setWorker thread (.running (job.setJobStatus .running)))).goTo
      thread .runStartProcess)
  | .runStartProcess, some _ => some (s.goTo thread (.setReturned status))
  | .setReturned result, some job =>
    let steal := s.steal.write job.processTable.address fun job => job.setJobStatus result
    some ((s.withSteal steal).goTo thread .testPending)
  | .testPending, some job =>
    some (s.goTo thread (if job.isJobStatusSet .pending then .testStillDone else .testFailed))
  | .testStillDone, some job =>
    some (s.goTo thread (if job.isJobStatusSet .done then .testFailed else .runStartProcess))
  | .testFailed, some job =>
    let steal :=
      if job.isJobStatusSet .failed then
        s.steal.write job.processTable.address fun job => { job with jobErrorHandle := true }
      else s.steal
    some ((s.withSteal (steal.setWorker thread .idle)).goTo thread .getNextTask)

/-- `scheduleTask` registers a process, and `placeTask` is `addNewTask` on the job
that `init_job` makes of the scheduled task. -/
def liveStep (s : LiveState n) : LiveEvent n → Option (LiveState n)
  | .scheduleTask newProc args priority starveCounter =>
    match scheduleTask s.taskPool s.steal.allocated starveCounter newProc args priority with
    | none => some s
    | some taskPool => some (s.register taskPool)
  | .getScheduledTask =>
    match s.steal.stage, s.scheduled, getQuickestQueue s.steal.threadQueueList,
      s.taskPool.popTask with
    | .idle, none, some threadId, some (taskData, taskPool) =>
      some { s with taskPool := taskPool, scheduled := some (threadId, taskData) }
    | _, _, _, _ => none
  | .placeTask =>
    match s.scheduled with
    | none => none
    | some (threadId, taskData) => (initJob taskData.procTable).map (s.place threadId)
  | .flushFinishedJobs thread => s.onQueues (.flushFinishedJobs thread)
  | .rebalance => s.onQueues .rebalance
  | .popJob => s.onQueues .popJob
  | .addNewTask => s.onQueues .addNewTask
  | .threadTask thread status => s.threadTask thread status

/-- The tables whose status the call reads or writes. -/
def statusAccesses (s : LiveState n) : LiveEvent n → List ℕ
  | .popJob =>
    match s.steal.stage with
    | .moving _ _ busiestThreadId =>
      (s.steal.threadQueueList busiestThreadId).popReads (List.finRange queueSize)
    | _ => []
  | .threadTask thread _ =>
    match s.calls thread with
    | .getNextTask | .runEndProcess | .unregisterProcess | .runStartProcess => []
    | .markTaskAsComplete =>
      let queue := s.steal.threadQueueList thread
      ((queue.jobQueue queue.head).map (·.processTable.address)).toList
    | _ => ((s.steal.workers thread).job.map (·.processTable.address)).toList
  | _ => []

/-- Every job in a slot whose flag is clear, and every status that a call looks at
or changes, is of a registered process. -/
structure ProcessesLive (s : LiveState n) : Prop where
  slots : ∀ thread slot job, (s.steal.threadQueueList thread).occupied slot = some job →
    job.processTable.address ∈ s.pidVector
  accesses : ∀ e, (liveStep s e).isSome → ∀ address ∈ s.statusAccesses e, address ∈ s.pidVector

/-- No process is unregistered. -/
def KeepsProcesses (s : LiveState n) (e : LiveEvent n) : Prop :=
  ∀ thread status, e = .threadTask thread status → s.calls thread ≠ .unregisterProcess

/-- `popJob` leaves the jobs that a task thread has fetched and not yet set
running. -/
def LeavesFetched (s : LiveState n) (e : LiveEvent n) : Prop :=
  e = .popJob → s.steal.LeavesFetched .popJob

end LiveState

end WorkerUnit
