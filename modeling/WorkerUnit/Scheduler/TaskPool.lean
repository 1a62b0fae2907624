import WorkerUnit.Scheduler.Job

/-!
# The task pool

`scheduler/task_pool.cpp`. The pool is a list of tasks, and each of its methods
is atomic: the source holds `sinkLock` while it changes the list.
-/

namespace WorkerUnit

structure TaskData where
  procTable : ProcessTable
  poolPriority : TaskPriority
  starveCounter : ℕ
  deriving DecidableEq, Repr

def getStarveLimit (prior : ℕ) : ℕ :=
  match prior with
  | 1 => 4
  | 2 => 6
  | 3 => 8
  | _ => 0

/-- The aging of a task that is overtaken. The limit is looked up with the
counter itself, and the promotion computes a priority that it drops. -/
def TaskData.overtaken (task : TaskData) : TaskData :=
  if task.starveCounter > getStarveLimit task.starveCounter then { task with starveCounter := 0 }
  else { task with starveCounter := (task.starveCounter + 1) % 2 ^ 16 }

abbrev TaskPool := List TaskData

namespace TaskPool

/-- The new task goes before the first task of a smaller priority value. -/
def pushTask (taskSink : TaskPool) (taskData : TaskData) : TaskPool :=
  match taskSink with
  | [] => [taskData]
  | task :: rest =>
    if task.poolPriority.value < taskData.poolPriority.value then
      taskData :: (task :: rest).map TaskData.overtaken
    else task :: pushTask rest taskData

def popTask : TaskPool → Option (TaskData × TaskPool)
  | [] => none
  | task :: rest => some (task, rest)

def procTables (taskSink : TaskPool) : List ProcessTable := taskSink.map (·.procTable)

@[simp] theorem overtaken_procTable (task : TaskData) :
    task.overtaken.procTable = task.procTable := by
  unfold TaskData.overtaken
  split_ifs <;> rfl

/-- A pushed task is in the pool once, and no other task is lost or copied. -/
theorem procTables_pushTask (taskSink : TaskPool) (taskData : TaskData) :
    (taskSink.pushTask taskData).procTables.Perm (taskData.procTable :: taskSink.procTables) := by
  induction taskSink with
  | nil => exact .refl _
  | cons task rest ih =>
    unfold pushTask
    split_ifs
    · simp [procTables, Function.comp_def]
    · exact (ih.cons _).trans (.swap ..)

end TaskPool

def isProcessTypeValid (type : ℕ) : Bool := type < nrProcess

/-- The checks of `scheduleTask`; `none` is a null pointer. -/
def scheduleTaskAccepts {α : Type*} (newProc : Option ProcessStates) (args : Option α) : Bool :=
  match newProc, args with
  | some proc, some _ => proc.startProc && proc.endProc && isProcessTypeValid proc.type
  | _, _ => false

/-- `scheduleTask`: the process table allocated at `address` joins the pool.
The starve counter of a new task is not initialised. -/
def scheduleTask {α : Type*} (taskSink : TaskPool) (address starveCounter : ℕ)
    (newProc : ProcessStates) (args : Option α) (priority : TaskPriority) : Option TaskPool :=
  if scheduleTaskAccepts (some newProc) args then
    some (taskSink.pushTask ⟨.registered address newProc priority, priority, starveCounter⟩)
  else none

end WorkerUnit
