import Mathlib.Data.Nat.Bitwise
import WorkerUnit.Include.Text

/-!
# Jobs, their status bits and their time slices

The records of `include/task.hpp`, `include/process.hpp` and the `QueueJob` of
`scheduler/sched.hpp`. A callback pointer of `ProcessStates` is represented by
whether it is set, since the scheduler only tests and calls it. Allocations of
`ProcessTable` are numbered, and the number stands for the address.
-/

namespace WorkerUnit

/-- The job states; a process table collects them as bits. -/
inductive JobStatus where
  | running | pending | waiting | failed | finalized | done
  deriving DecidableEq, Repr

namespace JobStatus

def bit : JobStatus → ℕ
  | running => 0
  | pending => 1
  | waiting => 2
  | failed => 3
  | finalized => 4
  | done => 5

/-- The enumerator, `1 << bit`. -/
def value (s : JobStatus) : ℕ := 2 ^ s.bit

theorem bit_injective : Function.Injective bit := by
  intro a b h
  cases a <;> cases b <;> first | rfl | cases h

end JobStatus

inductive TaskPriority where
  | nonPreemtable | highPriority | mediumPriority | lowPriority
  deriving DecidableEq, Repr

def TaskPriority.value : TaskPriority → ℕ
  | nonPreemtable => 0
  | highPriority => 1
  | mediumPriority => 2
  | lowPriority => 3

/-- `NR_PROCESS`: one more than the largest process type, `COMPUTE_STAGE = 4`. -/
def nrProcess : ℕ := 5

structure ProcessStates where
  type : ℕ
  startProc : Bool
  pauseProc : Bool
  endProc : Bool
  failProc : Bool
  deriving DecidableEq, Repr

structure ProcessTable where
  address : ℕ
  processState : ProcessStates
  jobStatus : ℕ
  priority : TaskPriority
  deriving DecidableEq, Repr

/-- What `registerProcess` allocates and `scheduleTask` fills in: the status
word of a new table is zero. -/
def ProcessTable.registered (address : ℕ) (processState : ProcessStates)
    (priority : TaskPriority) : ProcessTable :=
  ⟨address, processState, 0, priority⟩

structure TableMetadata where
  rows : ℕ
  columns : ℕ
  deriving DecidableEq, Repr

structure TableData where
  metadata : TableMetadata
  tableID : Text
  priority : TaskPriority
  instanceType : Text
  deriving DecidableEq, Repr

structure QueueJob where
  cpuSliceMs : ℕ
  processTable : ProcessTable
  jobErrorHandle : Bool
  deriving DecidableEq, Repr

namespace QueueJob

/-- The constructor. -/
def new (processTable : ProcessTable) : QueueJob := ⟨0, processTable, false⟩

/-- The setter assigns the member to itself, so its argument is dropped. -/
def setCpuTimeSlice (job : QueueJob) (_cpuTimeSlice : ℕ) : QueueJob :=
  { job with cpuSliceMs := job.cpuSliceMs }

def getCpuTimeSlice (job : QueueJob) : ℕ := job.cpuSliceMs

def setJobStatus (job : QueueJob) (status : JobStatus) : QueueJob :=
  { job with processTable :=
    { job.processTable with jobStatus := job.processTable.jobStatus ||| status.value } }

def isJobStatusSet (job : QueueJob) (status : JobStatus) : Bool :=
  status.value &&& job.processTable.jobStatus != 0

theorem isJobStatusSet_eq_testBit (job : QueueJob) (status : JobStatus) :
    job.isJobStatusSet status = job.processTable.jobStatus.testBit status.bit := by
  rw [isJobStatusSet, JobStatus.value, Nat.two_pow_and]
  cases job.processTable.jobStatus.testBit status.bit <;> simp

/-- Statuses are only ever OR-ed in. -/
@[simp] theorem isJobStatusSet_setJobStatus (job : QueueJob) (s t : JobStatus) :
    (job.setJobStatus s).isJobStatusSet t = (job.isJobStatusSet t || decide (s = t)) := by
  simp only [isJobStatusSet_eq_testBit, setJobStatus, Nat.testBit_or, JobStatus.value,
    Nat.testBit_two_pow]
  simp [JobStatus.bit_injective.eq_iff]

@[simp] theorem setJobStatus_jobErrorHandle (job : QueueJob) (s : JobStatus) :
    (job.setJobStatus s).jobErrorHandle = job.jobErrorHandle := rfl

@[simp] theorem setJobStatus_getCpuTimeSlice (job : QueueJob) (s : JobStatus) :
    (job.setJobStatus s).getCpuTimeSlice = job.getCpuTimeSlice := rfl

@[simp] theorem setJobStatus_address (job : QueueJob) (s : JobStatus) :
    (job.setJobStatus s).processTable.address = job.processTable.address := rfl

end QueueJob

/-- `calculate_priority_timeslice`, in nanoseconds (`NANOSECS` is a million). -/
def calculatePriorityTimeslice : TaskPriority → ℕ
  | .nonPreemtable => 0
  | .highPriority => 6 * 1000000
  | .mediumPriority => 4 * 1000000
  | .lowPriority => 2 * 1000000

/-- `init_job`: it divides by the process type, which is undefined for type 0. -/
def initJob (procTable : ProcessTable) : Option QueueJob :=
  if procTable.processState.type = 0 then none
  else some ((QueueJob.new procTable).setCpuTimeSlice
    (calculatePriorityTimeslice procTable.priority / procTable.processState.type))

theorem initJob_eq_some {procTable : ProcessTable} {job : QueueJob}
    (h : initJob procTable = some job) : job = QueueJob.new procTable := by
  unfold initJob at h
  split_ifs at h
  exact (Option.some.inj h).symm

/-- A job before its first dispatch: no status bit and no error are recorded. -/
def QueueJob.Fresh (job : QueueJob) : Prop :=
  job.processTable.jobStatus = 0 ∧ job.jobErrorHandle = false

instance (job : QueueJob) : Decidable job.Fresh :=
  inferInstanceAs (Decidable (_ ∧ _))

/-- Every job the scheduler builds from a registered table is fresh. -/
theorem initJob_fresh {address : ℕ} {states : ProcessStates} {priority : TaskPriority}
    {job : QueueJob}
    (h : initJob (.registered address states priority) = some job) : job.Fresh := by
  rw [initJob_eq_some h]
  exact ⟨rfl, rfl⟩

theorem QueueJob.Fresh.isJobStatusSet {job : QueueJob} (h : job.Fresh) (s : JobStatus) :
    job.isJobStatusSet s = false := by
  simp [QueueJob.isJobStatusSet_eq_testBit, h.1]

end WorkerUnit
