import WorkerUnit.Library.StepSystem
import WorkerUnit.Scheduler.Job
import WorkerUnit.Scheduler.ThreadTask
import WorkerUnit.Include.Text
import WorkerUnit.Library.Semaphore
import WorkerUnit.Sender.ForwardStack
import WorkerUnit.Sender.AwaitInvariant
import WorkerUnit.Sender.SenderCalls
import WorkerUnit.Sender.Delivery
import WorkerUnit.Sender.SenderSink
import WorkerUnit.DataProcessor.DataTracker
import WorkerUnit.Socket.SocketTask
import WorkerUnit.Instance.InstanceList
import WorkerUnit.Scheduler.TaskPool
import WorkerUnit.Algorithm.AlgorithmScheduler
import WorkerUnit.Algorithm.ResultTracking
import WorkerUnit.Library.Slots
import WorkerUnit.Scheduler.ThreadQueue
import WorkerUnit.Scheduler.SchedTask
import WorkerUnit.Library.Records
import WorkerUnit.Services.FileDataBaseAccess
import WorkerUnit.DataProcessor.DataValidator
import WorkerUnit.Algorithm.CandidateElimination
import WorkerUnit.Library.Unanimous
import WorkerUnit.Algorithm.CeFinalize
import WorkerUnit.Algorithm.ParallelSplits
import WorkerUnit.DataProcessor.DataCleaner
import WorkerUnit.Receiver.UserDataParser
import WorkerUnit.DataProcessor.TablePhases
import WorkerUnit.Sender.ReferenceDeque
import WorkerUnit.Scheduler.PoolOrder
import WorkerUnit.Scheduler.Starvation
import WorkerUnit.Services.WriteBack
import WorkerUnit.Library.FirstLeast
import WorkerUnit.Library.FirstMatch
import WorkerUnit.Instance.DataBaseInstanceList
import WorkerUnit.Instance.Versions
import WorkerUnit.Services.SqliteDatabaseAccess
import WorkerUnit.Receiver.InstanceDataParser
import WorkerUnit.Receiver.Rejection
import WorkerUnit.Instance.ReferenceCounts
import WorkerUnit.Scheduler.WorkStealing
import WorkerUnit.Scheduler.LoopBody
import WorkerUnit.Scheduler.WakeUp
import WorkerUnit.Socket.ClientFlags
import WorkerUnit.Algorithm.SplitRows
import WorkerUnit.Algorithm.ClosedForm
import WorkerUnit.Library.FirstOccurrences
import WorkerUnit.Library.StableQueue
import WorkerUnit.Scheduler.StablePool
import WorkerUnit.DataProcessor.ValidateRanges
import WorkerUnit.Services.RowReplacement
import WorkerUnit.Library.Replace
import WorkerUnit.Services.CellReplacement
import WorkerUnit.Algorithm.SplitTotals
import WorkerUnit.Algorithm.ResultOrder
import WorkerUnit.Scheduler.JobReferences
import WorkerUnit.Scheduler.ProcessManager
import WorkerUnit.Scheduler.LiveProcesses
import WorkerUnit.Library.InputStream
import WorkerUnit.Services.RowCodec
import WorkerUnit.Services.ReadHandles
import WorkerUnit.Receiver.InstanceRows
import WorkerUnit.DataProcessor.HeaderColumns
import WorkerUnit.DataProcessor.InstanceValues
import WorkerUnit.Instance.CurrentVersions
import WorkerUnit.Instance.AliasKeys
import WorkerUnit.Library.CircularList
import WorkerUnit.Scheduler.RebalanceSafety
import WorkerUnit.Scheduler.IdleThreads
import WorkerUnit.Scheduler.LoadRounds
import WorkerUnit.Scheduler.Preemption
import WorkerUnit.Scheduler.QuickestQueue
import WorkerUnit.Scheduler.Admission
import WorkerUnit.Scheduler.JobRelease
import WorkerUnit.Sender.QuickSend
import WorkerUnit.Socket.Handshake
import WorkerUnit.Algorithm.FinalString
import WorkerUnit.Receiver.TableMetadata
import WorkerUnit.Scheduler.ProcessIds
import WorkerUnit.Services.DroppedFile
import WorkerUnit.Scheduler.BusiestQueue
import WorkerUnit.Services.StatsEngine
import WorkerUnit.Receiver.HeaderScan
import WorkerUnit.Library.RoundRobin
import WorkerUnit.Scheduler.JobTurns
import WorkerUnit.Library.ConceptLearning
import WorkerUnit.Algorithm.VersionSpace
import WorkerUnit.Library.BoundedRuns
import WorkerUnit.Library.LockOrder
import WorkerUnit.Worker.Locks
import WorkerUnit.Worker.TableRun
import WorkerUnit.Worker.TableProgress
import WorkerUnit.Receiver.PacketSchema
import WorkerUnit.Receiver.Receiver
import WorkerUnit.Receiver.ReceiverRun
import WorkerUnit.Library.SharedStore
import WorkerUnit.Scheduler.StageRun
import WorkerUnit.Worker.ServedTables
import WorkerUnit.Worker.DataProcessor
import WorkerUnit.Worker.SentInOrder
import WorkerUnit.Instance.FrozenVersions
import WorkerUnit.Scheduler.LoopBodyFrame
import WorkerUnit.Scheduler.WorkThreads
import WorkerUnit.Scheduler.Drain
import WorkerUnit.Scheduler.FetchedJobs
