import WorkerUnit.Receiver.Receiver
import WorkerUnit.Scheduler.StageRun

/-!
# The job of a received packet

`init_receiver` schedules a job whose task is `receiver_proccess` and whose end is
`receiver_finalize` or `receiver_fail`. Between two calls of the job the rest of the worker
may do anything. The server is answered once, when the job ends, and a packet that is
broken is called again and again.
-/

namespace WorkerUnit

open StepSystem

/-- `receiver_proc`. -/
def receiverProc : ProcessStates := ⟨1, true, false, true, true⟩

/-- What `init_job` makes of it. -/
def receiverJob (address : ℕ) : QueueJob :=
  .new (.registered address receiverProc .nonPreemtable)

/-- `pushed` are the packages of this packet for the server, and `processed` its tables
that were handed to `init_data_processor`. -/
structure ReceiverData where
  receiver : Receiver
  worker : WorkerState
  pushed : List ForwardStackPackage
  processed : List TableData

namespace ReceiverRun

/-- The callbacks of `receiver_proc`. -/
def callbacks : StageCallbacks ReceiverData CallContext WorkerState where
  startProc c d := (d.receiver.identifyPacketType c d.worker).map
    fun (status, receiver, worker) =>
      (Receiver.receiverProccess status, { d with receiver := receiver, worker := worker })
  endProc d := (Receiver.receiverFinalize d.worker.store.instanceList d.receiver).map
    fun (pushed, processed) =>
      { d with pushed := d.pushed ++ pushed, processed := d.processed ++ processed }
  failProc d := some
    { d with pushed := d.pushed ++ Receiver.receiverFail d.worker.store.instanceList d.receiver }
  other d worker := { d with worker := worker }

/-- `init_receiver`. -/
def start (address : ℕ) (packet : Json) (worker : WorkerState) : StageRun ReceiverData :=
  .start (receiverJob address) ⟨.new packet, worker, [], []⟩

end ReceiverRun

/-- What the server is told of a packet when its job has ended, and which table goes on. -/
def Answered (statuses : List JobStatus) (pushed : List ForwardStackPackage)
    (processed : List TableData) : PacketKind → Prop
  | .broken | .overflow => False
  | .handshake _ | .acknowledge _ _ => pushed = [] ∧ processed = []
  | .userTable packet =>
    (.failed ∉ statuses ∧ pushed = [⟨.datRecvd, packet.priority.value, packet.tableid, []⟩] ∧
      ∃ tableData, processed = [tableData] ∧ tableData.tableID = packet.tableid ∧
        tableData.priority = packet.priority) ∨
    (.failed ∈ statuses ∧ processed = [] ∧
      ∃ name, pushed = [⟨.recvErr, TaskPriority.highPriority.value, name, []⟩] ∧
        (name = [] ∨ ∃ rand, packet.tableid = newAlias name rand))
  | .instanceData instanceid _ _ =>
    processed = [] ∧ ∃ name, (name = instanceid ∨ name = []) ∧
      ((.failed ∉ statuses ∧
          pushed = [⟨.datRecvd, TaskPriority.lowPriority.value, name, []⟩]) ∨
        (.failed ∈ statuses ∧
          pushed = [⟨.recvErr, TaskPriority.highPriority.value, name, []⟩]))

/-- The name of an alias in the list, or no name. -/
theorem DataBaseInstanceList.getInstanceActualName_cases (d : DataBaseInstanceList)
    (aliasName : Text) : d.getInstanceActualName aliasName = [] ∨
      ∃ rand, aliasName = newAlias (d.getInstanceActualName aliasName) rand := by
  unfold getInstanceActualName
  cases hfind : d.instanceList.find? fun m => m.aliasName == aliasName with
  | none => exact .inl rfl
  | some m =>
    right
    have halias : m.aliasName = aliasName := by simpa using List.find?_some hfind
    obtain ⟨rand, hrand⟩ := d.named m (List.mem_of_find?_eq_some hfind)
    exact ⟨rand, halias.symm.trans hrand⟩

theorem DataBaseInstanceList.getInstanceActualName_newAlias (d : DataBaseInstanceList)
    (instanceName : Text) (rand : ℕ → ℕ) :
    d.getInstanceActualName (newAlias instanceName rand) = instanceName ∨
      d.getInstanceActualName (newAlias instanceName rand) = [] := by
  rcases d.getInstanceActualName_cases (newAlias instanceName rand) with hnone | ⟨_, hname⟩
  · exact .inr hnone
  · exact .inl (newAlias_inj hname).symm

section Answers

variable {r receiver : Receiver} {kind : PacketKind} {status : PacketStatus}
  {statuses : List JobStatus}

/-- A table or an instance that was rejected before it was accepted. -/
theorem Receiver.Identifies.fail_answers (h : r.Identifies kind status receiver)
    (hstatus : status ≠ .error) (hrejected : ∃ r₁ r₂ : Receiver, r₁.Identifies kind .error r₂)
    (hfailed : JobStatus.failed ∈ statuses) (instances : DataBaseInstanceList) :
    Answered statuses (receiverFail instances receiver) [] kind := by
  obtain ⟨r₁, r₂, hrejected⟩ := hrejected
  cases h with
  | broken | unknownInstance | rejected => exact absurd rfl hstatus
  | handshake id => cases hrejected
  | acknowledge statusCode id =>
    cases hrejected with
    | acknowledge _ _ _ hne => exact absurd rfl hne
  | accepted packet tableData _ htable =>
    refine .inr ⟨hfailed, rfl, _, rfl, ?_⟩
    rw [htable]
    split_ifs with hempty
    · exact .inl rfl
    · exact instances.getInstanceActualName_cases packet.tableid
  | registered instanceid data algotype rand =>
    have hne : ¬ (newAlias instanceid rand).isEmpty = true := by simp [newAlias]
    refine ⟨rfl, _, instances.getInstanceActualName_newAlias instanceid rand, .inr ⟨hfailed, ?_⟩⟩
    rw [receiverFail, if_neg hne]

/-- A packet that was accepted by its first call. -/
theorem Receiver.Identifies.finalize_answers {packet : Json}
    (h : (new packet).Identifies kind status receiver) (hstatus : status ≠ .error)
    (hfailed : JobStatus.failed ∉ statuses) (instances : DataBaseInstanceList) :
    ∃ pushed processed, receiverFinalize instances receiver = some (pushed, processed) ∧
      Answered statuses pushed processed kind := by
  cases h with
  | broken | unknownInstance | rejected => exact absurd rfl hstatus
  | handshake id => exact ⟨[], [], rfl, rfl, rfl⟩
  | acknowledge statusCode id => exact ⟨[], [], rfl, rfl, rfl⟩
  | accepted packet tableData _ htable hmarked hdata hid hpriority =>
    refine ⟨_, _, by rw [receiverFinalize, if_pos hmarked, hdata, Option.map_some], .inl
      ⟨hfailed, ?_, tableData, rfl, hid, hpriority⟩⟩
    rw [hpriority, htable]
  | registered instanceid data algotype rand =>
    have hne : ¬ (newAlias instanceid rand).isEmpty = true := by simp [newAlias]
    refine ⟨_, _, ?_, rfl, _, instances.getInstanceActualName_newAlias instanceid rand,
      .inl ⟨hfailed, rfl⟩⟩
    simp only [receiverFinalize, new, Bool.false_eq_true, if_false, if_neg hne]

end Answers

namespace ReceiverRun

variable {packet : Json} {s : StageRun ReceiverData}

/-- What is known of a packet until its job ends. -/
structure Received (packet : Json) (d : ReceiverData) (statuses : List JobStatus) : Prop where
  packet_eq : d.receiver.packet = packet
  marked : d.receiver.Marked
  silent : d.pushed = [] ∧ d.processed = []
  begun : statuses = [] → d.receiver = Receiver.new packet
  rejected : .failed ∈ statuses →
    ∃ r r' : Receiver, r.Identifies (packetKind packet) .error r'
  accepted : .done ∈ statuses → ∃ (r : Receiver) (status : PacketStatus), status ≠ .error ∧
    r.Identifies (packetKind packet) status d.receiver ∧
    (.failed ∉ statuses → r = Receiver.new packet)

theorem received_start (packet : Json) (worker : WorkerState) :
    Received packet ⟨.new packet, worker, [], []⟩ [] :=
  ⟨rfl, Receiver.marked_new packet, ⟨rfl, rfl⟩, fun _ => rfl, by simp, by simp⟩

theorem receiverProccess_eq_failed {status : PacketStatus} :
    Receiver.receiverProccess status = .failed ↔ status = .error := by
  cases status <;> simp [Receiver.receiverProccess]

theorem Received.startProc {d d' : ReceiverData} {c : CallContext} {status : JobStatus} {k : ℕ}
    (hs : Received packet d (List.replicate k .failed))
    (h : callbacks.startProc c d = some (status, d')) :
    (status = .done ∨ status = .failed) ∧
      Received packet d' (List.replicate k .failed ++ [status]) := by
  obtain ⟨⟨result, receiver, worker⟩, hidentify, heq⟩ := Option.map_eq_some_iff.mp h
  simp only [Prod.mk.injEq] at heq
  obtain ⟨rfl, rfl⟩ := heq
  obtain ⟨hidentifies, hpacket, hmarked⟩ := Receiver.identifies hs.marked hidentify
  rw [hs.packet_eq] at hidentifies
  constructor
  · cases result <;> simp [Receiver.receiverProccess]
  constructor
  · exact hpacket.trans hs.packet_eq
  · exact hmarked
  · exact hs.silent
  · simp
  · intro hfailed
    rcases List.mem_append.mp hfailed with hfailed | hfailed
    · exact hs.rejected hfailed
    · obtain rfl := receiverProccess_eq_failed.mp (List.mem_singleton.mp hfailed).symm
      exact ⟨_, _, hidentifies⟩
  · intro hdone
    have hresult : result ≠ .error := by
      rintro rfl
      simp [Receiver.receiverProccess] at hdone
    refine ⟨d.receiver, result, hresult, hidentifies, fun hfailed => ?_⟩
    cases k with
    | zero => exact hs.begun rfl
    | succ k => simp at hfailed

theorem keeps (packet : Json) : callbacks.Keeps (fun _ => True) (Received packet)
    fun d statuses => Answered statuses d.pushed d.processed (packetKind packet) := by
  constructor
  · exact fun hs h => hs.startProc h
  · intro d d' hs h
    obtain ⟨⟨pushed, processed⟩, hfinalize, rfl⟩ := Option.map_eq_some_iff.mp h
    obtain ⟨r, status, hstatus, hidentifies, hnew⟩ := hs.accepted (List.mem_singleton_self _)
    obtain rfl := hnew (by decide)
    have hfailed : JobStatus.failed ∉ [JobStatus.done] := by decide
    obtain ⟨_, _, hfinalize', hanswered⟩ :=
      hidentifies.finalize_answers hstatus hfailed d.worker.store.instanceList
    rw [hfinalize', Option.some.injEq, Prod.mk.injEq] at hfinalize
    obtain ⟨rfl, rfl⟩ := hfinalize
    dsimp only
    rw [hs.silent.1, hs.silent.2]
    exact hanswered
  · intro d d' k hs h
    cases h
    have hfailed : JobStatus.failed ∈ List.replicate (k + 1) JobStatus.failed ++ [.done] := by simp
    obtain ⟨r, status, hstatus, hidentifies, _⟩ := hs.accepted (by simp)
    dsimp only
    rw [hs.silent.1, hs.silent.2]
    exact hidentifies.fail_answers hstatus (hs.rejected hfailed) hfailed _
  · exact fun hs _ => ⟨hs.packet_eq, hs.marked, hs.silent, hs.begun, hs.rejected, hs.accepted⟩
  · exact fun hs _ => hs

theorem fresh_receiverJob (address : ℕ) : (receiverJob address).Fresh := ⟨rfl, rfl⟩

/-- Whatever the rest of the worker does between the calls, the server hears nothing of a
packet before its job has ended, and then what its kind and its first call decide. -/
theorem answered_of_exec {address : ℕ} {worker : WorkerState}
    {es : List (StageEvent CallContext WorkerState)}
    (hrun : exec (StageRun.stageStep callbacks) (start address packet worker) es = some s) :
    (s.job.stage ≠ .freed → s.data.pushed = [] ∧ s.data.processed = []) ∧
      (s.job.stage = .freed →
        Answered s.statuses s.data.pushed s.data.processed (packetKind packet)) := by
  have hs := (StageRun.kept_start (fresh_receiverJob address)
    (received_start packet worker)).exec (keeps packet) (fun _ _ => trivial) hrun
  exact ⟨fun hopen => (hs.opened hopen).silent, hs.closed⟩

theorem fails (hkind : packetKind packet = .broken) :
    callbacks.Fails (fun _ => True) fun d => d.receiver.packet = packet ∧ d.receiver.Marked := by
  constructor
  · rintro d ⟨hpacket, hmarked⟩ c
    obtain ⟨r', hcall⟩ := Receiver.identifyPacketType_of_broken c d.worker hmarked
      (hpacket ▸ hkind)
    obtain ⟨_, hkept, hmarked'⟩ := Receiver.identifies hmarked hcall
    refine ⟨{ d with receiver := r' }, ?_, hkept.trans hpacket, hmarked'⟩
    simp [callbacks, hcall, Receiver.receiverProccess]
  · exact fun hs _ => hs

/-- A broken packet is called any number of times, whatever happens in between: its job
never ends, and the server hears nothing of it. -/
theorem broken_never_ends {address : ℕ} {worker : WorkerState}
    {es : List (StageEvent CallContext WorkerState)} (hkind : packetKind packet = .broken)
    (hrun : exec (StageRun.stageStep callbacks) (start address packet worker) es = some s)
    (c : CallContext) (k : ℕ) :
    s.job.stage ≠ .freed ∧ s.data.pushed = [] ∧ s.data.processed = [] ∧
      (∀ status ∈ s.statuses, status = .failed) ∧
      ∃ more t, exec (StageRun.stageStep callbacks) s more = some t ∧
        t.statuses = s.statuses ++ List.replicate k .failed := by
  obtain ⟨hopen, hfailed, hmore⟩ := StageRun.never_ends (fails hkind) (fresh_receiverJob address)
    ⟨rfl, Receiver.marked_new packet⟩ (fun _ _ => trivial) hrun c k
  obtain ⟨hpushed, hprocessed⟩ := (answered_of_exec hrun).1 hopen
  exact ⟨hopen, hpushed, hprocessed, hfailed, hmore⟩

end ReceiverRun

/-- A packet with a table of the instance `i`. -/
def tablePacket (priority : Json) : Json :=
  .object [("head".toList, .numberUnsigned 2), ("id".toList, .string ['s']),
    ("body".toList, .object [("tableid".toList, .string ['t']), ("priority".toList, priority),
      ("instancetype".toList, .string ['i']), ("data".toList, .string ['h', '\n', 'a'])])]

def idleWorker (instances : DataBaseInstanceList) : WorkerState :=
  ⟨['w'], .init, ⟨instances, ⟨∅, 0⟩, []⟩, fun _ => none⟩

def plainContext : CallContext := ⟨.plain fun _ => true, fun _ => 0, '\x00'⟩

namespace ReceiverRun

/-- The events of one call. -/
def oneCall : List (StageEvent CallContext WorkerState) :=
  [.task .dispatch plainContext, .task .iterate plainContext, .task .startReturns plainContext]

/-- The instance arrives when the first call has been made. -/
def lateInstance : List (StageEvent CallContext WorkerState) :=
  oneCall ++ .other (idleWorker (DataBaseInstanceList.init.addInstance ['i'] fun _ => 0)) ::
    oneCall ++ [.task .dispatch plainContext]

/-- The table is accepted, and the server is told of an error that names no table. -/
theorem answered_of_exec_lateInstance :
    ∃ s, exec (StageRun.stageStep callbacks)
        (start 0 (tablePacket (.numberUnsigned 2)) (idleWorker .init)) lateInstance = some s ∧
      s.job.stage = .freed ∧ s.statuses = [.failed, .done] ∧
      Answered s.statuses s.data.pushed s.data.processed
        (packetKind (tablePacket (.numberUnsigned 2))) := by
  have hrun : (exec (StageRun.stageStep callbacks)
      (start 0 (tablePacket (.numberUnsigned 2)) (idleWorker .init)) lateInstance).map
      (fun s => (s.job.stage, s.statuses)) = some (.freed, [.failed, .done]) := by rfl
  obtain ⟨s, hs, hend⟩ := Option.map_eq_some_iff.mp hrun
  obtain ⟨hfreed, hstatuses⟩ := Prod.mk.inj hend
  exact ⟨s, hs, hfreed, hstatuses, (answered_of_exec hs).2 hfreed⟩

/-- A launch without a connection hands the receiver a null packet. -/
theorem broken_never_ends_null :
    ∃ s, exec (StageRun.stageStep callbacks) (start 0 .null (idleWorker .init)) oneCall =
        some s ∧
      s.job.stage ≠ .freed ∧ s.data.pushed = [] ∧ s.data.processed = [] ∧
      (∀ status ∈ s.statuses, status = .failed) ∧
      ∃ more t, exec (StageRun.stageStep callbacks) s more = some t ∧
        t.statuses = s.statuses ++ List.replicate 1000 .failed := by
  have hrun : (exec (StageRun.stageStep callbacks) (start 0 .null (idleWorker .init))
      oneCall).isSome = true := rfl
  obtain ⟨s, hs⟩ := Option.isSome_iff_exists.mp hrun
  exact ⟨s, hs, broken_never_ends rfl hs plainContext 1000⟩

/-- The schema admits a text as a priority, and the conversion of the text fails. -/
example : packetKind (tablePacket (.string ['2'])) = .broken := by rfl

end ReceiverRun

end WorkerUnit
