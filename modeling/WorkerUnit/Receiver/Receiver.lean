import Mathlib.Data.Int.Bitwise
import WorkerUnit.Instance.Versions
import WorkerUnit.Receiver.PacketSchema
import WorkerUnit.Sender.ForwardStack

/-!
# The receiver stage

`receiver_proc/receiver.cpp`. A packet is identified by the bits of its head, and one whose
body is corrupted falls through to the tests for an acknowledgement. What a packet is does
not depend on the worker, so its kind is stated first; `identifyPacketType` is what the
source does.
-/

namespace WorkerUnit

/-- The values of `ReceiverStatus` that `identifyPacketType` returns. -/
inductive PacketStatus where
  | empty
  | ok
  | error
  | success
  deriving DecidableEq, Repr

def ReceiverStatus.toPacketStatus : ReceiverStatus → PacketStatus
  | .error => .error
  | .success => .success

/-- The bits of `server_packet_status`. -/
def spHandshakeBit : ℕ := 0
def spDataSentBit : ℕ := 1
def spIntrAckBit : ℕ := 2
def spFresAckBit : ℕ := 3

/-- `indexOfTaskPriority`, for the values that are enumerated. -/
def TaskPriority.ofValue : ℤ → Option TaskPriority
  | 0 => some .nonPreemtable
  | 1 => some .highPriority
  | 2 => some .mediumPriority
  | 3 => some .lowPriority
  | _ => none

/-- What the receiver reaches of the worker. -/
structure WorkerState where
  workerId : Text
  fwdStack : ForwardStack
  store : InstanceStore
  disk : Disk

/-- What SQLite, the random numbers and the memory in front of a text are in one call. -/
structure CallContext where
  rc : SqliteCalls
  rand : ℕ → ℕ
  before : Char

structure Receiver where
  packet : Json
  tableId : Text
  isUserData : Bool
  tData : Option TableData

namespace Receiver

/-- The constructor. -/
def new (packet : Json) : Receiver := ⟨packet, [], false, none⟩

def validatePacketHead (r : Receiver) : Bool := packetSchema.validate r.packet

/-- Reading the body makes a missing one null, and no schema accepts null. -/
def validatePacketBodyType (r : Receiver) : Bool × Receiver :=
  match r.packet.field "body".toList with
  | none => (false, r)
  | some body =>
    if dataPacketSchema.validate body then (true, { r with isUserData := true })
    else (instancePacketSchema.validate body, r)

/-- The fields that `processDataPacket` reads, unless one of the conversions throws. The
schema admits no number without an enumerator. -/
def userDataPacket (body : Json) : Option UserDataPacket := do
  let tableid ← (← body.field "tableid".toList).getString
  let data ← (← body.field "data".toList).getString
  let instancetype ← (← body.field "instancetype".toList).getString
  let priority ← (← body.field "priority".toList).getInt
  return ⟨tableid, data, instancetype, ← TaskPriority.ofValue (priority % 256)⟩

def instanceDataPacket (body : Json) : InstanceDataPacket where
  instanceid := (body.field "instanceid".toList).bind Json.getString
  data := (body.field "data".toList).bind Json.getString
  algotype := (body.field "algotype".toList).bind Json.getInt

def processDataPacket (w : WorkerState) (r : Receiver) (body : Json) :
    Option (PacketStatus × Receiver × WorkerState) :=
  match userDataPacket body with
  | none => some (.error, r, w)
  | some packet =>
    let (instances, result) := w.store.instanceList.processDataPacket w.disk packet
    result.map fun (status, table, disk) =>
      (status.toPacketStatus, { r with tableId := packet.tableid, tData := table <|> r.tData },
        { w with store := { w.store with instanceList := instances }, disk := disk })

def processInstancePacket (c : CallContext) (w : WorkerState) (r : Receiver) (body : Json) :
    Option (PacketStatus × Receiver × WorkerState) :=
  (InstanceDataParser.processInstancePacket c.rc c.rand c.before w.store (instanceDataPacket body)
    r.tableId).map fun (status, tableID, store) =>
      (status.toPacketStatus, { r with tableId := tableID }, { w with store := store })

/-- `matchItem` returns zero when it has found the item. -/
def matchItemInAwaitStack (w : WorkerState) (r : Receiver) (statusCode : ℤ) (id : Text) :
    Option (PacketStatus × Receiver × WorkerState) :=
  match w.fwdStack.awaitStack.matchItem statusCode id with
  | .ok (rc, awaitStack) =>
    some (if rc ≠ 0 then .ok else .empty, r,
      { w with fwdStack := { w.fwdStack with awaitStack := awaitStack } })
  | .error _ => none

/-- No result when the call does not return. -/
def identifyPacketType (c : CallContext) (w : WorkerState) (r : Receiver) :
    Option (PacketStatus × Receiver × WorkerState) :=
  if r.validatePacketHead then do
    let packetHead ← (← r.packet.field "head".toList).getInt
    let id ← (← r.packet.field "id".toList).getString
    if packetHead.testBit spHandshakeBit then return (.empty, r, { w with workerId := id })
    else
      let (known, r) :=
        if packetHead.testBit spDataSentBit then r.validatePacketBodyType else (false, r)
      if known then
        let body ← r.packet.field "body".toList
        if r.isUserData then processDataPacket w r body else processInstancePacket c w r body
      else if packetHead.testBit spIntrAckBit then matchItemInAwaitStack w r spIntrAck id
      else if packetHead.testBit spFresAckBit then matchItemInAwaitStack w r spFresAck id
      else return (.error, r, w)
  else some (.error, r, w)

def receiverProccess (status : PacketStatus) : JobStatus :=
  if status = .error then .failed else .done

/-- What `receiver_finalize` pushes, and the table that it hands to the data processor. A
user table without its record would be read through a null pointer. -/
def receiverFinalize (instances : DataBaseInstanceList) (r : Receiver) :
    Option (List ForwardStackPackage × List TableData) :=
  if r.isUserData then
    r.tData.map fun tData => ([⟨.datRecvd, tData.priority.value, r.tableId, []⟩], [tData])
  else if r.tableId.isEmpty then some ([], [])
  else some ([⟨.datRecvd, TaskPriority.lowPriority.value,
    instances.getInstanceActualName r.tableId, []⟩], [])

/-- What `receiver_fail` pushes. -/
def receiverFail (instances : DataBaseInstanceList) (r : Receiver) : List ForwardStackPackage :=
  [⟨.recvErr, TaskPriority.highPriority.value,
    if r.tableId.isEmpty then [] else instances.getInstanceActualName r.tableId, []⟩]

end Receiver

/-- What a packet asks for. -/
inductive PacketKind where
  | broken
  | overflow
  | handshake (id : Text)
  | userTable (packet : UserDataPacket)
  | instanceData (instanceid data : Text) (algotype : ℤ)
  | acknowledge (statusCode : ℤ) (id : Text)
  deriving DecidableEq, Repr

/-- The kind of a packet with one of the bodies. -/
def bodyKind (body : Json) : PacketKind :=
  if dataPacketSchema.validate body then
    match Receiver.userDataPacket body with
    | some packet => .userTable packet
    | none => .broken
  else
    match Receiver.instanceDataPacket body with
    | ⟨some instanceid, some data, some algotype⟩ => .instanceData instanceid data algotype
    | _ => .broken

def packetKind (packet : Json) : PacketKind :=
  if packetSchema.validate packet then
    match (packet.field "head".toList).bind Json.getInt,
      (packet.field "id".toList).bind Json.getString, packet.field "body".toList with
    | some packetHead, some id, some body =>
      if packetHead.testBit spHandshakeBit then .handshake id
      else if packetHead.testBit spDataSentBit ∧
          (dataPacketSchema.validate body || instancePacketSchema.validate body) then bodyKind body
      else if packetHead.testBit spIntrAckBit then .acknowledge spIntrAck id
      else if packetHead.testBit spFresAckBit then .acknowledge spFresAck id
      else .broken
    | _, _, _ => .overflow
  else .broken

theorem ObjectSchema.exists_field {schema : ObjectSchema} {value : Json}
    (h : schema.validate value = true) (key : Text) : ∃ member, value.field key = some member := by
  cases value with
  | object members => exact ⟨_, rfl⟩
  | null | boolean | numberInteger | numberUnsigned | numberFloat | string | array => cases h

/-- Every priority that a valid body can give has an enumerator, whatever the type of the
property is. -/
theorem ofValue_of_validate {body : Json} {priority : ℤ}
    (h : dataPacketSchema.validate body = true)
    (hpriority : (body.field "priority".toList).bind Json.getInt = some priority) :
    ∃ p, TaskPriority.ofValue (priority % 256) = some p ∧ (p.value : ℤ) = priority := by
  have hproperty : dataPacketSchema.properties.lookup "priority".toList = some (.within 0 3) := by
    decide
  obtain ⟨member, hmember, hbounds⟩ := ObjectSchema.field_of_validate h hproperty (by decide)
  rw [hmember, Option.bind_some] at hpriority
  obtain ⟨hlow, hhigh⟩ := PropertySchema.getInt_of_within (by decide) (by decide) hbounds hpriority
  obtain rfl | rfl | rfl | rfl : priority = 0 ∨ priority = 1 ∨ priority = 2 ∨ priority = 3 := by
    omega
  · exact ⟨.nonPreemtable, rfl, rfl⟩
  · exact ⟨.highPriority, rfl, rfl⟩
  · exact ⟨.mediumPriority, rfl, rfl⟩
  · exact ⟨.lowPriority, rfl, rfl⟩

/-- A fraction within the bounds is truncated. -/
theorem ofValue_of_validate_fraction :
    ∃ p, TaskPriority.ofValue (2 % 256) = some p ∧ (p.value : ℤ) = 2 :=
  ofValue_of_validate
    (show dataPacketSchema.validate (.object [("tableid".toList, .string []),
      ("priority".toList, .numberFloat (5 / 2)), ("instancetype".toList, .string []),
      ("data".toList, .string [])]) = true by decide +kernel)
    (show (Json.numberFloat (5 / 2)).getInt = some 2 by decide +kernel)

/-- The record of an accepted table carries the id and the priority of its packet. -/
theorem UserDataParser.processDataPacket_record {getInstanceAliasName : Text → Text}
    {disk disk' : Disk} {packet : UserDataPacket} {table : Option TableData}
    (h : processDataPacket getInstanceAliasName disk packet = some (.success, table, disk')) :
    ∃ tableData, table = some tableData ∧ tableData.tableID = packet.tableid ∧
      tableData.priority = packet.priority := by
  unfold processDataPacket at h
  dsimp only at h
  split_ifs at h
  · cases h
  · split at h
    · cases h
    · cases h
      exact ⟨_, rfl, rfl, rfl⟩

namespace Receiver

variable {c : CallContext} {w w' : WorkerState} {r r' : Receiver} {body : Json}
  {status : PacketStatus}

/-- What a call for a user table leaves in the receiver. -/
theorem processDataPacket_cases
    (h : processDataPacket w r body = some (status, r', w')) :
    (userDataPacket body = none ∧ status = .error ∧ r' = r) ∨
      ∃ packet, userDataPacket body = some packet ∧ r'.packet = r.packet ∧
        r'.isUserData = r.isUserData ∧ r'.tableId = packet.tableid ∧
        (status = .error ∨ status = .success ∧ ∃ tableData, r'.tData = some tableData ∧
          tableData.tableID = packet.tableid ∧ tableData.priority = packet.priority) := by
  unfold processDataPacket at h
  cases hpacket : userDataPacket body with
  | none =>
    simp only [hpacket, Option.some.injEq, Prod.mk.injEq] at h
    obtain ⟨rfl, rfl, rfl⟩ := h
    exact .inl ⟨rfl, rfl, rfl⟩
  | some packet =>
    simp only [hpacket] at h
    obtain ⟨⟨rc, table, disk⟩, hresult, heq⟩ := Option.map_eq_some_iff.mp h
    simp only [Prod.mk.injEq] at heq
    obtain ⟨rfl, rfl, rfl⟩ := heq
    refine .inr ⟨packet, rfl, rfl, rfl, rfl, ?_⟩
    cases rc with
    | error => exact .inl rfl
    | success =>
      obtain ⟨tableData, rfl, htable, hpriority⟩ := UserDataParser.processDataPacket_record hresult
      exact .inr ⟨rfl, tableData, rfl, htable, hpriority⟩

theorem processInstancePacket_cases
    (h : processInstancePacket c w r body = some (status, r', w')) :
    (status = .error ∧ r' = r ∧ ¬ ∃ instanceid data algotype,
      instanceDataPacket body = ⟨some instanceid, some data, some algotype⟩) ∨
    ∃ instanceid data algotype,
      instanceDataPacket body = ⟨some instanceid, some data, some algotype⟩ ∧
      r' = { r with tableId := newAlias instanceid c.rand } ∧
      (status = .error ∨ status = .success) := by
  obtain ⟨⟨rc, tableID, store⟩, hresult, heq⟩ := Option.map_eq_some_iff.mp h
  simp only [Prod.mk.injEq] at heq
  obtain ⟨rfl, rfl, rfl⟩ := heq
  by_cases hfields : ∃ instanceid data algotype,
      instanceDataPacket body = ⟨some instanceid, some data, some algotype⟩
  · right
    obtain ⟨instanceid, data, algotype, hpacket⟩ := hfields
    rw [hpacket] at hresult
    obtain ⟨_, _, _, _, _, _, _, _, rfl, _, hend⟩ :=
      InstanceDataParser.processInstancePacket_eq_some hresult
    refine ⟨instanceid, data, algotype, hpacket, rfl, ?_⟩
    rcases hend with ⟨_, rfl⟩ | ⟨_, rfl, _⟩
    · exact .inl rfl
    · exact .inr rfl
  · left
    rw [InstanceDataParser.processInstancePacket_of_missing hfields] at hresult
    cases hresult
    exact ⟨rfl, rfl, hfields⟩

theorem matchItemInAwaitStack_cases {statusCode : ℤ} {id : Text}
    (h : matchItemInAwaitStack w r statusCode id = some (status, r', w')) :
    status ≠ .error ∧ r' = r := by
  unfold matchItemInAwaitStack at h
  split at h
  · cases h
    refine ⟨?_, rfl⟩
    split_ifs <;> simp
  · cases h

/-- What one call of `identifyPacketType` does to the receiver, by the kind of its packet. -/
inductive Identifies (r : Receiver) : PacketKind → PacketStatus → Receiver → Prop where
  | broken (r' : Receiver) : Identifies r .broken .error r'
  | handshake (id : Text) : Identifies r (.handshake id) .empty r
  | acknowledge (statusCode : ℤ) (id : Text) (status : PacketStatus) (hstatus : status ≠ .error) :
    Identifies r (.acknowledge statusCode id) status r
  | unknownInstance (packet : UserDataPacket) (r' : Receiver) (htable : r'.tableId = packet.tableid)
      (hmarked : r'.isUserData = true) : Identifies r (.userTable packet) .error r'
  | accepted (packet : UserDataPacket) (tableData : TableData) (r' : Receiver)
      (htable : r'.tableId = packet.tableid) (hmarked : r'.isUserData = true)
      (hdata : r'.tData = some tableData) (hid : tableData.tableID = packet.tableid)
      (hpriority : tableData.priority = packet.priority) :
    Identifies r (.userTable packet) .success r'
  | rejected (instanceid data : Text) (algotype : ℤ) (rand : ℕ → ℕ)
      (hmarked : r.isUserData = false) :
    Identifies r (.instanceData instanceid data algotype) .error
      { r with tableId := newAlias instanceid rand }
  | registered (instanceid data : Text) (algotype : ℤ) (rand : ℕ → ℕ)
      (hmarked : r.isUserData = false) :
    Identifies r (.instanceData instanceid data algotype) .success
      { r with tableId := newAlias instanceid rand }

/-- The flag of a user table is only set when the body is one. -/
def Marked (r : Receiver) : Prop :=
  r.isUserData = true → ∃ body, r.packet.field "body".toList = some body ∧
    dataPacketSchema.validate body = true

theorem marked_new (packet : Json) : (new packet).Marked := nofun

theorem Marked.eq_false (h : r.Marked) (hbody : r.packet.field "body".toList = some body)
    (hdata : ¬ dataPacketSchema.validate body = true) : r.isUserData = false := by
  by_contra hflag
  obtain ⟨other, hother, hvalid⟩ := h (by simpa using hflag)
  rw [hbody, Option.some.injEq] at hother
  exact hdata (hother ▸ hvalid)

/-- A packet whose body is accepted. -/
theorem identifies_body (hbody : r.packet.field "body".toList = some body)
    (hmarked : r.Marked)
    (h : (if dataPacketSchema.validate body then
        processDataPacket w { r with isUserData := true } body
      else if r.isUserData then processDataPacket w r body else processInstancePacket c w r body) =
        some (status, r', w')) :
    Identifies r (bodyKind body) status r' ∧ r'.packet = r.packet ∧ r'.Marked := by
  by_cases hdata : dataPacketSchema.validate body = true
  · rw [if_pos hdata] at h
    rw [bodyKind, if_pos hdata]
    have hmarks : ∀ t : Receiver, t.packet = r.packet → t.Marked := fun t ht _ =>
      ⟨body, ht ▸ hbody, hdata⟩
    rcases processDataPacket_cases h with ⟨hnone, rfl, rfl⟩ |
      ⟨packet, hpacket, hkept, hflag, htable, rfl | ⟨rfl, tableData, hsome, hid, hpriority⟩⟩
    · rw [hnone]
      exact ⟨.broken _, rfl, hmarks _ rfl⟩
    · rw [hpacket]
      exact ⟨.unknownInstance packet r' htable hflag, hkept, hmarks _ hkept⟩
    · rw [hpacket]
      exact ⟨.accepted packet tableData r' htable hflag hsome hid hpriority, hkept,
        hmarks _ hkept⟩
  · have hflag := hmarked.eq_false hbody hdata
    rw [if_neg hdata, hflag] at h
    rw [bodyKind, if_neg hdata]
    rcases processInstancePacket_cases h with ⟨rfl, rfl, hfields⟩ |
      ⟨instanceid, data, algotype, hpacket, rfl, rfl | rfl⟩
    · split
      · rename_i hpacket
        exact absurd ⟨_, _, _, hpacket⟩ hfields
      · exact ⟨.broken _, rfl, hmarked⟩
    · rw [hpacket]
      exact ⟨.rejected instanceid data algotype c.rand hflag, rfl, hmarked⟩
    · rw [hpacket]
      exact ⟨.registered instanceid data algotype c.rand hflag, rfl, hmarked⟩

/-- A packet that is taken for an acknowledgement, or for nothing. -/
theorem identifies_acknowledge {packetHead : ℤ} {id : Text}
    (h : (if packetHead.testBit spIntrAckBit then matchItemInAwaitStack w r spIntrAck id
      else if packetHead.testBit spFresAckBit then matchItemInAwaitStack w r spFresAck id
      else some (.error, r, w)) = some (status, r', w')) :
    Identifies r (if packetHead.testBit spIntrAckBit then .acknowledge spIntrAck id
      else if packetHead.testBit spFresAckBit then .acknowledge spFresAck id else .broken)
      status r' ∧ r' = r := by
  split_ifs at h ⊢
  · obtain ⟨hstatus, rfl⟩ := matchItemInAwaitStack_cases h
    exact ⟨.acknowledge spIntrAck id status hstatus, rfl⟩
  · obtain ⟨hstatus, rfl⟩ := matchItemInAwaitStack_cases h
    exact ⟨.acknowledge spFresAck id status hstatus, rfl⟩
  · cases h
    exact ⟨.broken r, rfl⟩

section Head

variable {packetHead : ℤ} {id : Text} (hhead : packetSchema.validate r.packet = true)
  (hint : (r.packet.field "head".toList).bind Json.getInt = some packetHead)
  (hid : (r.packet.field "id".toList).bind Json.getString = some id)
  (hbody : r.packet.field "body".toList = some body)

include hhead hint hid hbody

theorem packetKind_eq :
    packetKind r.packet =
      if packetHead.testBit spHandshakeBit then .handshake id
      else if packetHead.testBit spDataSentBit ∧
          (dataPacketSchema.validate body || instancePacketSchema.validate body) then bodyKind body
      else if packetHead.testBit spIntrAckBit then .acknowledge spIntrAck id
      else if packetHead.testBit spFresAckBit then .acknowledge spFresAck id
      else .broken := by
  rw [packetKind, if_pos hhead, hint, hid, hbody]

/-- A call with a valid head, by its bits and its body. -/
theorem identifyPacketType_eq (c : CallContext) (w : WorkerState) :
    identifyPacketType c w r =
      if packetHead.testBit spHandshakeBit then some (.empty, r, { w with workerId := id })
      else if packetHead.testBit spDataSentBit ∧
          (dataPacketSchema.validate body || instancePacketSchema.validate body) then
        if dataPacketSchema.validate body then
          processDataPacket w { r with isUserData := true } body
        else if r.isUserData then processDataPacket w r body
        else processInstancePacket c w r body
      else if packetHead.testBit spIntrAckBit then matchItemInAwaitStack w r spIntrAck id
      else if packetHead.testBit spFresAckBit then matchItemInAwaitStack w r spFresAck id
      else some (.error, r, w) := by
  obtain ⟨head, hfield, hint⟩ := Option.bind_eq_some_iff.mp hint
  obtain ⟨idField, hidField, hid⟩ := Option.bind_eq_some_iff.mp hid
  unfold identifyPacketType
  rw [validatePacketHead, if_pos hhead]
  simp only [Option.bind_eq_bind, hfield, hint, hidField, hid, Option.bind_some]
  by_cases hsent : packetHead.testBit spDataSentBit = true
  · simp only [hsent, if_true, validatePacketBodyType, hbody, true_and]
    by_cases hdata : dataPacketSchema.validate body = true
    · simp only [hdata, if_true, hbody, Option.bind_some, Bool.true_or]
      rfl
    · simp only [hdata, Bool.false_eq_true, if_false, hbody, Option.bind_some, Bool.false_or]
      rfl
  · simp only [hsent, Bool.false_eq_true, if_false, false_and]
    rfl

end Head

/-- A valid head is read, unless its number overflows an `int`. -/
theorem exists_head (hhead : packetSchema.validate r.packet = true)
    (hkind : packetKind r.packet ≠ .overflow) :
    ∃ packetHead id body, (r.packet.field "head".toList).bind Json.getInt = some packetHead ∧
      (r.packet.field "id".toList).bind Json.getString = some id ∧
      r.packet.field "body".toList = some body := by
  rw [packetKind, if_pos hhead] at hkind
  split at hkind
  · rename_i packetHead id body hint hid hbody
    exact ⟨packetHead, id, body, hint, hid, hbody⟩
  · exact absurd rfl hkind

theorem exists_head_of_identifyPacketType (hhead : packetSchema.validate r.packet = true)
    (h : identifyPacketType c w r = some (status, r', w')) :
    ∃ packetHead id body, (r.packet.field "head".toList).bind Json.getInt = some packetHead ∧
      (r.packet.field "id".toList).bind Json.getString = some id ∧
      r.packet.field "body".toList = some body := by
  obtain ⟨body, hbody⟩ := ObjectSchema.exists_field hhead "body".toList
  unfold identifyPacketType at h
  rw [validatePacketHead, if_pos hhead] at h
  simp only [Option.bind_eq_bind, Option.bind_eq_some_iff] at h
  obtain ⟨head, hfield, packetHead, hint, idField, hidField, id, hid, _⟩ := h
  exact ⟨packetHead, id, body, Option.bind_eq_some_iff.mpr ⟨head, hfield, hint⟩,
    Option.bind_eq_some_iff.mpr ⟨idField, hidField, hid⟩, hbody⟩

/-- What a call does follows from the kind of the packet. -/
theorem identifies (hmarked : r.Marked) (h : identifyPacketType c w r = some (status, r', w')) :
    Identifies r (packetKind r.packet) status r' ∧ r'.packet = r.packet ∧ r'.Marked := by
  by_cases hhead : packetSchema.validate r.packet = true
  · obtain ⟨packetHead, id, body, hint, hid, hbody⟩ := exists_head_of_identifyPacketType hhead h
    rw [packetKind_eq hhead hint hid hbody]
    rw [identifyPacketType_eq hhead hint hid hbody] at h
    by_cases hshake : packetHead.testBit spHandshakeBit = true
    · rw [if_pos hshake] at h ⊢
      cases h
      exact ⟨.handshake id, rfl, hmarked⟩
    · rw [if_neg hshake] at h ⊢
      by_cases hvalid : packetHead.testBit spDataSentBit ∧
          (dataPacketSchema.validate body || instancePacketSchema.validate body)
      · rw [if_pos hvalid] at h ⊢
        exact identifies_body hbody hmarked h
      · rw [if_neg hvalid] at h ⊢
        obtain ⟨hack, rfl⟩ := identifies_acknowledge h
        exact ⟨hack, rfl, hmarked⟩
  · rw [identifyPacketType, validatePacketHead, if_neg hhead] at h
    cases h
    rw [packetKind, if_neg hhead]
    exact ⟨.broken r, rfl, hmarked⟩

/-- A call for a broken packet returns the error. -/
theorem identifyPacketType_of_broken (c : CallContext) (w : WorkerState) (hmarked : r.Marked)
    (hkind : packetKind r.packet = .broken) :
    ∃ r', identifyPacketType c w r = some (.error, r', w) := by
  by_cases hhead : packetSchema.validate r.packet = true
  · obtain ⟨packetHead, id, body, hint, hid, hbody⟩ := exists_head hhead (by simp [hkind])
    rw [packetKind_eq hhead hint hid hbody] at hkind
    rw [identifyPacketType_eq hhead hint hid hbody]
    split_ifs at hkind with hshake hvalid hintr hfres
    · rw [if_neg hshake, if_pos hvalid]
      unfold bodyKind at hkind
      by_cases hdata : dataPacketSchema.validate body = true
      · rw [if_pos hdata] at hkind ⊢
        cases hpacket : userDataPacket body with
        | none =>
          refine ⟨{ r with isUserData := true }, ?_⟩
          simp only [processDataPacket, hpacket]
        | some packet => simp [hpacket] at hkind
      · rw [if_neg hdata] at hkind ⊢
        have hflag := hmarked.eq_false hbody hdata
        have hfields : ¬ ∃ instanceid data algotype,
            instanceDataPacket body = ⟨some instanceid, some data, some algotype⟩ := by
          rintro ⟨instanceid, data, algotype, hpacket⟩
          simp [hpacket] at hkind
        refine ⟨{ r with tableId := r.tableId }, ?_⟩
        rw [hflag, processInstancePacket,
          InstanceDataParser.processInstancePacket_of_missing hfields]
        rfl
    · rw [if_neg hshake, if_neg hvalid, if_neg hintr, if_neg hfres]
      exact ⟨r, rfl⟩
  · rw [identifyPacketType, validatePacketHead, if_neg hhead]
    exact ⟨r, rfl⟩

end Receiver

end WorkerUnit
