import WorkerUnit.Sender.ForwardStack
import WorkerUnit.Socket.Socket

/-!
# Packets made by the sender sink

`sender_proc/sender.cpp`. A packet keeps the fields that `create_packet` fills
from the popped item; the statistics it appends are left out.
-/

namespace WorkerUnit

open Semaphore

inductive ComputePacketStatus where
  | reset | handshake | dataAck | intrRes | finalRes | err | qsend | seize
  deriving DecidableEq, Repr

def ComputePacketStatus.value : ComputePacketStatus → ℕ
  | reset => 1
  | handshake => 2
  | dataAck => 4
  | intrRes => 8
  | finalRes => 16
  | err => 32
  | qsend => 64
  | seize => 128

structure PacketBody where
  id : Text
  data : Option Text
  priority : Option ℤ
  deriving DecidableEq, Repr

structure Packet where
  head : ℕ
  id : Text
  body : Option PacketBody
  deriving DecidableEq, Repr

structure SenderSink where
  fwdStack : ForwardStack
  initSender : Bool
  handshakeSent : Bool
  deriving DecidableEq

namespace SenderSink

/-- The constructor. -/
def init : SenderSink := ⟨.init, false, false⟩

def pushPacket (sink : SenderSink) (package : ForwardStackPackage) : Except Stuck SenderSink := do
  if package.statusCode = .seize then
    .ok { sink with fwdStack := ← sink.fwdStack.pushFront package }
  else .ok { sink with fwdStack := ← sink.fwdStack.push package }

/-- A push changes nothing but the stack. -/
theorem pushPacket_flags {sink more : SenderSink} {package : ForwardStackPackage}
    (h : sink.pushPacket package = .ok more) :
    ∃ fwdStack, more = { sink with fwdStack := fwdStack } := by
  unfold pushPacket at h
  split_ifs at h
  · cases hpush : sink.fwdStack.pushFront package with
    | error e => simp [hpush, bind, Except.bind] at h
    | ok fwdStack =>
      simp only [hpush, bind, Except.bind] at h
      cases h
      exact ⟨fwdStack, rfl⟩
  · cases hpush : sink.fwdStack.push package with
    | error e => simp [hpush, bind, Except.bind] at h
    | ok fwdStack =>
      simp only [hpush, bind, Except.bind] at h
      cases h
      exact ⟨fwdStack, rfl⟩

/-- `ForwardStack::isEmpty`: no size is negative. -/
def isEmpty (sink : SenderSink) : Bool := !decide (sink.fwdStack.senderStack.length < 0)

end SenderSink

/-- `getPacketHead`, which also raises the seize flag of the global socket. -/
def getPacketHead (soc : Socket) : SenderDataType → ComputePacketStatus × Socket
  | .recvErr => (.err, soc)
  | .datErr => (.err, soc)
  | .datRecvd => (.dataAck, soc)
  | .intrSend => (.intrRes, soc)
  | .fresSend => (.finalRes, soc)
  | .seize => (.seize, soc.setFlag .seize)
  | .resetTimer => (.reset, soc)
  | .datNull => (.reset, soc)

/-- `create_packet`; an item of any other kind sets the normal mode flag. -/
def createPacket (sink : SenderSink) (workerId : Text) (soc : Socket)
    (item : ForwardStackPackage) : Packet × Socket :=
  let socketStatus := soc.getSocketStatus
  let (packetHead, soc) := getPacketHead soc item.statusCode
  let head :=
    if SocketStatus.seize.isIn socketStatus then
      packetHead.value ||| ComputePacketStatus.seize.value
    else if !sink.isEmpty then packetHead.value ||| ComputePacketStatus.qsend.value
    else packetHead.value
  let id := cStr workerId
  match item.statusCode with
  | .recvErr | .datErr => (⟨head, id, some ⟨cStr item.tableID, some (cStr item.data), none⟩⟩, soc)
  | .resetTimer | .datRecvd => (⟨head, id, some ⟨cStr item.tableID, none, some item.priority⟩⟩, soc)
  | .intrSend | .fresSend =>
    (⟨head, id, some ⟨cStr item.tableID, some (cStr item.data), some item.priority⟩⟩, soc)
  | _ => (⟨head, id, none⟩, soc.setFlag .normalMode)

/-- The packet that asks the server for an id. -/
def handshakePacket : Packet :=
  ⟨ComputePacketStatus.handshake.value, ['W', '0', '0', '0'], none⟩

namespace ForwardStack

variable {f g : ForwardStack}

/-- With a free lock `popForwardStack` takes the front of the stack or nothing,
whatever the await stack looks like. -/
theorem popForwardStack_front (h : f.stackLock = 1) {package : ForwardStackPackage}
    (hp : f.popForwardStack = .ok (package, g)) :
    g.stackLock = 1 ∧ g.allocated = f.allocated ∧
      f.senderStack = f.senderStack.head?.toList ++ g.senderStack ∧
      package = (f.senderStack.head?.map (·.package)).getD .empty := by
  unfold popForwardStack at hp
  split at hp
  · rename_i hs
    cases hp
    simp [h, hs]
  · rename_i item rest hs
    simp only [h, semWait_one, bind, Except.bind] at hp
    split_ifs at hp with hack hfree
    · cases hpush : f.awaitStack.push item with
      | error e => simp [hpush] at hp
      | ok r =>
        simp only [hpush] at hp
        cases hp
        simp [hs]
    · simp [getNonackableItem, bind, Except.bind] at hp
    · cases hp
      simp [hs]

end ForwardStack

end WorkerUnit
