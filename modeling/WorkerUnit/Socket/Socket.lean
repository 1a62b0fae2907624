import Mathlib.Tactic

/-!
# The status flags of the socket

The class `Socket` of `socket/socket.hpp`. Every flag operation is atomic: the
source takes `flagLock` around each of them.
-/

namespace WorkerUnit

inductive SocketStatus where
  | default | seize | setqs | normalMode | quicksendMode
  deriving DecidableEq, Repr

namespace SocketStatus

def value : SocketStatus → ℕ
  | default => 1
  | seize => 2
  | setqs => 4
  | normalMode => 8
  | quicksendMode => 16

/-- The test `socStatus & flag`. -/
def isIn (statusFlag : SocketStatus) (socStatus : ℕ) : Bool := socStatus &&& statusFlag.value != 0

end SocketStatus

structure Socket where
  quickSendMode : Bool
  seizeMode : Bool
  inQSMode : Bool
  wsLock : Bool
  socketShouldStop : Bool
  deriving DecidableEq, Repr

namespace Socket

/-- The constructor. -/
def init : Socket := ⟨false, false, false, false, false⟩

def getSocketStatus (soc : Socket) : ℕ :=
  let status := SocketStatus.default.value
  let status := if soc.seizeMode then status ||| SocketStatus.seize.value else status
  let status := if soc.quickSendMode then status ||| SocketStatus.setqs.value else status
  let status := if soc.wsLock then status ||| SocketStatus.normalMode.value else status
  if soc.inQSMode then status ||| SocketStatus.quicksendMode.value else status

def changeFlag (soc : Socket) (state : Bool) : SocketStatus → Socket
  | .seize => { soc with seizeMode := state }
  | .setqs => { soc with quickSendMode := state }
  | .normalMode => { soc with wsLock := state }
  | .quicksendMode => { soc with inQSMode := state }
  | .default => soc

def setFlag (soc : Socket) (statusFlag : SocketStatus) : Socket := soc.changeFlag true statusFlag

def resetFlag (soc : Socket) (statusFlag : SocketStatus) : Socket := soc.changeFlag false statusFlag

theorem isIn_getSocketStatus (soc : Socket) (statusFlag : SocketStatus) :
    statusFlag.isIn soc.getSocketStatus = match statusFlag with
      | .default => true
      | .seize => soc.seizeMode
      | .setqs => soc.quickSendMode
      | .normalMode => soc.wsLock
      | .quicksendMode => soc.inQSMode := by
  obtain ⟨quickSendMode, seizeMode, inQSMode, wsLock, socketShouldStop⟩ := soc
  revert quickSendMode seizeMode inQSMode wsLock
  cases statusFlag <;> cases socketShouldStop <;> decide

end Socket

end WorkerUnit
