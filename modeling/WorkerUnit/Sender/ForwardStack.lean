import WorkerUnit.Include.Text
import WorkerUnit.Library.Semaphore

/-!
# The forward stack and the await stack of the sender

`sender_proc/forward_stack.hpp` and `.cpp`. Both classes take their `stackLock`
with `sem_wait` and give it back with `sem_post`; a call returns `.error` when it
waits on a lock that it holds itself, or dereferences a pointer it may not.
A package is allocated by the push that queues it and never changes afterwards,
so a pointer carries the number of its allocation and the package.
-/

namespace WorkerUnit

open Semaphore

inductive SenderDataType where
  | recvErr | resetTimer | datErr | datRecvd | intrSend | fresSend | seize | datNull
  deriving DecidableEq, Repr

/-- `SP_INTR_ACK` and `SP_FRES_ACK` of `server_packet_status`. -/
def spIntrAck : ℤ := 4
def spFresAck : ℤ := 8

structure ForwardStackPackage where
  statusCode : SenderDataType
  priority : ℤ
  tableID : Text
  data : Text
  deriving DecidableEq, Repr

/-- The default constructor; `DEFAULT_PRIORITY` is 3. -/
def ForwardStackPackage.empty : ForwardStackPackage := ⟨.datNull, 3, [], []⟩

structure PackagePtr where
  address : ℕ
  package : ForwardStackPackage
  deriving DecidableEq, Repr

/-- The status codes that the server acknowledges. -/
def PackagePtr.ackable (item : PackagePtr) : Bool :=
  item.package.statusCode == .intrSend || item.package.statusCode == .fresSend

/-- `fwdElement` is `none` once the element has been deleted. -/
structure AwaitStackPackage where
  fwdElement : Option PackagePtr
  itemAcked : Bool
  deriving DecidableEq, Repr

/-- `TOTAL_DIFFRED_PACKETS`. -/
abbrev totalDiffredPackets : ℕ := 6

structure AwaitStack where
  stackLock : ℕ
  awaitStack : Fin totalDiffredPackets → Option AwaitStackPackage
  index : ℕ
  ackedPackets : ℕ
  deriving DecidableEq

namespace AwaitStack

/-- The member of the global sender sink: its static storage starts zeroed. -/
def init : AwaitStack := ⟨1, fun _ => none, 0, 0⟩

def push (a : AwaitStack) (item : PackagePtr) : Except Stuck (ℤ × AwaitStack) :=
  if h : totalDiffredPackets ≤ a.index then .ok (-1, a)
  else do
    let lock ← semWait a.stackLock
    .ok (0, { a with
      stackLock := semPost lock
      awaitStack := Function.update a.awaitStack ⟨a.index, by omega⟩ (some ⟨some item, false⟩)
      index := a.index + 1 })

/-- One round of the loop of `purge`. -/
def purgeSlot (a : AwaitStack) (i : ℕ) : Except Stuck AwaitStack :=
  if h : i < totalDiffredPackets then
    match a.awaitStack ⟨i, h⟩ with
    | some ⟨some _, _⟩ => .ok { a with
        awaitStack := Function.update a.awaitStack ⟨i, h⟩ (some ⟨none, false⟩)
        index := 0
        ackedPackets := 0 }
    | _ => .error .undefined
  else .error .undefined

/-- `purge`; its loop runs up to and including `TOTAL_DIFFRED_PACKETS`. -/
def purge (a : AwaitStack) : Except Stuck AwaitStack := do
  let lock ← semWait a.stackLock
  let a ← (List.range (totalDiffredPackets + 1)).foldlM purgeSlot { a with stackLock := lock }
  .ok { a with stackLock := semPost a.stackLock }

/-- How the search of `matchItem` ends. -/
inductive Scan where
  | ackPacket (i : Fin totalDiffredPackets)
  | unknownCode
  | duplicate
  deriving DecidableEq

/-- The search loop of `matchItem` over the listed slots. -/
def scan (a : AwaitStack) (statusCode : ℤ) (tableID : Text) :
    List (Fin totalDiffredPackets) → Except Stuck Scan
  | [] => .ok .duplicate
  | i :: is =>
    match a.awaitStack i with
    | none => scan a statusCode tableID is
    | some ⟨none, _⟩ => .error .undefined
    | some ⟨some item, itemAcked⟩ =>
      if item.package.tableID = tableID then
        if statusCode = spIntrAck then
          if item.package.statusCode = .intrSend && !itemAcked then .ok (.ackPacket i)
          else scan a statusCode tableID is
        else if statusCode = spFresAck then
          if item.package.statusCode = .fresSend && !itemAcked then .ok (.ackPacket i)
          else scan a statusCode tableID is
        else .ok .unknownCode
      else scan a statusCode tableID is

/-- What follows the label `ack_packet`, up to the test for a full stack. -/
def ackPacket (a : AwaitStack) (i : Fin totalDiffredPackets) : AwaitStack :=
  { a with
    awaitStack := Function.update a.awaitStack i
      ((a.awaitStack i).map fun p => { p with itemAcked := true })
    ackedPackets := a.ackedPackets + 1 }

def matchItem (a : AwaitStack) (statusCode : ℤ) (tableID : Text) :
    Except Stuck (ℤ × AwaitStack) := do
  let lock ← semWait a.stackLock
  match ← a.scan statusCode tableID (List.finRange totalDiffredPackets) with
  | .ackPacket i =>
    let a := { a with stackLock := lock }.ackPacket i
    let a ← if a.ackedPackets = totalDiffredPackets then a.purge else .ok a
    .ok (0, { a with stackLock := semPost a.stackLock })
  | _ => .ok (-1, { a with stackLock := semPost lock })

def isFree (a : AwaitStack) : Bool := a.index ≤ totalDiffredPackets

end AwaitStack

/-- `allocated` counts the packages created so far. -/
structure ForwardStack where
  stackLock : ℕ
  senderStack : List PackagePtr
  awaitStack : AwaitStack
  allocated : ℕ
  deriving DecidableEq

namespace ForwardStack

def init : ForwardStack := ⟨1, [], .init, 0⟩

def push (f : ForwardStack) (package : ForwardStackPackage) : Except Stuck ForwardStack := do
  let lock ← semWait f.stackLock
  .ok { f with
    stackLock := semPost lock
    senderStack := f.senderStack ++ [⟨f.allocated, package⟩]
    allocated := f.allocated + 1 }

def pushFront (f : ForwardStack) (package : ForwardStackPackage) : Except Stuck ForwardStack := do
  let lock ← semWait f.stackLock
  .ok { f with
    stackLock := semPost lock
    senderStack := ⟨f.allocated, package⟩ :: f.senderStack
    allocated := f.allocated + 1 }

/-- The first item that the search of `getNonackableItem` accepts, and the list
without it. The test joins two inequalities with `||`. -/
def takeNonackable : List PackagePtr → Option (PackagePtr × List PackagePtr)
  | [] => none
  | item :: rest =>
    if item.package.statusCode ≠ .intrSend ∨ item.package.statusCode ≠ .fresSend then
      some (item, rest)
    else (takeNonackable rest).map fun r => (r.1, item :: r.2)

def getNonackableItem (f : ForwardStack) : Except Stuck (Option PackagePtr × ForwardStack) := do
  let lock ← semWait f.stackLock
  match takeNonackable f.senderStack with
  | some (item, rest) => .ok (some item, { f with stackLock := semPost lock, senderStack := rest })
  | none => .ok (none, { f with stackLock := semPost lock })

def popForwardStack (f : ForwardStack) : Except Stuck (ForwardStackPackage × ForwardStack) :=
  match f.senderStack with
  | [] => .ok (.empty, f)
  | item :: rest => do
    let lock ← semWait f.stackLock
    let f := { f with stackLock := lock }
    if item.ackable then
      if f.awaitStack.isFree then
        let (_, awaitStack) ← f.awaitStack.push item
        .ok (item.package, { f with
          stackLock := semPost lock, senderStack := rest, awaitStack := awaitStack })
      else
        match ← f.getNonackableItem with
        | (some item, f) => .ok (item.package, { f with stackLock := semPost f.stackLock })
        | (none, _) => .error .undefined
    else .ok (item.package, { f with stackLock := semPost lock, senderStack := rest })

end ForwardStack

end WorkerUnit
