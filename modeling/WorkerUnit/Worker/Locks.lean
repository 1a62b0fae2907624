import WorkerUnit.Library.LockOrder
import WorkerUnit.Scheduler.TaskPool
import WorkerUnit.Sender.SenderCalls
import WorkerUnit.Services.StatsEngine

/-!
# The locks of the whole program

Every semaphore of the program starts at one. The program of a call follows the source
from one lock to the next: what it looks at before it waits, what it changes under the
lock, and where it posts. Two functions take a second lock while they have one:
`popForwardStack` and `updateTimerAfter`, and `matchItem` takes its own again when it
acknowledges the last slot.
-/

namespace WorkerUnit

open Semaphore StepSystem LockOrder

/-- The semaphores; each thread queue has one of its own. -/
inductive WorkerLock (n : ℕ) where
  | stackLock
  | awaitStackLock
  | sinkLock
  | threadResourceLock (thread : Fin n)
  | flagLock
  | instanceListLock
  | timerAfterLock
  | timerBeforeLock
  | calcAvgLock
  | taskStatsUpdateLock
  deriving DecidableEq, Repr

/-- The order in which they are taken: these two come before the others. -/
def WorkerLock.rank {n : ℕ} : WorkerLock n → ℕ
  | stackLock | timerAfterLock => 0
  | _ => 1

theorem WorkerLock.rank_le {n : ℕ} (l : WorkerLock n) : l.rank ≤ 1 := by
  cases l <;> simp [WorkerLock.rank]

/-- The data on which it depends which locks are taken. The semaphores inside the
stacks are those of calls made alone. -/
structure LockedData (δ : Type*) where
  fwdStack : ForwardStack
  taskSink : TaskPool
  statsEngine : StatisticsEngine δ

/-- The functions that use a semaphore; a timer is called at the time of the clock. -/
inductive LockCall (n : ℕ) where
  | sender (call : SenderCall)
  | pushTask (taskData : TaskData)
  | popTask
  | getNextTask (thread : Fin n)
  | popJob (thread : Fin n)
  | setFlag
  | resetFlag
  | addInstance
  | incrimentRefrence
  | dereferenceInstance
  | updateTimerBefore (now : ℤ)
  | updateTimerAfter (now : ℤ)
  | updateThreadStats
  | toJson
  deriving DecidableEq

/-- A call's first wait is labelled with the call, and a wait inside of another
function's section is not. -/
abbrev Locking (n : ℕ) (δ : Type*) :=
  LockProgram (LockedData δ) (Option (LockCall n)) (WorkerLock n)

variable {n : ℕ} {δ : Type*}

/-- A section between `sem_wait` and `sem_post`, and what comes after it. -/
def locked (call : Option (LockCall n)) (l : WorkerLock n) (body : LockedData δ → LockedData δ)
    (k : Locking n δ) : Locking n δ :=
  .wait call l body fun _ => .post l k

namespace LockedData

def setAwaitStack (d : LockedData δ) (awaitStack : AwaitStack) : LockedData δ :=
  { d with fwdStack := { d.fwdStack with awaitStack := awaitStack } }

def setSenderStack (d : LockedData δ) (senderStack : List PackagePtr) : LockedData δ :=
  { d with fwdStack := { d.fwdStack with senderStack := senderStack } }

/-- A package is allocated and stored, at the place that `store` gives it. -/
def push (store : PackagePtr → List PackagePtr → List PackagePtr)
    (package : ForwardStackPackage) (d : LockedData δ) : LockedData δ :=
  { d with fwdStack := { d.fwdStack with
    senderStack := store ⟨d.fwdStack.allocated, package⟩ d.fwdStack.senderStack
    allocated := d.fwdStack.allocated + 1 } }

end LockedData

/-- The loop of `purge`. -/
def AwaitStack.purgeLoop (a : AwaitStack) : Except Stuck AwaitStack :=
  (List.range (totalDiffredPackets + 1)).foldlM purgeSlot a

namespace Locking

/-- `AwaitStack::push`, which returns before the lock when no slot is left; a write
behind the last slot is undefined. -/
def awaitStackPush (item : PackagePtr) (k : Locking n δ) : Locking n δ :=
  .look fun d =>
    if totalDiffredPackets ≤ d.fwdStack.awaitStack.index then k
    else .wait none .awaitStackLock
      (fun d =>
        if h : d.fwdStack.awaitStack.index < totalDiffredPackets then
          d.setAwaitStack (d.fwdStack.awaitStack.pushed item h)
        else d)
      fun d =>
        if d.fwdStack.awaitStack.index < totalDiffredPackets then .post .awaitStackLock k
        else .undefined

def purge (k : Locking n δ) : Locking n δ :=
  .wait none .awaitStackLock
    (fun d =>
      match d.fwdStack.awaitStack.purgeLoop with
      | .ok a => d.setAwaitStack a
      | .error _ => d)
    fun d =>
      match d.fwdStack.awaitStack.purgeLoop with
      | .ok _ => .post .awaitStackLock k
      | .error _ => .undefined

def matchItem (statusCode : ℤ) (tableID : Text) (k : Locking n δ) : Locking n δ :=
  .wait (some (.sender (.matchItem statusCode tableID))) .awaitStackLock
    (fun d =>
      match d.fwdStack.awaitStack.scan statusCode tableID (List.finRange _) with
      | .ok (.ackPacket i) => d.setAwaitStack (d.fwdStack.awaitStack.ackPacket i)
      | _ => d)
    fun d =>
      match d.fwdStack.awaitStack.scan statusCode tableID (List.finRange _) with
      | .ok (.ackPacket _) =>
        if d.fwdStack.awaitStack.ackedPackets + 1 = totalDiffredPackets then
          purge (.post .awaitStackLock k)
        else .post .awaitStackLock k
      | .ok _ => .post .awaitStackLock k
      | .error _ => .undefined

/-- The item that is found is copied: a null pointer is undefined. -/
def getNonackableItem (k : Locking n δ) : Locking n δ :=
  .wait none .stackLock
    (fun d =>
      match ForwardStack.takeNonackable d.fwdStack.senderStack with
      | some (_, rest) => d.setSenderStack rest
      | none => d)
    fun d =>
      match ForwardStack.takeNonackable d.fwdStack.senderStack with
      | some _ => .post .stackLock k
      | none => .post .stackLock .undefined

/-- The test for an empty stack is made before the lock is taken, and `front` of an empty
list is undefined. -/
def popForwardStack (k : Locking n δ) : Locking n δ :=
  .look fun d =>
    if d.fwdStack.senderStack = [] then k
    else .wait (some (.sender .popForwardStack)) .stackLock
      (fun d =>
        match d.fwdStack.senderStack with
        | [] => d
        | item :: rest =>
          if item.ackable && !d.fwdStack.awaitStack.isFree then d else d.setSenderStack rest)
      fun d =>
        match d.fwdStack.senderStack with
        | [] => .undefined
        | item :: _ =>
          if item.ackable then
            if d.fwdStack.awaitStack.isFree then awaitStackPush item (.post .stackLock k)
            else getNonackableItem (.post .stackLock k)
          else .post .stackLock k

def sender (k : Locking n δ) : SenderCall → Locking n δ
  | .push package => locked (some (.sender (.push package))) .stackLock
      (LockedData.push (fun item senderStack => senderStack ++ [item]) package) k
  | .pushFront package => locked (some (.sender (.pushFront package))) .stackLock
      (LockedData.push List.cons package) k
  | .popForwardStack => popForwardStack k
  | .matchItem statusCode tableID => matchItem statusCode tableID k

/-- The test for an empty pool is made before the lock is taken, and `pop_front` of an
empty list is undefined. -/
def popTask (k : Locking n δ) : Locking n δ :=
  .look fun d =>
    if d.taskSink = [] then k
    else .wait (some .popTask) .sinkLock (fun d => { d with taskSink := d.taskSink.tail })
      fun d => if d.taskSink = [] then .undefined else .post .sinkLock k

end Locking

section Statistics

variable (average : ℕ → List ℤ → δ) (truncate : δ → ℤ)

/-- The times are counted before the lock is taken, and summed under it. -/
def StatisticsEngine.averaged (totalSize : ℕ) (engine : StatisticsEngine δ) :
    StatisticsEngine δ :=
  { engine with
    queueTimeVector := [truncate (average totalSize engine.queueTimeVector)]
    averageQueueTime := average totalSize engine.queueTimeVector }

namespace Locking

def calculateAvgTimerVector (k : Locking n δ) : Locking n δ :=
  .look fun d =>
    if d.statsEngine.queueTimeVector.length = 0 then k
    else locked none .calcAvgLock
      (fun e => { e with statsEngine :=
        e.statsEngine.averaged average truncate d.statsEngine.queueTimeVector.length }) k

/-- `timeBefore` is read before its own lock is taken, and `pop_front` is called on an
empty list only, where it is undefined. -/
def updateTimerAfter (now : ℤ) (k : Locking n δ) : Locking n δ :=
  .wait (some (.updateTimerAfter now)) .timerAfterLock
    (fun d => { d with statsEngine := { d.statsEngine with
      timeAfter := now
      queueTimeVector := d.statsEngine.queueTimeVector ++
        [milliseconds (now - d.statsEngine.timeBefore.headD 0)] } })
    fun d =>
      if d.statsEngine.timeBefore = [] then .undefined
      else .wait none .timerBeforeLock id fun d =>
        if d.statsEngine.timeBefore = [] then .undefined
        else .post .timerBeforeLock <| .look fun d =>
          if d.statsEngine.queueTimeVector.length ≥ toSizeT d.statsEngine.statisticsArraySize then
            calculateAvgTimerVector average truncate (.post .timerAfterLock k)
          else .post .timerAfterLock k

def toJson [Zero δ] [DecidableEq δ] (k : Locking n δ) : Locking n δ :=
  .look fun d =>
    if d.statsEngine.averageQueueTime = 0 then calculateAvgTimerVector average truncate k else k

end Locking

/-- The other functions have one section, in which nothing depends on the rest. -/
def LockCall.program [Zero δ] [DecidableEq δ] (call : LockCall n) (k : Locking n δ) :
    Locking n δ :=
  match call with
  | sender call => Locking.sender k call
  | pushTask taskData =>
    locked (some call) .sinkLock (fun d => { d with taskSink := d.taskSink.pushTask taskData }) k
  | popTask => Locking.popTask k
  | getNextTask thread | popJob thread => locked (some call) (.threadResourceLock thread) id k
  | setFlag | resetFlag => locked (some call) .flagLock id k
  | addInstance | incrimentRefrence | dereferenceInstance =>
    locked (some call) .instanceListLock id k
  | updateTimerBefore now => locked (some call) .timerBeforeLock
      (fun d => { d with statsEngine := d.statsEngine.updateTimerBefore now }) k
  | updateTimerAfter now => Locking.updateTimerAfter average truncate now k
  | updateThreadStats => locked (some call) .taskStatsUpdateLock id k
  | toJson => Locking.toJson average truncate k

/-- The calls of a thread, one after another. -/
def lockProgram [Zero δ] [DecidableEq δ] (calls : List (LockCall n)) : Locking n δ :=
  calls.foldr (LockCall.program average truncate) .done

end Statistics

section Alone

variable [Zero δ] [DecidableEq δ] (average : ℕ → List ℤ → δ) (truncate : δ → ℤ)

/-- What a call does to the data while no other thread runs. -/
def LockCall.perform (d : LockedData δ) : LockCall n → Except Stuck (LockedData δ)
  | sender call => (d.fwdStack.perform call).map fun f => { d with fwdStack := f }
  | pushTask taskData => .ok { d with taskSink := d.taskSink.pushTask taskData }
  | popTask => .ok <|
    match d.taskSink.popTask with
    | some (_, rest) => { d with taskSink := rest }
    | none => d
  | updateTimerBefore now => .ok { d with statsEngine := d.statsEngine.updateTimerBefore now }
  | updateTimerAfter now =>
    match d.statsEngine.updateTimerAfter (fun times => average times.length times) truncate now with
    | some (_, engine) => .ok { d with statsEngine := engine }
    | none => .error .undefined
  | toJson => .ok <|
    if d.statsEngine.averageQueueTime = 0 then
      { d with statsEngine :=
          d.statsEngine.calculateAvgTimerVector (fun times => average times.length times) truncate }
    else d
  | _ => .ok d

variable {d : LockedData δ} {k : Locking n δ}

theorem Locking.alone_popForwardStack (h : d.fwdStack.Sound) :
    (Locking.popForwardStack k).alone [] d =
      (LockCall.perform (n := n) average truncate d (.sender .popForwardStack)).bind
        fun e => k.alone [] e := by
  cases hs : d.fwdStack.senderStack with
  | nil =>
    simp [Locking.popForwardStack, LockProgram.alone, hs, LockCall.perform, ForwardStack.perform,
      ForwardStack.popForwardStack_nil hs, Except.map, Except.bind]
  | cons item rest =>
    have hperform : LockCall.perform (n := n) average truncate d (.sender .popForwardStack) =
        .ok { d with fwdStack := d.fwdStack.popped item rest } := by
      simp [LockCall.perform, ForwardStack.perform, h.popForwardStack_cons hs, Except.map]
    rw [hperform]
    by_cases ha : item.ackable = true
    · rcases Nat.lt_or_ge d.fwdStack.awaitStack.index totalDiffredPackets with hlt | hge
      · simp [Locking.popForwardStack, LockProgram.alone, hs, ha, h.awaitStack.isFree,
          Locking.awaitStackPush, LockedData.setSenderStack, LockedData.setAwaitStack, hlt,
          Nat.not_le.mpr hlt, ForwardStack.popped, Except.bind]
      · simp [Locking.popForwardStack, LockProgram.alone, hs, ha, h.awaitStack.isFree,
          Locking.awaitStackPush, LockedData.setSenderStack, hge, Nat.not_lt.mpr hge,
          ForwardStack.popped, Except.bind]
    · simp [Locking.popForwardStack, LockProgram.alone, hs, ha, LockedData.setSenderStack,
        ForwardStack.popped, Except.bind]

/-- The sixth acknowledgement blocks in `purge`. -/
theorem Locking.alone_matchItem (h : d.fwdStack.Sound) (statusCode : ℤ) (tableID : Text) :
    (Locking.matchItem statusCode tableID k).alone [] d =
      (LockCall.perform (n := n) average truncate d
        (.sender (.matchItem statusCode tableID))).bind fun e => k.alone [] e := by
  have hstack := h.awaitStack
  rcases AwaitStack.scan_spec hstack.slot statusCode tableID (List.finRange _) with
    ⟨i, item, hi, hans, hscan⟩ | ⟨hnone, hscan⟩
  · by_cases hlast : d.fwdStack.awaitStack.ackedPackets + 1 = totalDiffredPackets
    · have hblocked := hstack.matchItem_blocked ⟨i, item, hi, hans⟩ hlast
      simp [Locking.matchItem, LockProgram.alone, hscan, hlast, Locking.purge, LockCall.perform,
        ForwardStack.perform, hblocked, Except.map, Except.bind]
    · have hmatch : d.fwdStack.awaitStack.matchItem statusCode tableID =
          .ok (0, d.fwdStack.awaitStack.ackPacket i) := by
        simp [AwaitStack.matchItem, hstack.lock, hscan, bind, Except.bind, AwaitStack.ackPacket,
          hlast]
      simp [Locking.matchItem, LockProgram.alone, hscan, hlast, LockCall.perform,
        ForwardStack.perform, hmatch, Except.map, Except.bind, LockedData.setAwaitStack]
  · have hmatch : d.fwdStack.awaitStack.matchItem statusCode tableID =
        .ok (-1, d.fwdStack.awaitStack) := by
      apply hstack.matchItem_of_not_matches
      rintro ⟨i, item, hi, hans⟩
      exact hnone i (List.mem_finRange i) item hi hans
    rcases hscan with hscan | hscan <;>
      simp [Locking.matchItem, LockProgram.alone, hscan, LockCall.perform, ForwardStack.perform,
        hmatch, Except.map, Except.bind]

omit [Zero δ] [DecidableEq δ] in
theorem Locking.alone_calculateAvgTimerVector (held : List (WorkerLock n))
    (hheld : .calcAvgLock ∉ held) :
    (Locking.calculateAvgTimerVector average truncate k).alone held d =
      k.alone held { d with
        statsEngine := d.statsEngine.calculateAvgTimerVector
          (fun times => average times.length times) truncate } := by
  unfold StatisticsEngine.calculateAvgTimerVector
  by_cases hempty : d.statsEngine.queueTimeVector = []
  · simp [Locking.calculateAvgTimerVector, LockProgram.alone, hempty]
  · simp [Locking.calculateAvgTimerVector, LockProgram.alone, hempty, locked, hheld,
      StatisticsEngine.averaged]

theorem Locking.alone_updateTimerAfter (now : ℤ) :
    (Locking.updateTimerAfter average truncate now k).alone [] d =
      (LockCall.perform (n := n) average truncate d (.updateTimerAfter now)).bind
        fun e => k.alone [] e := by
  cases hs : d.statsEngine.timeBefore with
  | nil =>
    simp [Locking.updateTimerAfter, LockProgram.alone, hs, LockCall.perform,
      StatisticsEngine.updateTimerAfter, Except.bind]
  | cons front rest =>
    by_cases hfull : toSizeT d.statsEngine.statisticsArraySize ≤
        d.statsEngine.queueTimeVector.length + 1
    · simp [Locking.updateTimerAfter, LockProgram.alone, hs, LockCall.perform,
        StatisticsEngine.updateTimerAfter, Except.bind, hfull,
        Locking.alone_calculateAvgTimerVector]
    · simp [Locking.updateTimerAfter, LockProgram.alone, hs, LockCall.perform,
        StatisticsEngine.updateTimerAfter, Except.bind, hfull]

/-- A call made alone does what its function does. -/
theorem LockCall.alone_program (h : d.fwdStack.Sound) (call : LockCall n) :
    (call.program average truncate k).alone [] d =
      (call.perform average truncate d).bind fun e => k.alone [] e := by
  cases call with
  | sender call =>
    cases call with
    | push package =>
      simp [program, Locking.sender, locked, LockProgram.alone, perform, ForwardStack.perform,
        h.push_eq, Except.map, Except.bind, LockedData.push]
    | pushFront package =>
      simp [program, Locking.sender, locked, LockProgram.alone, perform, ForwardStack.perform,
        h.pushFront_eq, Except.map, Except.bind, LockedData.push]
    | popForwardStack => exact Locking.alone_popForwardStack average truncate h
    | matchItem statusCode tableID =>
      exact Locking.alone_matchItem average truncate h statusCode tableID
  | popTask =>
    cases hs : d.taskSink with
    | nil =>
      simp [program, Locking.popTask, LockProgram.alone, hs, perform, TaskPool.popTask, Except.bind]
    | cons task rest =>
      simp [program, Locking.popTask, LockProgram.alone, hs, perform, TaskPool.popTask, Except.bind]
  | updateTimerAfter now => exact Locking.alone_updateTimerAfter average truncate now
  | toJson =>
    by_cases hzero : d.statsEngine.averageQueueTime = 0
    · simp [program, Locking.toJson, LockProgram.alone, hzero, perform, Except.bind,
        Locking.alone_calculateAvgTimerVector]
    · simp [program, Locking.toJson, LockProgram.alone, hzero, perform, Except.bind]
  | _ => simp [program, locked, LockProgram.alone, perform, Except.bind]

end Alone

/-- The data on which a call gets no further: it pops a list that another thread has
emptied after the test, ends a timer before one was started, or acknowledges the last
slot of the await stack. -/
def LockCall.Fails : Option (LockCall n) → LockedData δ → Prop
  | some (sender .popForwardStack), d => d.fwdStack.senderStack = []
  | some (sender call), d => d.fwdStack.AcksLastSlot call
  | some popTask, d => d.taskSink = []
  | some (updateTimerAfter _), d => d.statsEngine.timeBefore = []
  | _, _ => False

namespace AwaitStack

/-- Every slot is free or has its element. -/
structure Filled (a : AwaitStack) : Prop where
  index_le : a.index ≤ totalDiffredPackets
  slot : ∀ i, a.awaitStack i = none ∨ ∃ item acked, a.Holds i item acked

variable {a : AwaitStack}

theorem filled_init : AwaitStack.init.Filled := ⟨Nat.zero_le _, fun _ => .inl rfl⟩

theorem Filled.isFree (h : a.Filled) : a.isFree = true := by
  simpa [AwaitStack.isFree] using h.index_le

theorem Filled.pushed (h : a.Filled) (item : PackagePtr) (hlt : a.index < totalDiffredPackets) :
    (a.pushed item hlt).Filled := by
  refine ⟨hlt, fun i => ?_⟩
  by_cases hi : i.val = a.index
  · obtain rfl : i = ⟨a.index, hlt⟩ := Fin.ext hi
    exact .inr ⟨item, false, pushed_holds item hlt⟩
  · simpa only [Holds, pushed_of_ne item hlt hi] using h.slot i

theorem Filled.ackPacket (h : a.Filled) (i : Fin totalDiffredPackets) :
    (a.ackPacket i).Filled := by
  refine ⟨h.index_le, fun j => ?_⟩
  by_cases hj : j = i
  · subst hj
    rcases h.slot j with hnone | ⟨item, acked, hholds⟩
    · exact .inl (by simp [AwaitStack.ackPacket, hnone])
    · refine .inr ⟨item, true, ?_⟩
      rw [Holds] at hholds
      simp [Holds, AwaitStack.ackPacket, hholds]
  · simpa [Holds, AwaitStack.ackPacket, hj] using h.slot j

end AwaitStack

/-- What the sections keep. The holder of the sender's stack lock relies on the number of
filled slots, and the holder of `timerAfterLock` on a timer that was started. -/
def lockDiscipline (n : ℕ) (δ : Type*) :
    Discipline (LockedData δ) (Option (LockCall n)) (WorkerLock n) where
  rank := WorkerLock.rank
  Invariant d := d.fwdStack.awaitStack.Filled
  Relies l d e :=
    match l with
    | .stackLock => e.fwdStack.awaitStack.index = d.fwdStack.awaitStack.index
    | .timerAfterLock => d.statsEngine.timeBefore ≠ [] → e.statsEngine.timeBefore ≠ []
    | _ => True
  Fails := LockCall.Fails
  relies_refl l d := by
    cases l <;> simp
  relies_trans l {a b c} hab hbc := by
    cases l with
    | stackLock => exact hbc.trans hab
    | timerAfterLock => exact hbc ∘ hab
    | _ => trivial

/-- The data are as sound as before, for the holder of any lock. -/
structure LockedData.Keeps (d e : LockedData δ) : Prop where
  filled : e.fwdStack.awaitStack.Filled
  index : e.fwdStack.awaitStack.index = d.fwdStack.awaitStack.index
  started : d.statsEngine.timeBefore ≠ [] → e.statsEngine.timeBefore ≠ []

theorem LockedData.Keeps.relies {d e : LockedData δ} (h : d.Keeps e) (l : WorkerLock n) :
    (lockDiscipline n δ).Relies l d e := by
  cases l with
  | stackLock => exact h.index
  | timerAfterLock => exact h.started
  | _ => trivial

/-- The program keeps to the discipline from any data on. -/
abbrev KeepsOrder (held : List (WorkerLock n)) (p : Locking n δ) : Prop :=
  ∀ d, (lockDiscipline n δ).Kept held d p

section Sections

variable {held : List (WorkerLock n)} {call : Option (LockCall n)} {l : WorkerLock n}
  {body : LockedData δ → LockedData δ} {k : Locking n δ}

theorem keepsOrder_locked (hrank : ∀ m ∈ held, m.rank < l.rank)
    (hfails : ∀ d : LockedData δ, ¬ LockCall.Fails call d)
    (hbody : ∀ d : LockedData δ, d.fwdStack.awaitStack.Filled → d.Keeps (body d))
    (hk : KeepsOrder held k) : KeepsOrder held (locked call l body k) := by
  intro d
  refine Discipline.kept_section hrank (fun e he => ?_) (fun e _ => hfails e) fun e _ => hk _
  have hkeeps := hbody e he.1
  exact ⟨hkeeps.filled, fun m _ => hkeeps.relies m⟩

theorem keepsOrder_post (h : l ∈ held) (hk : KeepsOrder (held.erase l) k) :
    KeepsOrder held (.post l k) :=
  fun d => ⟨h, hk d⟩

end Sections

namespace Locking

variable {k : Locking n δ}

/-- Nobody else fills a slot between the test and the lock. -/
theorem keepsOrder_awaitStackPush (item : PackagePtr) (hk : KeepsOrder [.stackLock] k) :
    KeepsOrder [.stackLock] (awaitStackPush item k) := by
  intro d e _
  beta_reduce
  split_ifs with hfull
  · exact hk e
  · refine ⟨by simp [lockDiscipline, WorkerLock.rank], fun f hf => ?_⟩
    have hindex : f.fwdStack.awaitStack.index = e.fwdStack.awaitStack.index :=
      hf.2 .stackLock (List.mem_cons_self ..)
    have hlt : f.fwdStack.awaitStack.index < totalDiffredPackets := by omega
    simp only [dif_pos hlt, if_pos hlt]
    refine ⟨⟨hf.1.pushed item hlt, fun m hm => ?_⟩, fun hfail => hfail.elim, fun _ => ?_⟩
    · cases m <;> simp_all [lockDiscipline, LockedData.setAwaitStack]
    · exact ⟨List.mem_cons_self .., by simpa using hk _⟩

theorem keepsOrder_popForwardStack (hk : KeepsOrder [] k) :
    KeepsOrder [] (popForwardStack k) := by
  intro d e _
  beta_reduce
  split_ifs with hempty
  · exact hk e
  · refine ⟨by simp, fun f hf => ?_⟩
    have hpost : KeepsOrder [.stackLock] (.post .stackLock k) :=
      keepsOrder_post (List.mem_cons_self ..) (by simpa using hk)
    beta_reduce
    cases hstack : f.fwdStack.senderStack with
    | nil =>
      refine ⟨⟨hf.1, fun m _ => (lockDiscipline n δ).relies_refl m f⟩, fun _ => ?_, ?_⟩
      · exact ⟨rfl, .inl rfl⟩
      · exact fun hgoes => absurd hstack hgoes
    | cons item rest =>
      have hkeeps : f.Keeps (f.setSenderStack rest) := ⟨hf.1, rfl, id⟩
      have hfree := AwaitStack.Filled.isFree hf.1
      simp only [hfree, Bool.not_true, Bool.and_false, Bool.false_eq_true, if_false, if_true]
      refine ⟨⟨hkeeps.filled, fun m _ => hkeeps.relies m⟩, fun hfail => ?_, fun _ => ?_⟩
      · exact absurd (hstack.symm.trans hfail) (List.cons_ne_nil item rest)
      · split_ifs
        · exact keepsOrder_awaitStackPush item hpost _
        · exact hpost _

theorem keepsOrder_matchItem (statusCode : ℤ) (tableID : Text) (hk : KeepsOrder [] k) :
    KeepsOrder [] (matchItem statusCode tableID k) := by
  intro d
  refine ⟨by simp, fun e he => ?_⟩
  have hpost : KeepsOrder [.awaitStackLock] (.post .awaitStackLock k) :=
    keepsOrder_post (List.mem_cons_self ..) (by simpa using hk)
  have hfails : LockCall.Fails (some (.sender (.matchItem statusCode tableID) : LockCall n)) e ↔
      e.fwdStack.awaitStack.ackedPackets + 1 = totalDiffredPackets ∧
        e.fwdStack.awaitStack.Matches statusCode tableID := by
    simp [LockCall.Fails, ForwardStack.AcksLastSlot]
  beta_reduce
  rcases AwaitStack.scan_spec he.1.slot statusCode tableID (List.finRange _) with
    ⟨i, item, hi, hans, hscan⟩ | ⟨hnone, hscan⟩
  · have hkeeps : e.Keeps (e.setAwaitStack (e.fwdStack.awaitStack.ackPacket i)) :=
      ⟨AwaitStack.Filled.ackPacket he.1 i, rfl, id⟩
    rw [hscan]
    refine ⟨⟨hkeeps.filled, fun m _ => hkeeps.relies m⟩, fun hfail => ?_, fun hgoes => ?_⟩
    · refine ⟨rfl, .inr ?_⟩
      dsimp only
      rw [if_pos (hfails.mp hfail).1]
      exact ⟨_, _, _, _, rfl, List.mem_cons_self ..⟩
    · dsimp only
      rw [if_neg fun hlast => hgoes (hfails.mpr ⟨hlast, i, item, hi, hans⟩)]
      exact hpost _
  · have hgoes :
        ¬ LockCall.Fails (some (.sender (.matchItem statusCode tableID) : LockCall n)) e := by
      rw [hfails]
      rintro ⟨_, i, item, hi, hans⟩
      exact hnone i (List.mem_finRange i) item hi hans
    have hrelies := fun m (_ : m ∉ [WorkerLock.awaitStackLock]) =>
      (lockDiscipline n δ).relies_refl m e
    rcases hscan with hscan | hscan
    · rw [hscan]
      exact ⟨⟨he.1, hrelies⟩, fun hfail => absurd hfail hgoes, fun _ => hpost _⟩
    · rw [hscan]
      exact ⟨⟨he.1, hrelies⟩, fun hfail => absurd hfail hgoes, fun _ => hpost _⟩

theorem keepsOrder_popTask (hk : KeepsOrder [] k) : KeepsOrder [] (popTask k) := by
  intro d e _
  beta_reduce
  split_ifs with hempty
  · exact hk e
  · refine ⟨by simp, fun f hf => ?_⟩
    have hkeeps : f.Keeps { f with taskSink := f.taskSink.tail } := ⟨hf.1, rfl, id⟩
    refine ⟨⟨hkeeps.filled, fun m _ => hkeeps.relies m⟩, fun hfail => ?_, fun hgoes => ?_⟩
    · exact ⟨rfl, .inl (if_pos hfail)⟩
    · have htask : f.taskSink ≠ [] := hgoes
      beta_reduce
      rw [if_neg htask]
      exact keepsOrder_post (List.mem_cons_self ..) (by simpa using hk) _

section Statistics

variable {average : ℕ → List ℤ → δ} {truncate : δ → ℤ} {held : List (WorkerLock n)}

theorem keepsOrder_calculateAvgTimerVector (hrank : ∀ m ∈ held, m.rank = 0)
    (hk : KeepsOrder held k) :
    KeepsOrder held (calculateAvgTimerVector average truncate k) := by
  intro d e _
  beta_reduce
  split_ifs
  · exact hk e
  · refine keepsOrder_locked ?_ ?_ ?_ hk e
    · intro m hm
      rw [hrank m hm]
      exact Nat.zero_lt_one
    · exact fun _ hfail => hfail
    · exact fun f hf => ⟨hf, rfl, id⟩

/-- A timer that was started stays so until the end has been compared with it. -/
theorem keepsOrder_updateTimerAfter (now : ℤ) (hk : KeepsOrder [] k) :
    KeepsOrder [] (updateTimerAfter average truncate now k) := by
  intro d
  refine ⟨by simp, fun e he => ⟨⟨he.1, fun m _ => ?_⟩, fun hfail => ?_, fun hgoes => ?_⟩⟩
  · exact LockedData.Keeps.relies ⟨he.1, rfl, id⟩ m
  · exact ⟨rfl, .inl (if_pos hfail)⟩
  · have hpost : KeepsOrder [.timerAfterLock] (.post .timerAfterLock k) :=
      keepsOrder_post (List.mem_cons_self ..) (by simpa using hk)
    have hfront : e.statsEngine.timeBefore ≠ [] := hgoes
    beta_reduce
    rw [if_neg hfront]
    refine ⟨by simp [lockDiscipline, WorkerLock.rank], fun f hf => ?_⟩
    have hstarted : f.statsEngine.timeBefore ≠ [] :=
      hf.2 .timerAfterLock (List.mem_cons_self ..) hfront
    refine ⟨⟨hf.1, fun m _ => (lockDiscipline n δ).relies_refl m f⟩, fun hfail => hfail.elim, ?_⟩
    intro _
    beta_reduce
    rw [if_neg hstarted]
    refine ⟨List.mem_cons_self .., ?_⟩
    rw [List.erase_cons_head]
    intro g _
    beta_reduce
    split_ifs
    · exact keepsOrder_calculateAvgTimerVector (by simp [WorkerLock.rank]) hpost g
    · exact hpost g

theorem keepsOrder_toJson [Zero δ] [DecidableEq δ] (hk : KeepsOrder [] k) :
    KeepsOrder [] (toJson average truncate k) := by
  intro d e _
  beta_reduce
  split_ifs
  · exact keepsOrder_calculateAvgTimerVector (by simp) hk e
  · exact hk e

end Statistics

end Locking

section Program

variable [Zero δ] [DecidableEq δ] (average : ℕ → List ℤ → δ) (truncate : δ → ℤ)

/-- Every function takes its locks in order and gives them back. -/
theorem LockCall.keepsOrder (call : LockCall n) {k : Locking n δ} (hk : KeepsOrder [] k) :
    KeepsOrder [] (call.program average truncate k) := by
  cases call with
  | sender call =>
    cases call with
    | push package =>
      refine keepsOrder_locked (by simp) (fun d hfail => ?_) (fun d hd => ⟨hd, rfl, id⟩) hk
      simp [LockCall.Fails, ForwardStack.AcksLastSlot] at hfail
    | pushFront package =>
      refine keepsOrder_locked (by simp) (fun d hfail => ?_) (fun d hd => ⟨hd, rfl, id⟩) hk
      simp [LockCall.Fails, ForwardStack.AcksLastSlot] at hfail
    | popForwardStack => exact Locking.keepsOrder_popForwardStack hk
    | matchItem statusCode tableID => exact Locking.keepsOrder_matchItem statusCode tableID hk
  | popTask => exact Locking.keepsOrder_popTask hk
  | updateTimerBefore now =>
    refine keepsOrder_locked (by simp) (fun _ => id) (fun d hd => ⟨hd, rfl, fun _ => ?_⟩) hk
    simp [StatisticsEngine.updateTimerBefore]
  | updateTimerAfter now => exact Locking.keepsOrder_updateTimerAfter now hk
  | toJson => exact Locking.keepsOrder_toJson hk
  | _ => exact keepsOrder_locked (by simp) (fun _ => id) (fun d hd => ⟨hd, rfl, id⟩) hk

theorem keepsOrder_lockProgram (calls : List (LockCall n)) :
    KeepsOrder [] (lockProgram average truncate calls) := by
  induction calls with
  | nil => exact fun _ => rfl
  | cons call calls ih => exact call.keepsOrder average truncate ih

variable {τ : Type*} [DecidableEq τ]

/-- Threads that make calls, from the start of the program on. -/
def lockStart (statisticsArraySize : ℤ) (calls : τ → List (LockCall n)) :
    LockState τ (LockedData δ) (Option (LockCall n)) (WorkerLock n) :=
  start ⟨.init, [], .new statisticsArraySize⟩ fun t => lockProgram average truncate (calls t)

/-- The next operation of the thread is the first wait of a call, on data on which the
call gets no further. -/
def CallFails (s : LockState τ (LockedData δ) (Option (LockCall n)) (WorkerLock n)) (t : τ) :
    Prop :=
  ∃ call, (s.thread t).todo.label = some call ∧ LockCall.Fails call s.data

/-- Any finite number of threads make any calls, in any interleaving. No lock ever has
two holders, and every thread that has something to do can still get to do it, exactly
when no call has acknowledged the last slot of the await stack, popped a list that another
thread has emptied meanwhile, or ended a timer that was not started. The threads can finish
from every state that they reach exactly when no run has such a call. -/
theorem deadlockFree_iff [Fintype τ] (statisticsArraySize : ℤ) (calls : τ → List (LockCall n)) :
    (∀ ts s, exec step (lockStart average truncate statisticsArraySize calls) ts = some s →
      (∀ l t u, l ∈ (s.thread t).held → l ∈ (s.thread u).held → t = u) ∧
      ((∀ t, (s.thread t).todo ≠ .done → CanStep s t) ↔
        Guarded step (fun s t => ¬ CallFails s t)
          (lockStart average truncate statisticsArraySize calls) ts)) ∧
    ((∀ ts s, exec step (lockStart average truncate statisticsArraySize calls) ts = some s →
      ∃ ts' s', exec step s ts' = some s' ∧ ∀ t, (s'.thread t).todo = .done) ↔
      ∀ ts s, exec step (lockStart average truncate statisticsArraySize calls) ts = some s →
        Guarded step (fun s t => ¬ CallFails s t)
          (lockStart average truncate statisticsArraySize calls) ts) := by
  have hdata : (lockDiscipline n δ).Invariant ⟨.init, [], .new statisticsArraySize⟩ :=
    AwaitStack.filled_init
  have hkept := fun t => keepsOrder_lockProgram average truncate (calls t)
    ⟨.init, [], .new statisticsArraySize⟩
  refine ⟨fun ts s hrun => ⟨?_, ?_⟩, ?_⟩
  · exact (safe_of_exec hdata hkept hrun).exclusive
  · exact canStep_iff hdata hkept WorkerLock.rank_le hrun
  · exact canFinish_iff hdata hkept WorkerLock.rank_le

end Program

/-- A sender that has queued a result, and a receiver that has looked for the result of an
acknowledgement. -/
theorem deadlockFree_twoThreads :
    let calls : Bool → List (LockCall 1) := fun t =>
      if t then [.sender (.push ForwardStack.resultPackage), .sender .popForwardStack]
      else [.sender (.matchItem spFresAck ['t'])]
    let first := lockStart (fun totalSize times => times.sum / totalSize) id 4 calls
    ∃ s, exec step first [true, true, false] = some s ∧
      ∀ t, (s.thread t).todo ≠ .done → CanStep s t := by
  intro calls first
  refine ⟨_, rfl, (((deadlockFree_iff _ _ 4 calls).1 [true, true, false] _ rfl).2.mpr ?_)⟩
  refine ⟨?_, fun s hs => ⟨?_, fun s' hs' => ⟨?_, fun s'' _ => trivial⟩⟩⟩
  · rintro ⟨call, hcall, hfail⟩
    cases hcall
    obtain ⟨_, _, heq, _⟩ := hfail
    cases heq
  · rintro ⟨call, hcall, hfail⟩
    cases hs
    cases hcall
  · rintro ⟨call, hcall, hfail⟩
    cases hs
    cases hs'
    cases hcall
    obtain ⟨_, _, _, hlast, _⟩ := hfail
    cases hlast

end WorkerUnit
