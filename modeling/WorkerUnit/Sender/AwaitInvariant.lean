import WorkerUnit.Sender.ForwardStack
import Mathlib.Data.Fintype.Card
import Mathlib.Algebra.BigOperators.Fin

/-!
# The invariant of the await stack

Slots are filled in order of their index and never emptied: the only function
that empties them waits on the lock its caller holds. Each operation of the two
stacks gets one lemma saying what it returns from a state in which both locks
are free and the slots are filled in order.
-/

namespace WorkerUnit

open Semaphore

/-- The item in a slot, when there is one, and whether it is acknowledged. -/
def AwaitStack.Holds (a : AwaitStack) (i : Fin totalDiffredPackets) (item : PackagePtr)
    (acked : Bool) : Prop :=
  a.awaitStack i = some ⟨some item, acked⟩

/-- An acknowledgement of this code and id is meant for the item. -/
def PackagePtr.AnsweredBy (item : PackagePtr) (statusCode : ℤ) (tableID : Text) : Prop :=
  item.package.tableID = tableID ∧
    (statusCode = spIntrAck ∧ item.package.statusCode = .intrSend ∨
      statusCode = spFresAck ∧ item.package.statusCode = .fresSend)

namespace AwaitStack

/-- Some item in a slot still waits for this acknowledgement. -/
def Matches (a : AwaitStack) (statusCode : ℤ) (tableID : Text) : Prop :=
  ∃ i item, a.Holds i item false ∧ item.AnsweredBy statusCode tableID

def ackedSlots (a : AwaitStack) : Finset (Fin totalDiffredPackets) :=
  Finset.univ.filter fun i => (a.awaitStack i).any (·.itemAcked)

@[simp] theorem mem_ackedSlots (a : AwaitStack) (i : Fin totalDiffredPackets) :
    i ∈ a.ackedSlots ↔ (a.awaitStack i).any (·.itemAcked) = true := by
  simp [ackedSlots]

structure Sound (a : AwaitStack) : Prop where
  lock : a.stackLock = 1
  index_le : a.index ≤ totalDiffredPackets
  filled : ∀ i, i.val < a.index → ∃ item acked, a.Holds i item acked
  vacant : ∀ i, a.index ≤ i.val → a.awaitStack i = none
  acked_eq : a.ackedPackets = a.ackedSlots.card
  acked_lt : a.ackedPackets < totalDiffredPackets

theorem sound_init : AwaitStack.init.Sound where
  lock := rfl
  index_le := Nat.zero_le _
  filled := by
    intro i hi
    simp [AwaitStack.init] at hi
  vacant := fun _ _ => rfl
  acked_eq := by simp [AwaitStack.init, ackedSlots]
  acked_lt := by simp [AwaitStack.init]

variable {a : AwaitStack}

theorem Sound.slot (h : a.Sound) (i : Fin totalDiffredPackets) :
    a.awaitStack i = none ∨ ∃ item acked, a.Holds i item acked := by
  rcases Nat.lt_or_ge i.val a.index with hi | hi
  · exact .inr (h.filled i hi)
  · exact .inl (h.vacant i hi)

theorem Sound.isFree (h : a.Sound) : a.isFree = true := by
  simpa [AwaitStack.isFree] using h.index_le

/-- The stack after `push` has stored the item in the next slot. -/
def pushed (a : AwaitStack) (item : PackagePtr) (h : a.index < totalDiffredPackets) : AwaitStack :=
  { a with
    awaitStack := Function.update a.awaitStack ⟨a.index, h⟩ (some ⟨some item, false⟩)
    index := a.index + 1 }

theorem Sound.push_eq (h : a.Sound) (item : PackagePtr) (hlt : a.index < totalDiffredPackets) :
    a.push item = .ok (0, a.pushed item hlt) := by
  simp [AwaitStack.push, Nat.not_le.mpr hlt, h.lock, pushed, bind, Except.bind]

theorem push_full (item : PackagePtr) (hge : totalDiffredPackets ≤ a.index) :
    a.push item = .ok (-1, a) := by
  simp only [AwaitStack.push, dif_pos hge]

theorem pushed_holds (item : PackagePtr) (hlt : a.index < totalDiffredPackets) :
    (a.pushed item hlt).Holds ⟨a.index, hlt⟩ item false := by
  simp [Holds, pushed]

theorem pushed_of_ne (item : PackagePtr) (hlt : a.index < totalDiffredPackets)
    {i : Fin totalDiffredPackets} (hi : i.val ≠ a.index) :
    (a.pushed item hlt).awaitStack i = a.awaitStack i := by
  have hne : i ≠ ⟨a.index, hlt⟩ := fun he => hi (congrArg Fin.val he)
  simp [pushed, hne]

theorem Sound.pushed (h : a.Sound) (item : PackagePtr) (hlt : a.index < totalDiffredPackets) :
    (a.pushed item hlt).Sound := by
  have hacked : (a.pushed item hlt).ackedSlots = a.ackedSlots := by
    ext i
    by_cases hi : i.val = a.index
    · obtain rfl : i = ⟨a.index, hlt⟩ := Fin.ext hi
      simp [AwaitStack.pushed, h.vacant ⟨a.index, hlt⟩ le_rfl]
    · simp [pushed_of_ne item hlt hi]
  refine ⟨h.lock, hlt, ?_, ?_, ?_, h.acked_lt⟩
  · intro i hi
    by_cases he : i.val = a.index
    · obtain rfl : i = ⟨a.index, hlt⟩ := Fin.ext he
      exact ⟨item, false, pushed_holds item hlt⟩
    · obtain ⟨x, b, hx⟩ := h.filled i (by simp [AwaitStack.pushed] at hi; omega)
      exact ⟨x, b, (pushed_of_ne item hlt he).trans hx⟩
  · intro i hi
    have hi' : a.index + 1 ≤ i.val := hi
    rw [pushed_of_ne item hlt (by omega)]
    exact h.vacant i (by omega)
  · rw [hacked]
    exact h.acked_eq

/-- The search finds a slot that waits for the acknowledgement, if there is one. -/
theorem scan_spec (h : ∀ i, a.awaitStack i = none ∨ ∃ item acked, a.Holds i item acked)
    (statusCode : ℤ) (tableID : Text) (is : List (Fin totalDiffredPackets)) :
    (∃ i item, a.Holds i item false ∧ item.AnsweredBy statusCode tableID ∧
        a.scan statusCode tableID is = .ok (.ackPacket i)) ∨
      ((∀ i ∈ is, ∀ item, a.Holds i item false → ¬ item.AnsweredBy statusCode tableID) ∧
        (a.scan statusCode tableID is = .ok .unknownCode ∨
          a.scan statusCode tableID is = .ok .duplicate)) := by
  induction is with
  | nil => simp [scan]
  | cons i is ih =>
    rcases h i with hi | ⟨x, b, hx⟩
    · have hscan : a.scan statusCode tableID (i :: is) = a.scan statusCode tableID is := by
        simp [scan, hi]
      simpa [hscan, Holds, hi] using ih
    · have hx' : a.awaitStack i = some ⟨some x, b⟩ := hx
      by_cases hans : x.AnsweredBy statusCode tableID ∧ b = false
      · refine .inl ⟨i, x, hans.2 ▸ hx, hans.1, ?_⟩
        rcases hans.1.2 with ⟨hc, hk⟩ | ⟨hc, hk⟩
        · simp [scan, hx', hans.1.1, hc, hk, hans.2]
        · simp [scan, hx', hans.1.1, hc, hk, hans.2, spIntrAck, spFresAck]
      · have hnone : ∀ item, a.Holds i item false → ¬ item.AnsweredBy statusCode tableID := by
          intro item hitem
          rw [Holds, hx'] at hitem
          simp only [Option.some.injEq, AwaitStackPackage.mk.injEq] at hitem
          exact fun ha => hans ⟨hitem.1 ▸ ha, hitem.2⟩
        have hscan : a.scan statusCode tableID (i :: is) = a.scan statusCode tableID is ∨
            (a.scan statusCode tableID (i :: is) = .ok .unknownCode ∧
              statusCode ≠ spIntrAck ∧ statusCode ≠ spFresAck) := by
          simp only [scan, hx']
          split_ifs with h1 h2 h3 h4 h5 <;> simp_all [PackagePtr.AnsweredBy]
        rcases hscan with hscan | ⟨hscan, hne⟩
        · rw [hscan]
          refine ih.imp_right fun hr => ⟨?_, hr.2⟩
          simpa using ⟨hnone, hr.1⟩
        · refine .inr ⟨fun j _ item _ ha => ?_, .inl hscan⟩
          rcases ha.2 with ⟨hc, _⟩ | ⟨hc, _⟩
          · exact hne.1 hc
          · exact hne.2 hc

theorem Holds.ackPacket {i : Fin totalDiffredPackets} {item : PackagePtr}
    (h : a.Holds i item false) (j : Fin totalDiffredPackets) (x : PackagePtr) (b : Bool) :
    (a.ackPacket i).Holds j x b ↔ if j = i then x = item ∧ b = true else a.Holds j x b := by
  have h' : a.awaitStack i = some ⟨some item, false⟩ := h
  split_ifs with hj
  · subst hj
    simp [Holds, AwaitStack.ackPacket, h', eq_comm]
  · simp [Holds, AwaitStack.ackPacket, hj]

theorem Holds.ackedSlots_ackPacket {i : Fin totalDiffredPackets} {item : PackagePtr}
    (h : a.Holds i item false) : (a.ackPacket i).ackedSlots = insert i a.ackedSlots := by
  have h' : a.awaitStack i = some ⟨some item, false⟩ := h
  ext j
  by_cases hj : j = i
  · subst hj
    simp [AwaitStack.ackPacket, h']
  · simp [AwaitStack.ackPacket, hj]

theorem Sound.ackPacket (h : a.Sound) {i : Fin totalDiffredPackets} {item : PackagePtr}
    (hi : a.Holds i item false) (hlt : a.ackedPackets + 1 < totalDiffredPackets) :
    (a.ackPacket i).Sound := by
  have hi' : a.awaitStack i = some ⟨some item, false⟩ := hi
  refine ⟨h.lock, h.index_le, ?_, ?_, ?_, hlt⟩
  · intro j hj
    obtain ⟨x, b, hx⟩ := h.filled j hj
    by_cases hji : j = i
    · exact ⟨item, true, (hi.ackPacket j item true).mpr (by simp [hji])⟩
    · exact ⟨x, b, (hi.ackPacket j x b).mpr (by simpa [hji] using hx)⟩
  · intro j hj
    have hv := h.vacant j hj
    have hji : j ≠ i := by
      rintro rfl
      rw [hi'] at hv
      cases hv
    simpa [AwaitStack.ackPacket, hji] using hv
  · have hnot : i ∉ a.ackedSlots := by simp [hi']
    rw [hi.ackedSlots_ackPacket, Finset.card_insert_of_notMem hnot, ← h.acked_eq]
    rfl

/-- `matchItem` when nothing waits for the acknowledgement. -/
theorem Sound.matchItem_of_not_matches (h : a.Sound) {statusCode : ℤ} {tableID : Text}
    (hm : ¬ a.Matches statusCode tableID) : a.matchItem statusCode tableID = .ok (-1, a) := by
  have ha : ({ a with stackLock := 1 } : AwaitStack) = a := by rw [← h.lock]
  rcases scan_spec h.slot statusCode tableID (List.finRange _) with ⟨i, item, hi, hans, _⟩ | ⟨_, hs⟩
  · exact absurd ⟨i, item, hi, hans⟩ hm
  · rcases hs with hs | hs <;>
      simp [AwaitStack.matchItem, h.lock, hs, bind, Except.bind, ha]

/-- `matchItem` when it acknowledges an item and slots are left over. -/
theorem Sound.matchItem_of_matches (h : a.Sound) {statusCode : ℤ} {tableID : Text}
    (hm : a.Matches statusCode tableID) (hlt : a.ackedPackets + 1 < totalDiffredPackets) :
    ∃ i item, a.Holds i item false ∧ item.AnsweredBy statusCode tableID ∧
      a.matchItem statusCode tableID = .ok (0, a.ackPacket i) := by
  rcases scan_spec h.slot statusCode tableID (List.finRange _) with
    ⟨i, item, hi, hans, hs⟩ | ⟨hs, _⟩
  · refine ⟨i, item, hi, hans, ?_⟩
    simp [AwaitStack.matchItem, h.lock, hs, bind, Except.bind, AwaitStack.ackPacket,
      Nat.ne_of_lt hlt]
  · obtain ⟨i, item, hi, hans⟩ := hm
    exact absurd hans (hs i (List.mem_finRange i) item hi)

/-- The acknowledgement of the last slot calls `purge`, which waits for the lock
that `matchItem` holds. -/
theorem Sound.matchItem_blocked (h : a.Sound) {statusCode : ℤ} {tableID : Text}
    (hm : a.Matches statusCode tableID) (heq : a.ackedPackets + 1 = totalDiffredPackets) :
    a.matchItem statusCode tableID = .error .blocked := by
  rcases scan_spec h.slot statusCode tableID (List.finRange _) with
    ⟨i, item, hi, hans, hs⟩ | ⟨hs, _⟩
  · simp [AwaitStack.matchItem, h.lock, hs, bind, Except.bind, AwaitStack.ackPacket, heq,
      AwaitStack.purge]
  · obtain ⟨i, item, hi, hans⟩ := hm
    exact absurd hans (hs i (List.mem_finRange i) item hi)

end AwaitStack

namespace ForwardStack

structure Sound (f : ForwardStack) : Prop where
  lock : f.stackLock = 1
  awaitStack : f.awaitStack.Sound

variable {f : ForwardStack}

theorem sound_init : ForwardStack.init.Sound := ⟨rfl, AwaitStack.sound_init⟩

theorem Sound.push_eq (h : f.Sound) (package : ForwardStackPackage) :
    f.push package = .ok { f with
      senderStack := f.senderStack ++ [⟨f.allocated, package⟩], allocated := f.allocated + 1 } := by
  simp [ForwardStack.push, h.lock, bind, Except.bind]

theorem Sound.pushFront_eq (h : f.Sound) (package : ForwardStackPackage) :
    f.pushFront package = .ok { f with
      senderStack := ⟨f.allocated, package⟩ :: f.senderStack, allocated := f.allocated + 1 } := by
  simp [ForwardStack.pushFront, h.lock, bind, Except.bind]

/-- What `popForwardStack` leaves behind when `item` is at the front: an
acknowledgeable item goes to the await stack as long as a slot is left. -/
def popped (f : ForwardStack) (item : PackagePtr) (rest : List PackagePtr) : ForwardStack :=
  { f with
    senderStack := rest
    awaitStack :=
      if h : item.ackable = true ∧ f.awaitStack.index < totalDiffredPackets
      then f.awaitStack.pushed item h.2 else f.awaitStack }

theorem popForwardStack_nil (hs : f.senderStack = []) : f.popForwardStack = .ok (.empty, f) := by
  simp [popForwardStack, hs]

/-- The branch of `getNonackableItem` is never taken. -/
theorem Sound.popForwardStack_cons (h : f.Sound) {item : PackagePtr} {rest : List PackagePtr}
    (hs : f.senderStack = item :: rest) :
    f.popForwardStack = .ok (item.package, f.popped item rest) := by
  by_cases ha : item.ackable = true
  · rcases Nat.lt_or_ge f.awaitStack.index totalDiffredPackets with hlt | hge
    · simp [popForwardStack, hs, h.lock, ha, h.awaitStack.isFree, h.awaitStack.push_eq item hlt,
        bind, Except.bind, popped, hlt]
    · simp [popForwardStack, hs, h.lock, ha, h.awaitStack.isFree, AwaitStack.push_full item hge,
        bind, Except.bind, popped, Nat.not_lt.mpr hge]
  · simp [popForwardStack, hs, h.lock, ha, bind, Except.bind, popped]

theorem Sound.popped (h : f.Sound) (item : PackagePtr) (rest : List PackagePtr) :
    (f.popped item rest).Sound := by
  refine ⟨h.lock, ?_⟩
  unfold ForwardStack.popped
  dsimp only
  split_ifs with hc
  · exact h.awaitStack.pushed item hc.2
  · exact h.awaitStack

end ForwardStack

end WorkerUnit
