import Mathlib.Data.List.ReduceOption
import Mathlib.Tactic

/-!
# A double-ended queue with a record of what left it

Items enter at either end and leave at the front. An attempt to take an item out
of the empty queue is recorded as `none`.
-/

inductive DequeOp (α : Type*) where
  | pushFront (a : α)
  | pushRear (a : α)
  | popFront
  deriving DecidableEq

structure Deque (α : Type*) where
  waiting : List α
  exported : List (Option α)
  deriving DecidableEq

variable {α : Type*}

/-- The item that the operation brings in. -/
def DequeOp.item? : DequeOp α → Option α
  | .pushFront a => some a
  | .pushRear a => some a
  | .popFront => none

namespace Deque

def empty : Deque α := ⟨[], []⟩

def apply (d : Deque α) : DequeOp α → Deque α
  | .pushFront a => { d with waiting := a :: d.waiting }
  | .pushRear a => { d with waiting := d.waiting ++ [a] }
  | .popFront => ⟨d.waiting.tail, d.exported ++ [d.waiting.head?]⟩

def applyAll (d : Deque α) (ops : List (DequeOp α)) : Deque α := ops.foldl apply d

/-- Operations that arise one by one from a list of events, some of which do
nothing to the queue. -/
theorem applyAll_filterMap {β : Type*} (f : β → Option (DequeOp α)) (d : Deque α) (bs : List β) :
    d.applyAll (bs.filterMap f) = bs.foldl (fun d b => (f b).elim d d.apply) d := by
  induction bs generalizing d with
  | nil => rfl
  | cons b bs ih =>
    cases hb : f b with
    | none => simpa [hb] using ih d
    | some op => simpa [hb, applyAll] using ih (d.apply op)

/-- The items inside and those that left. -/
def items (d : Deque α) : List α := d.exported.reduceOption ++ d.waiting

theorem items_apply (d : Deque α) (op : DequeOp α) :
    (d.apply op).items.Perm (d.items ++ op.item?.toList) := by
  cases op with
  | pushFront a =>
    have hmiddle : (d.exported.reduceOption ++ a :: d.waiting).Perm (a :: d.items) :=
      List.perm_middle
    exact hmiddle.trans (List.perm_append_singleton a d.items).symm
  | pushRear a => simp [apply, items, DequeOp.item?]
  | popFront =>
    cases hw : d.waiting with
    | nil =>
      simp [apply, items, DequeOp.item?, hw, List.reduceOption_append,
        List.reduceOption_singleton]
    | cons a rest =>
      simp [apply, items, DequeOp.item?, hw, List.reduceOption_append,
        List.reduceOption_singleton]

/-- No item is lost or copied: the items that entered are those that left
together with those that wait. -/
theorem items_applyAll (d : Deque α) (ops : List (DequeOp α)) :
    (d.applyAll ops).items.Perm (d.items ++ ops.filterMap DequeOp.item?) := by
  induction ops generalizing d with
  | nil => simp [applyAll]
  | cons op ops ih =>
    have hhead := (items_apply d op).append_right (ops.filterMap DequeOp.item?)
    refine (ih (d.apply op)).trans (hhead.trans ?_)
    cases hop : op.item? <;> simp [hop]

end Deque
