import Mathlib.Tactic

/-!
# Calls that may block forever

A counting semaphore as a natural number, and the outcome of a call made by one
thread while no other thread runs: it returns, it waits on a semaphore nobody
will post, or it does something whose meaning the language leaves undefined.
-/

namespace Semaphore

inductive Stuck where
  | blocked
  | undefined
  deriving DecidableEq, Repr

instance {α : Type*} [DecidableEq α] : DecidableEq (Except Stuck α) := by
  intro a b
  match a, b with
  | .ok x, .ok y => exact decidable_of_iff (x = y) (by simp)
  | .error x, .error y => exact decidable_of_iff (x = y) (by simp)
  | .ok _, .error _ => exact isFalse (by simp)
  | .error _, .ok _ => exact isFalse (by simp)

def semWait (sem : ℕ) : Except Stuck ℕ :=
  if sem = 0 then .error .blocked else .ok (sem - 1)

def semPost (sem : ℕ) : ℕ := sem + 1

@[simp] theorem semWait_zero : semWait 0 = .error .blocked := rfl

@[simp] theorem semWait_one : semWait 1 = .ok 0 := rfl

@[simp] theorem semPost_zero : semPost 0 = 1 := rfl

end Semaphore
