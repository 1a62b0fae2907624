import Mathlib.Data.Fin.Basic
import Mathlib.Data.List.Chain
import Mathlib.Tactic

/-!
# Taking turns around a circle

A head goes around `n` places and stops at some of them. How far it is from a place
shrinks until it stops there, so if it never passes that place it stops there in any
`n` stops in a row, and between any two stops at another place.
-/

namespace RoundRobin

variable {n : ℕ} [NeZero n] {h i j k : Fin n} {l stops between : List (Fin n)}

/-- The number of places that a head at `h` passes before it comes to `i`. -/
def gap (h i : Fin n) : ℕ := (i - (h + 1)).val

/-- From `h` the head goes to `k` without passing `i`. -/
def Advances (i h k : Fin n) : Prop := k = i ∨ gap k i < gap h i

theorem gap_lt (h i : Fin n) : gap h i < n := (i - (h + 1)).isLt

theorem gap_succ (hne : h + 1 ≠ i) : gap (h + 1) i + 1 = gap h i := by
  have hzero : i - (h + 1) ≠ 0 := sub_ne_zero.mpr hne.symm
  have hpos : 0 < (i - (h + 1)).val := Fin.pos_iff_ne_zero.mpr hzero
  have hsub : i - (h + 1 + 1) = i - (h + 1) - 1 := by rw [sub_sub]
  rw [gap, hsub, Fin.val_sub_one_of_ne_zero hzero]
  exact Nat.sub_add_cancel hpos

/-- A head is farthest from the place where it is. -/
theorem eq_of_gap_succ_eq (hgap : gap h i + 1 = n) : h = i := by
  have hwrap : i - (h + 1) + 1 = 0 := by
    rw [Fin.ext_iff, Fin.val_add, Fin.val_one', Nat.add_mod_mod, ← gap, hgap, Nat.mod_self,
      Fin.val_zero]
  rw [sub_add_eq_sub_sub, sub_add_cancel, sub_eq_zero] at hwrap
  exact hwrap.symm

theorem Advances.of_next (hne : h + 1 ≠ i) (hk : Advances i (h + 1) k) : Advances i h k := by
  have hgap := gap_succ hne
  exact hk.imp_right fun hlt => by omega

theorem advances_next (h i : Fin n) : Advances i h (h + 1) := by
  by_cases heq : h + 1 = i
  · exact .inl heq
  · have hgap := gap_succ heq
    exact .inr (by omega)

/-- Away from its place the head comes nearer with each stop. -/
theorem gap_lt_of_mem (hstops : (h :: stops).IsChain (Advances i)) (hi : i ∉ stops)
    (hk : k ∈ stops) : gap k i < gap h i := by
  induction stops generalizing h with
  | nil => cases hk
  | cons j stops ih =>
    rw [List.mem_cons, not_or] at hi
    rw [List.isChain_cons_cons] at hstops
    have hj : gap j i < gap h i := hstops.1.resolve_left (Ne.symm hi.1)
    rcases List.mem_cons.mp hk with rfl | hk
    · exact hj
    · exact (ih hstops.2 hi.2 hk).trans hj

theorem length_le_gap (hstops : (h :: stops).IsChain (Advances i)) (hi : i ∉ stops) :
    stops.length ≤ gap h i := by
  induction stops generalizing h with
  | nil => exact Nat.zero_le _
  | cons j stops ih =>
    rw [List.mem_cons, not_or] at hi
    rw [List.isChain_cons_cons] at hstops
    have hj : gap j i < gap h i := hstops.1.resolve_left (Ne.symm hi.1)
    exact (Nat.succ_le_succ (ih hstops.2 hi.2)).trans hj

/-- In `n` stops in a row the head stops at the place. -/
theorem mem_of_length (hstops : stops.IsChain (Advances i)) (hlength : stops.length = n) :
    i ∈ stops := by
  cases stops with
  | nil => exact absurd hlength.symm (NeZero.ne n)
  | cons h stops =>
    by_contra hi
    rw [List.mem_cons, not_or] at hi
    have hle := length_le_gap hstops hi.2
    have hlt := gap_lt h i
    rw [List.length_cons] at hlength
    exact hi.1 (eq_of_gap_succ_eq (by omega)).symm

/-- Between two stops at another place the head stops at the place. -/
theorem mem_between (hstops : (j :: between ++ [j]).IsChain (Advances i)) (hne : j ≠ i) :
    i ∈ between := by
  by_contra hi
  have hnone : i ∉ between ++ [j] := by
    rw [List.mem_append, List.mem_singleton, not_or]
    exact ⟨hi, hne.symm⟩
  exact lt_irrefl _ (gap_lt_of_mem hstops hnone (by simp))

end RoundRobin
