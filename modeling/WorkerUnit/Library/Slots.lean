import Mathlib.Algebra.BigOperators.Fin
import Mathlib.Tactic

/-!
# Families of slots

A finite family of slots, each empty or holding one value, and the number of
slots whose value satisfies a test. Putting a value into an empty slot, clearing
a slot and changing a value in place each have one rule.
-/

namespace Slots

variable {ι α κ : Type*} [Fintype ι]

/-- One for a value that passes the test, zero otherwise. -/
def weight (p : α → Bool) (x : Option α) : ℕ := if x.any p then 1 else 0

@[simp] theorem weight_none (p : α → Bool) : weight p none = 0 := rfl

theorem weight_some (p : α → Bool) (a : α) : weight p (some a) = if p a then 1 else 0 := rfl

/-- The number of slots whose value passes the test. -/
def countIf (p : α → Bool) (slots : ι → Option α) : ℕ := ∑ i, weight p (slots i)

/-- The number of slots that hold a value. -/
def load (slots : ι → Option α) : ℕ := countIf (fun _ => true) slots

variable {p : α → Bool} {slots : ι → Option α} {i : ι} {a : α}

@[simp] theorem countIf_empty (p : α → Bool) : countIf p (fun _ : ι => none) = 0 := by
  simp [countIf]

theorem load_le_card (slots : ι → Option α) : load slots ≤ Fintype.card ι := by
  have hle : load slots ≤ ∑ _i : ι, 1 := by
    apply Finset.sum_le_sum
    intro i _
    unfold weight
    split_ifs <;> omega
  simpa using hle

theorem countIf_le_load (p : α → Bool) (slots : ι → Option α) : countIf p slots ≤ load slots := by
  apply Finset.sum_le_sum
  intro i _
  cases slots i with
  | none => exact le_rfl
  | some a =>
    rw [weight_some, weight_some, if_pos rfl]
    split_ifs <;> omega

theorem exists_empty_of_load_lt (h : load slots < Fintype.card ι) : ∃ i, slots i = none := by
  by_contra hfull
  push Not at hfull
  have hall : ∀ i, weight (fun _ => true) (slots i) = 1 := by
    intro i
    obtain ⟨a, ha⟩ := Option.ne_none_iff_exists'.mp (hfull i)
    simp [ha, weight_some]
  simp [load, countIf, hall] at h

/-- A slot that passes the test is counted. -/
theorem countIf_pos (h : slots i = some a) (hp : p a = true) : 0 < countIf p slots := by
  have hle : weight p (slots i) ≤ countIf p slots :=
    Finset.single_le_sum (fun j _ => Nat.zero_le (weight p (slots j))) (Finset.mem_univ i)
  rw [h, weight_some, if_pos hp] at hle
  exact hle

/-- What is counted is in a slot and passes the test. -/
theorem exists_of_countIf_ne_zero (h : countIf p slots ≠ 0) : ∃ i a, slots i = some a ∧ p a := by
  obtain ⟨i, _, hi⟩ := Finset.exists_ne_zero_of_sum_ne_zero h
  cases ha : slots i with
  | none => simp [ha] at hi
  | some a => exact ⟨i, a, ha, by simpa [ha, weight_some] using hi⟩

/-- A change of all values that the test does not see. -/
theorem countIf_mapAll (g : α → α) (hg : ∀ a, p (g a) = p a) (slots : ι → Option α) :
    countIf p (fun i => (slots i).map g) = countIf p slots := by
  apply Finset.sum_congr rfl
  intro i _
  cases hi : slots i with
  | none => simp [hi]
  | some a => simp [hi, weight_some, hg]

variable [DecidableEq ι]

/-- A sum of weights after one member of the family has changed. -/
theorem sum_update {M : Type*} [AddCommMonoid M] (weight : κ → M) (f : ι → κ) (i : ι) (x : κ) :
    ∑ j, weight (Function.update f i x j) + weight (f i) = ∑ j, weight (f j) + weight x := by
  have hrest : ∑ j ∈ Finset.univ.erase i, weight (Function.update f i x j) =
      ∑ j ∈ Finset.univ.erase i, weight (f j) := by
    apply Finset.sum_congr rfl
    intro j hj
    rw [Function.update_of_ne (Finset.ne_of_mem_erase hj)]
  have hnew := Finset.add_sum_erase Finset.univ (fun j => weight (Function.update f i x j))
    (Finset.mem_univ i)
  have hold := Finset.add_sum_erase Finset.univ (fun j => weight (f j)) (Finset.mem_univ i)
  simp only [Function.update_self] at hnew
  rw [← hnew, ← hold, hrest, add_right_comm, add_comm (weight x), add_right_comm]

theorem countIf_put (h : slots i = none) (a : α) :
    countIf p (Function.update slots i (some a)) = countIf p slots + if p a then 1 else 0 := by
  have hsum := sum_update (weight p) slots i (some a)
  rw [h, weight_none, weight_some] at hsum
  exact hsum

theorem countIf_clear (h : slots i = some a) :
    countIf p (Function.update slots i none) + (if p a then 1 else 0) = countIf p slots := by
  have hsum := sum_update (weight p) slots i none
  rw [h, weight_none, weight_some] at hsum
  exact hsum

/-- A change in place that the test does not see. -/
theorem countIf_map (g : α → α) (hg : ∀ a, p (g a) = p a) :
    countIf p (Function.update slots i ((slots i).map g)) = countIf p slots := by
  have hsum := sum_update (weight p) slots i ((slots i).map g)
  have hweight : weight p ((slots i).map g) = weight p (slots i) := by
    cases slots i with
    | none => rfl
    | some a => simp [weight_some, hg]
  rw [hweight] at hsum
  exact Nat.add_right_cancel hsum

end Slots
