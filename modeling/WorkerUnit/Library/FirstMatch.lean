import Mathlib.Tactic

/-!
# Changing the first match of a list

A search that changes the first element passing a test and then stops. When the
elements carry different keys, this changes the element with one key.
-/

namespace FirstMatch

variable {α κ : Type*} (p : α → Bool) (g : α → α)

/-- The list with its first match changed. -/
def changeFirst (l : List α) : List α := l.replaceF fun a => if p a then some (g a) else none

variable {p g} {l : List α} {a : α}

theorem changeFirst_of_none (h : l.find? p = none) : changeFirst p g l = l := by
  apply List.replaceF_of_forall_none
  intro x hx
  simp [List.find?_eq_none.mp h x hx]

theorem map_changeFirst {f : α → κ} (hg : ∀ x, f (g x) = f x) (l : List α) :
    (changeFirst p g l).map f = l.map f := by
  induction l with
  | nil => rfl
  | cons x xs ih =>
    by_cases hx : p x = true
    · simp [changeFirst, hx, hg]
    · simpa [changeFirst, hx] using ih

/-- What a change keeps, a search by it still finds. -/
theorem find?_changeFirst {f : α → κ} {q : α → Bool} (hg : ∀ x, f (g x) = f x)
    (hq : ∀ x, q (g x) = q x) (l : List α) :
    ((changeFirst p g l).find? q).map f = (l.find? q).map f := by
  induction l with
  | nil => rfl
  | cons x xs ih =>
    by_cases hx : p x = true
    · by_cases hqx : q x = true
      · simp [changeFirst, hx, hqx, hq, hg]
      · simp [changeFirst, hx, hqx, hq]
    · by_cases hqx : q x = true
      · simp [changeFirst, hx, hqx]
      · simpa [changeFirst, hx, hqx] using ih

/-- The first match is looked for behind elements that do not pass. -/
theorem changeFirst_append (h : ∀ x ∈ l, p x = false) (l' : List α) :
    changeFirst p g (l ++ l') = l ++ changeFirst p g l' := by
  induction l with
  | nil => rfl
  | cons x xs ih =>
    obtain ⟨hx, hxs⟩ := List.forall_mem_cons.mp h
    have hrest := ih hxs
    simp only [changeFirst] at hrest
    simp [changeFirst, hx, hrest]

section Filter

variable {q : α → Bool} (hq : ∀ x, q (g x) = q x)

include hq in
/-- A change within a part of the list. -/
theorem filter_changeFirst (h : ∀ x ∈ l, p x = true → q x = true) :
    (changeFirst p g l).filter q = changeFirst p g (l.filter q) := by
  induction l with
  | nil => rfl
  | cons x xs ih =>
    obtain ⟨hx, hxs⟩ := List.forall_mem_cons.mp h
    have hrest := ih hxs
    simp only [changeFirst] at hrest
    by_cases hpx : p x = true
    · simp [changeFirst, hpx, hx hpx, hq]
    · by_cases hqx : q x = true
      · simp [changeFirst, hpx, hqx, hrest]
      · simp [changeFirst, hpx, hqx, hrest]

include hq in
/-- A change outside of a part of the list. -/
theorem filter_changeFirst_of_not (h : ∀ x ∈ l, p x = true → q x = false) :
    (changeFirst p g l).filter q = l.filter q := by
  induction l with
  | nil => rfl
  | cons x xs ih =>
    obtain ⟨hx, hxs⟩ := List.forall_mem_cons.mp h
    have hrest := ih hxs
    simp only [changeFirst] at hrest
    by_cases hpx : p x = true
    · simp [changeFirst, hpx, hx hpx, hq]
    · by_cases hqx : q x = true
      · simp [changeFirst, hpx, hqx, hrest]
      · simp [changeFirst, hpx, hqx, hrest]

end Filter

/-- With different keys the first match is changed and nothing else. -/
theorem changeFirst_of_some [DecidableEq κ] {key : α → κ} (hkeys : (l.map key).Nodup)
    (h : l.find? p = some a) :
    changeFirst p g l = l.map fun x => if key x = key a then g x else x := by
  induction l with
  | nil => cases h
  | cons x xs ih =>
    rw [List.map_cons, List.nodup_cons] at hkeys
    by_cases hx : p x = true
    · rw [List.find?_cons_of_pos hx, Option.some.injEq] at h
      subst h
      have hrest : xs.map (fun y => if key y = key x then g y else y) = xs := by
        have hid : ∀ y ∈ xs, (if key y = key x then g y else y) = y := by
          intro y hy
          have hne : key y ≠ key x := fun he => hkeys.1 (he ▸ List.mem_map_of_mem hy)
          rw [if_neg hne]
        rw [List.map_congr_left hid, List.map_id']
      simp [changeFirst, hx, hrest]
    · rw [List.find?_cons_of_neg hx] at h
      have hne : key x ≠ key a := fun he =>
        hkeys.1 (he ▸ List.mem_map_of_mem (List.mem_of_find?_eq_some h))
      have hrest := ih hkeys.2 h
      simp only [changeFirst] at hrest
      simp [changeFirst, hx, hne, hrest]

end FirstMatch
