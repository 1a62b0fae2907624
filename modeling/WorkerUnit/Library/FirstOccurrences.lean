import Mathlib.Tactic

/-!
# First occurrences

`List.eraseDups` keeps the first of several equal elements of a list.
-/

namespace List

variable {α : Type*} [DecidableEq α]

theorem length_filter_ne_lt (a : α) (l : List α) :
    (l.filter (· ≠ a)).length < (a :: l).length := by
  rw [length_cons]
  exact Nat.lt_succ_of_le (length_filter_le _ _)

theorem filter_ne_of_notMem {a : α} {l : List α} (h : a ∉ l) : l.filter (· ≠ a) = l := by
  apply filter_eq_self.mpr
  intro b hb
  simpa using fun he : b = a => h (he ▸ hb)

variable [BEq α] [LawfulBEq α]

theorem eraseDups_cons_filter (a : α) (l : List α) :
    (a :: l).eraseDups = a :: (l.filter (· ≠ a)).eraseDups := by
  rw [eraseDups_cons]
  congr 3
  funext b
  by_cases hb : b = a <;> simp [hb]

theorem nodup_eraseDups (l : List α) : l.eraseDups.Nodup := by
  induction hlength : l.length using Nat.strong_induction_on generalizing l with
  | _ m ih =>
    cases l with
    | nil => exact nodup_nil
    | cons a l =>
      rw [eraseDups_cons_filter, nodup_cons, mem_eraseDups]
      exact ⟨by simp, ih _ (hlength ▸ length_filter_ne_lt a l) _ rfl⟩

theorem eraseDups_sublist (l : List α) : l.eraseDups.Sublist l := by
  induction hlength : l.length using Nat.strong_induction_on generalizing l with
  | _ m ih =>
    cases l with
    | nil => exact .slnil
    | cons a l =>
      rw [eraseDups_cons_filter]
      exact ((ih _ (hlength ▸ length_filter_ne_lt a l) _ rfl).trans filter_sublist).cons_cons a

/-- Nothing is erased exactly when all elements are different. -/
theorem eraseDups_eq_self_iff {l : List α} : l.eraseDups = l ↔ l.Nodup := by
  constructor
  · intro h
    exact h ▸ nodup_eraseDups l
  · intro h
    induction l with
    | nil => rfl
    | cons a l ih =>
      obtain ⟨ha, hl⟩ := nodup_cons.mp h
      rw [eraseDups_cons_filter, filter_ne_of_notMem ha, ih hl]

theorem length_eraseDups_lt_iff {l : List α} : l.eraseDups.length < l.length ↔ ¬ l.Nodup := by
  rw [← eraseDups_eq_self_iff, (eraseDups_sublist l).length_le.lt_iff_ne]
  exact not_congr ⟨(eraseDups_sublist l).eq_of_length, congrArg length⟩

end List
