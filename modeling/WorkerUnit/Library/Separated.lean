import Mathlib.Tactic

/-!
# Fields put together with separators

Which separator of a text ends a field: the last one, when the field behind it has
none, or the one that as many others precede as the field holds. Joined lists without
the separator are read back in one way.
-/

namespace Separated

variable {α : Type*} {sep : α} {xs ys us vs : List α}

/-- The last separator ends the text in front of it. -/
theorem append_sep_inj (hys : sep ∉ ys) (hvs : sep ∉ vs)
    (h : xs ++ sep :: ys = us ++ sep :: vs) : xs = us ∧ ys = vs := by
  have hrev := congrArg List.reverse h
  simp only [List.reverse_append, List.reverse_cons, List.append_assoc,
    List.singleton_append] at hrev
  have hys' : sep ∉ ys.reverse := by simpa using hys
  have hvs' : sep ∉ vs.reverse := by simpa using hvs
  have hlength : ys.reverse.length = vs.reverse.length := by
    rcases List.append_eq_append_iff.mp hrev with ⟨rest, hv, hrest⟩ | ⟨rest, hy, hrest⟩
    · cases rest with
      | nil => simp [hv]
      | cons c rest =>
        rw [List.cons_append, List.cons.injEq] at hrest
        rw [hv, ← hrest.1] at hvs'
        simp at hvs'
    · cases rest with
      | nil => simp [hy]
      | cons c rest =>
        rw [List.cons_append, List.cons.injEq] at hrest
        rw [hy, ← hrest.1] at hys'
        simp at hys'
  obtain ⟨hback, hfront⟩ := List.append_inj hrev hlength
  rw [List.cons.injEq] at hfront
  exact ⟨List.reverse_injective hfront.2, List.reverse_injective hback⟩

/-- A separator ends the field that holds as many of them as precede it. -/
theorem append_sep_inj_of_count [DecidableEq α] (hcount : xs.count sep = us.count sep)
    (h : xs ++ sep :: ys = us ++ sep :: vs) : xs = us ∧ ys = vs := by
  induction xs generalizing us with
  | nil =>
    cases us with
    | nil => exact ⟨rfl, (List.cons.inj h).2⟩
    | cons u us =>
      rw [List.nil_append, List.cons_append, List.cons.injEq] at h
      rw [← h.1] at hcount
      simp at hcount
  | cons x xs ih =>
    cases us with
    | nil =>
      rw [List.nil_append, List.cons_append, List.cons.injEq] at h
      rw [h.1] at hcount
      simp at hcount
    | cons u us =>
      rw [List.cons_append, List.cons_append, List.cons.injEq] at h
      obtain ⟨rfl, h⟩ := h
      have hrest : xs.count sep = us.count sep := by
        rw [List.count_cons, List.count_cons] at hcount
        exact Nat.add_right_cancel hcount
      obtain ⟨rfl, rfl⟩ := ih hrest h
      exact ⟨rfl, rfl⟩

/-- Joined lists without the separator in their entries are read back in one way. -/
theorem intercalate_inj [DecidableEq α] {as bs : List (List α)} (ha : ∀ a ∈ as, sep ∉ a)
    (hb : ∀ b ∈ bs, sep ∉ b) (hna : as ≠ []) (hnb : bs ≠ [])
    (h : [sep].intercalate as = [sep].intercalate bs) : as = bs := by
  rw [← List.splitOn_intercalate sep ha hna, h, List.splitOn_intercalate sep hb hnb]

/-- Two joined lists with something between them are one joined list, in which the
neighbours of the middle are one entry. -/
theorem intercalate_append_mid (sep : α) (mid a b : List α) (as bs : List (List α)) :
    [sep].intercalate (as ++ [a]) ++ (mid ++ [sep].intercalate (b :: bs)) =
      [sep].intercalate (as ++ (a ++ (mid ++ b)) :: bs) := by
  have hlast : ∀ a : List α, a ++ (mid ++ [sep].intercalate (b :: bs)) =
      [sep].intercalate ((a ++ (mid ++ b)) :: bs) := by
    intro a
    cases bs with
    | nil => simp
    | cons next bs => simp [List.intercalate_cons_cons]
  induction as with
  | nil => simpa using hlast a
  | cons first as ih =>
    have hne : as ++ [a] ≠ [] := by simp
    have hne' : as ++ (a ++ (mid ++ b)) :: bs ≠ [] := by simp
    rw [List.cons_append, List.cons_append, List.intercalate_cons_of_ne_nil hne,
      List.intercalate_cons_of_ne_nil hne', List.append_assoc, ih]

end Separated
