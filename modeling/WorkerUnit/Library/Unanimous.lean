import Mathlib.Tactic

/-!
# Merging values by unanimity

Values are merged in turn into an accumulator that falls back to a fixed value
at the first one that differs. The result is the common value of the list, or
the fallback.
-/

namespace Unanimous

variable {α : Type*} [DecidableEq α] (fallback : α)

def mergeStep (acc x : α) : α := if x ≠ acc then fallback else acc

/-- The values merged into the first one. -/
def merge (v : α) (values : List α) : α := values.foldl (mergeStep fallback) v

variable {fallback}

/-- A merge gives a proper value exactly when every value is that value. -/
theorem merge_eq_iff {w : α} (hw : w ≠ fallback) (v : α) (values : List α) :
    merge fallback v values = w ↔ ∀ x ∈ v :: values, x = w := by
  induction values generalizing v with
  | nil => simp [merge]
  | cons y ys ih =>
    have hmerge : merge fallback v (y :: ys) = merge fallback (mergeStep fallback v y) ys := rfl
    rw [hmerge, ih]
    by_cases hyv : y = v
    · subst hyv
      simp [mergeStep]
    · simp only [mergeStep, ne_eq, hyv, not_false_eq_true, if_true, List.forall_mem_cons]
      constructor
      · rintro ⟨hfallback, _⟩
        exact absurd hfallback.symm hw
      · rintro ⟨rfl, hy, _⟩
        exact absurd hy hyv

/-- The merge falls back unless some proper value is unanimous. -/
theorem merge_eq_fallback_iff (v : α) (values : List α) :
    merge fallback v values = fallback ↔ ∀ w, w ≠ fallback → ∃ x ∈ v :: values, x ≠ w := by
  constructor
  · intro h w hw
    by_contra hall
    push Not at hall
    have hmerge := (merge_eq_iff hw v values).mpr hall
    exact hw (hmerge.symm.trans h)
  · intro h
    by_contra hne
    obtain ⟨x, hx, hxw⟩ := h _ hne
    exact hxw ((merge_eq_iff hne v values).mp rfl x hx)

/-- Values that are the same proper values are the same. -/
theorem eq_of_proper_iff {a b : α} (h : ∀ w, w ≠ fallback → (a = w ↔ b = w)) : a = b := by
  by_cases ha : a = fallback
  · by_contra hab
    have hb : b ≠ fallback := fun hb => hab (ha.trans hb.symm)
    exact hab ((h b hb).mpr rfl)
  · exact ((h a ha).mp rfl).symm

variable {β : Type*} (f : β → α) (b : β) (bs : List β)

/-- The values of a family, merged in order. -/
theorem merge_map_eq_iff {w : α} (hw : w ≠ fallback) :
    merge fallback (f b) (bs.map f) = w ↔ ∀ x ∈ b :: bs, f x = w := by
  rw [merge_eq_iff hw, ← List.map_cons, List.forall_mem_map]

theorem merge_map_eq_fallback_iff :
    merge fallback (f b) (bs.map f) = fallback ↔
      ∀ w, w ≠ fallback → ∃ x ∈ b :: bs, f x ≠ w := by
  rw [merge_eq_fallback_iff, ← List.map_cons]
  simp

variable {b bs}

theorem merge_map_of_eq_fallback {x : β} (hx : x ∈ b :: bs) (h : f x = fallback) :
    merge fallback (f b) (bs.map f) = fallback :=
  (merge_map_eq_fallback_iff f b bs).mpr fun _ hw => ⟨x, hx, fun hfx => hw (hfx.symm.trans h)⟩

/-- A merge that does not fall back gives the first value. -/
theorem merge_map_of_ne (h : merge fallback (f b) (bs.map f) ≠ fallback) :
    merge fallback (f b) (bs.map f) = f b :=
  ((merge_map_eq_iff f b bs h).mp rfl b (List.mem_cons_self ..)).symm

/-- A family of two proper values falls back when it takes both. -/
theorem merge_map_two_values {f : β → α} {P : β → Prop} [DecidablePred P] {a c : α}
    (ha : a ≠ fallback) (hc : c ≠ fallback) (hac : a ≠ c)
    (hf : ∀ x ∈ b :: bs, f x = if P x then a else c) :
    merge fallback (f b) (bs.map f) =
      if ∀ x ∈ b :: bs, P x then a else if ∀ x ∈ b :: bs, ¬ P x then c else fallback := by
  split_ifs with hall hnone
  · apply (merge_map_eq_iff f b bs ha).mpr
    intro x hx
    rw [hf x hx, if_pos (hall x hx)]
  · apply (merge_map_eq_iff f b bs hc).mpr
    intro x hx
    rw [hf x hx, if_neg (hnone x hx)]
  · apply (merge_map_eq_fallback_iff f b bs).mpr
    intro w _
    obtain ⟨x, hx, hPx⟩ := not_forall₂.mp hall
    obtain ⟨y, hy, hPy⟩ := not_forall₂.mp hnone
    by_cases hwa : w = a
    · refine ⟨x, hx, ?_⟩
      rw [hf x hx, if_neg hPx, hwa]
      exact hac.symm
    · refine ⟨y, hy, ?_⟩
      rw [hf y hy, if_pos (not_not.mp hPy)]
      exact Ne.symm hwa

end Unanimous
