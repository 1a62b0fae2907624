import Mathlib.Tactic

/-!
# Replacing every occurrence of a text

From left to right each occurrence that does not overlap the one before it is
replaced. The empty text occurs in front of every element and at the end.
-/

namespace Replace

variable {α : Type*} {old new xs ys : List α} {sep : α}

theorem prefix_of_prefix_append_sep (hsep : sep ∉ old) (h : old <+: xs ++ sep :: ys) :
    old <+: xs := by
  rcases le_or_gt old.length xs.length with hle | hlt
  · exact List.prefix_of_prefix_length_le h (List.prefix_append xs _) hle
  · have hfront : xs ++ [sep] <+: xs ++ sep :: ys := ⟨ys, by simp⟩
    have hlonger : xs ++ [sep] <+: old :=
      List.prefix_of_prefix_length_le hfront h (by simpa using hlt)
    exact absurd (hlonger.subset (by simp)) hsep

variable [DecidableEq α]

/-- The replacement in what is left, the first `skip` elements of which belong to
an occurrence that has been replaced. -/
def replaceFrom (old new : List α) : ℕ → List α → List α
  | _, [] => []
  | skip + 1, _ :: xs => replaceFrom old new skip xs
  | 0, x :: xs =>
    if old <+: x :: xs then new ++ replaceFrom old new (old.length - 1) xs
    else x :: replaceFrom old new 0 xs

def replaceAll (old new text : List α) : List α :=
  if old = [] then new ++ text.flatMap (fun x => x :: new) else replaceFrom old new 0 text

theorem replaceFrom_eq_drop (skip : ℕ) (xs : List α) :
    replaceFrom old new skip xs = replaceFrom old new 0 (xs.drop skip) := by
  induction skip generalizing xs with
  | zero => rfl
  | succ skip ih =>
    cases xs with
    | nil => simp [replaceFrom]
    | cons x xs => rw [replaceFrom, ih, List.drop_succ_cons]

/-- An occurrence at the front is replaced. -/
theorem replaceFrom_occurrence (hold : old ≠ []) (new xs : List α) :
    replaceFrom old new 0 (old ++ xs) = new ++ replaceFrom old new 0 xs := by
  obtain ⟨x, rest, rfl⟩ := List.exists_cons_of_ne_nil hold
  have hprefix : x :: rest <+: x :: (rest ++ xs) := ⟨xs, rfl⟩
  rw [List.cons_append, replaceFrom, if_pos hprefix, replaceFrom_eq_drop, List.length_cons,
    Nat.add_sub_cancel, List.drop_left]

theorem replaceFrom_cons {x : α} (h : ¬ old <+: x :: xs) :
    replaceFrom old new 0 (x :: xs) = x :: replaceFrom old new 0 xs := by
  rw [replaceFrom, if_neg h]

/-- A text is empty, or starts with an occurrence, or with another element. -/
theorem replaceFrom_induction {P : List α → Prop} (hold : old ≠ []) (hnil : P [])
    (hoccurrence : ∀ xs, P xs → P (old ++ xs))
    (hother : ∀ x xs, ¬ old <+: x :: xs → P xs → P (x :: xs)) (xs : List α) : P xs := by
  induction hlength : xs.length using Nat.strong_induction_on generalizing xs with
  | _ m ih =>
    cases xs with
    | nil => exact hnil
    | cons x xs =>
      by_cases hprefix : old <+: x :: xs
      · obtain ⟨rest, hrest⟩ := hprefix
        have hpos := List.length_pos_of_ne_nil hold
        have hlen := congrArg List.length hrest
        rw [List.length_append, hlength] at hlen
        rw [← hrest]
        exact hoccurrence rest (ih _ (by omega) rest rfl)
      · exact hother x xs hprefix (ih _ (by rw [← hlength]; simp) xs rfl)

/-- Each replaced occurrence changes the length by the same amount. -/
theorem length_replaceFrom (hold : old ≠ []) (new xs : List α) :
    ∃ count, (replaceFrom old new 0 xs).length + count * old.length =
      xs.length + count * new.length := by
  induction xs using replaceFrom_induction hold with
  | hnil => exact ⟨0, by simp [replaceFrom]⟩
  | hoccurrence xs ih =>
    obtain ⟨count, hcount⟩ := ih
    refine ⟨count + 1, ?_⟩
    rw [replaceFrom_occurrence hold, List.length_append, List.length_append]
    linarith
  | hother x xs hprefix ih =>
    obtain ⟨count, hcount⟩ := ih
    refine ⟨count, ?_⟩
    rw [replaceFrom_cons hprefix, List.length_cons, List.length_cons]
    linarith

/-- A replaced occurrence shows unless it is replaced by itself. -/
theorem eq_of_append_replaceFrom (hold : old ≠ [])
    (h : new ++ replaceFrom old new 0 xs = old ++ xs) : new = old := by
  obtain ⟨count, hcount⟩ := length_replaceFrom hold new xs
  have hlength := congrArg List.length h
  rw [List.length_append, List.length_append] at hlength
  have hsame : (count + 1) * new.length = (count + 1) * old.length := by linarith
  exact List.append_inj_left h (Nat.eq_of_mul_eq_mul_left (Nat.succ_pos count) hsame)

theorem replaceFrom_eq_self_iff (hold : old ≠ []) (xs : List α) :
    replaceFrom old new 0 xs = xs ↔ new = old ∨ ¬ old <:+: xs := by
  induction xs using replaceFrom_induction hold with
  | hnil => simp [replaceFrom, hold]
  | hoccurrence xs ih =>
    have hinfix : old <:+: old ++ xs := (List.prefix_append old xs).isInfix
    rw [replaceFrom_occurrence hold]
    constructor
    · exact fun h => .inl (eq_of_append_replaceFrom hold h)
    · intro h
      have hnew : new = old := h.resolve_right (not_not.mpr hinfix)
      rw [ih.mpr (.inl hnew), hnew]
  | hother x xs hprefix ih =>
    have hinfix : old <:+: x :: xs ↔ old <:+: xs := by
      rw [List.infix_cons_iff, or_iff_right hprefix]
    rw [replaceFrom_cons hprefix, List.cons_inj_right, ih, hinfix]

/-- An occurrence does not reach over an element that is not in it. -/
theorem replaceFrom_append_sep (hold : old ≠ []) (hsep : sep ∉ old) (xs ys : List α) :
    replaceFrom old new 0 (xs ++ sep :: ys) =
      replaceFrom old new 0 xs ++ sep :: replaceFrom old new 0 ys := by
  induction xs using replaceFrom_induction hold with
  | hnil =>
    have hprefix : ¬ old <+: sep :: ys := by
      intro h
      rw [← List.nil_append (sep :: ys)] at h
      exact hold (List.prefix_nil.mp (prefix_of_prefix_append_sep hsep h))
    rw [List.nil_append, replaceFrom_cons hprefix]
    rfl
  | hoccurrence xs ih =>
    rw [List.append_assoc, replaceFrom_occurrence hold, replaceFrom_occurrence hold, ih,
      List.append_assoc]
  | hother x xs hprefix ih =>
    have hlonger : ¬ old <+: x :: (xs ++ sep :: ys) := fun h =>
      hprefix (prefix_of_prefix_append_sep hsep h)
    rw [List.cons_append, replaceFrom_cons hlonger, replaceFrom_cons hprefix, ih,
      List.cons_append]

theorem mem_replaceFrom (hold : old ≠ []) {a : α} (h : a ∈ replaceFrom old new 0 xs) :
    a ∈ new ∨ a ∈ xs := by
  induction xs using replaceFrom_induction hold with
  | hnil => exact .inr h
  | hoccurrence xs ih =>
    rw [replaceFrom_occurrence hold] at h
    rcases List.mem_append.mp h with h | h
    · exact .inl h
    · exact (ih h).imp_right (List.mem_append_right old)
  | hother x xs hprefix ih =>
    rw [replaceFrom_cons hprefix] at h
    rcases List.mem_cons.mp h with rfl | h
    · exact .inr (List.mem_cons_self ..)
    · exact (ih h).imp_right (List.mem_cons_of_mem x)

/-! The laws of `replaceAll`, with the empty text among the texts to replace. -/

theorem replaceAll_nil (new text : List α) :
    replaceAll [] new text = new ++ text.flatMap fun x => x :: new := if_pos rfl

theorem replaceAll_of_ne_nil (hold : old ≠ []) (text : List α) :
    replaceAll old new text = replaceFrom old new 0 text := if_neg hold

theorem replaceAll_self (old new : List α) : replaceAll old new old = new := by
  by_cases hold : old = []
  · simp [hold, replaceAll_nil]
  · have hone := replaceFrom_occurrence hold new []
    rw [List.append_nil] at hone
    rw [replaceAll_of_ne_nil hold, hone, replaceFrom, List.append_nil]

/-- A text keeps its form exactly when nothing in it is replaced by anything else. -/
theorem replaceAll_eq_self_iff (old new text : List α) :
    replaceAll old new text = text ↔ new = old ∨ ¬ old <:+: text := by
  by_cases hold : old = []
  · subst hold
    simp only [replaceAll_nil, List.nil_infix, not_true_eq_false, or_false]
    constructor
    · intro h
      have hlength := congrArg List.length h
      simp only [List.length_append, List.length_flatMap, List.length_cons, List.map_const',
        List.sum_replicate, smul_eq_mul] at hlength
      exact List.eq_nil_of_length_eq_zero (by nlinarith)
    · rintro rfl
      simp
  · rw [replaceAll_of_ne_nil hold, replaceFrom_eq_self_iff hold]

theorem replaceAll_append_sep (hsep : sep ∉ old) (xs ys : List α) :
    replaceAll old new (xs ++ sep :: ys) =
      replaceAll old new xs ++ sep :: replaceAll old new ys := by
  by_cases hold : old = []
  · simp [hold, replaceAll_nil]
  · simp only [replaceAll_of_ne_nil hold, replaceFrom_append_sep hold hsep]

theorem mem_replaceAll {a : α} (h : a ∈ replaceAll old new xs) : a ∈ new ∨ a ∈ xs := by
  by_cases hold : old = []
  · rw [hold, replaceAll_nil] at h
    simp only [List.mem_append, List.mem_flatMap, List.mem_cons] at h
    rcases h with h | ⟨x, hx, rfl | h⟩
    · exact .inl h
    · exact .inr hx
    · exact .inl h
  · rw [replaceAll_of_ne_nil hold] at h
    exact mem_replaceFrom hold h

/-- Fields are replaced one by one. -/
theorem replaceAll_intercalate (hsep : sep ∉ old) (new : List α) {fields : List (List α)}
    (h : fields ≠ []) :
    replaceAll old new ([sep].intercalate fields) =
      [sep].intercalate (fields.map (replaceAll old new)) := by
  induction fields with
  | nil => exact absurd rfl h
  | cons field fields ih =>
    cases fields with
    | nil => simp
    | cons next rest =>
      have hrest := ih (List.cons_ne_nil _ _)
      simp only [List.map_cons, List.intercalate_cons_cons, List.append_assoc,
        List.singleton_append] at hrest ⊢
      rw [replaceAll_append_sep hsep, hrest]

theorem sep_notMem_of_mem_splitOn {field : List α} {text : List α}
    (h : field ∈ text.splitOn sep) : sep ∉ field := by
  induction text generalizing field with
  | nil =>
    rw [List.splitOn_nil, List.mem_singleton] at h
    simp [h]
  | cons x text ih =>
    rw [List.splitOn_cons_eq_if_modifyHead] at h
    split_ifs at h with hx
    · rcases List.mem_cons.mp h with rfl | h
      · exact List.not_mem_nil
      · exact ih h
    · obtain ⟨first, rest, hsplit⟩ := List.exists_cons_of_ne_nil (List.splitOn_ne_nil sep text)
      rw [hsplit, List.modifyHead_cons] at h
      rcases List.mem_cons.mp h with rfl | h
      · have hfirst : sep ∉ first := ih (hsplit ▸ List.mem_cons_self ..)
        have hne : sep ≠ x := fun he => hx (beq_iff_eq.mpr he.symm)
        simp [hfirst, hne]
      · exact ih (hsplit ▸ List.mem_cons_of_mem _ h)

/-- The fields of a text are replaced one by one. -/
theorem splitOn_replaceAll (hold : sep ∉ old) (hnew : sep ∉ new) (text : List α) :
    (replaceAll old new text).splitOn sep = (text.splitOn sep).map (replaceAll old new) := by
  have hfields := replaceAll_intercalate hold new (List.splitOn_ne_nil sep text)
  rw [List.intercalate_splitOn] at hfields
  rw [hfields, List.splitOn_intercalate]
  · intro field hfield hmem
    obtain ⟨old', hold', rfl⟩ := List.mem_map.mp hfield
    rcases mem_replaceAll hmem with hmem | hmem
    · exact hnew hmem
    · exact sep_notMem_of_mem_splitOn hold' hmem
  · simp

end Replace
