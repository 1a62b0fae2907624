import WorkerUnit.Algorithm.CeFinalize

/-!
# Splitting the table against computing it at once

The splits of `sched_algo` run on their own rows and `aggrigateResults` merges
what they have learned. The merge gives the result of a single split exactly
when every split has a positive row and each attribute merges right.
-/

namespace WorkerUnit

open Unanimous CandidateElimination CeFinalize

/-- The splits of `sched_algo` run to `JOB_DONE`, and their exports, in the order
of the splits, aggregate to the result. -/
def Computes [BoostIequals] (n : ℕ) (disk : Disk) (tableId confirmValue : Text)
    (rows totalThreads : ℕ) (result : CeFinalize n) : Prop :=
  ∃ finals : List (CandidateElimination n),
    List.Forall₂
      (fun range final => (CandidateElimination.new n disk tableId confirmValue range).RunsTo final)
      (splitRanges rows totalThreads) finals ∧
    CeFinalize.aggrigateResults (finals.map (·.candidateEliminationEnd)) = some result

/-- The computation with `totalThreads` splits and the one with a single split
have the same result. -/
def ParallelAgrees [BoostIequals] (n : ℕ) (disk : Disk) (tableId confirmValue : Text)
    (rows totalThreads : ℕ) : Prop :=
  ∃ a b, Computes n disk tableId confirmValue rows totalThreads a ∧
    Computes n disk tableId confirmValue rows 1 b ∧ a.SameResult b

/-- No data cell is spelled like an unset or a general value. -/
def PlainCells (disk : Disk) (tableId : Text) (rows : ℕ) : Prop :=
  ∀ r ≤ rows, 1 ≤ r → ∀ line ∈ (fileLines disk tableId)[r]?, ∀ cell ∈ advTokenizer line ',',
    cell ≠ star ∧ cell ≠ quest

instance (disk : Disk) (tableId : Text) (rows : ℕ) : Decidable (PlainCells disk tableId rows) :=
  inferInstanceAs (Decidable (∀ r ≤ rows, 1 ≤ r → ∀ line ∈ _, ∀ cell ∈ _, _))

section Splits

variable {n : ℕ} [BoostIequals] (confirmValue : Text)

/-- The rows of each split of `sched_algo`. -/
def splits (n : ℕ) (lines : List Text) (rows totalThreads : ℕ) : List (List (Row n)) :=
  (splitRanges rows totalThreads).map fun range =>
    readRows n lines range.1.toNat (range.2 + 1 - range.1).toNat

/-- When the merge of the splits is right in attribute `j`. -/
structure MergesAt (blocks : List (List (Row n))) (j : Fin n) : Prop where
  spelling : AgreeAt confirmValue blocks.flatten j → ∀ block ∈ blocks, ∀ other ∈ blocks,
    ∀ p ∈ (positives confirmValue block).head?, ∀ q ∈ (positives confirmValue other).head?,
      p.attribute j = q.attribute j
  general : AgreeAt confirmValue blocks.flatten j → RefutedAt confirmValue blocks.flatten j ∨
    (∀ block ∈ blocks, negatives confirmValue block = []) ∨
      ∀ block ∈ blocks, negatives confirmValue block ≠ []
  varied : ¬ AgreeAt confirmValue blocks.flatten j →
    (∃ block ∈ blocks, negatives confirmValue block ≠ []) ∨
      ∃ block ∈ blocks, ¬ AgreeAt confirmValue block j

instance (blocks : List (List (Row n))) (j : Fin n) :
    Decidable (MergesAt confirmValue blocks j) :=
  decidable_of_iff
    ((AgreeAt confirmValue blocks.flatten j → ∀ block ∈ blocks, ∀ other ∈ blocks,
        ∀ p ∈ (positives confirmValue block).head?, ∀ q ∈ (positives confirmValue other).head?,
          p.attribute j = q.attribute j) ∧
      (AgreeAt confirmValue blocks.flatten j → RefutedAt confirmValue blocks.flatten j ∨
        (∀ block ∈ blocks, negatives confirmValue block = []) ∨
          ∀ block ∈ blocks, negatives confirmValue block ≠ []) ∧
      (¬ AgreeAt confirmValue blocks.flatten j →
        (∃ block ∈ blocks, negatives confirmValue block ≠ []) ∨
          ∃ block ∈ blocks, ¬ AgreeAt confirmValue block j))
    ⟨fun h => ⟨h.1, h.2.1, h.2.2⟩, fun h => ⟨h.spelling, h.general, h.varied⟩⟩

/-- Every split has a positive row, and each attribute merges right. -/
def MergeSafe (blocks : List (List (Row n))) : Prop :=
  (∀ block ∈ blocks, positives confirmValue block ≠ []) ∧ ∀ j, MergesAt confirmValue blocks j

instance (blocks : List (List (Row n))) : Decidable (MergeSafe confirmValue blocks) :=
  inferInstanceAs (Decidable (_ ∧ ∀ _, _))

end Splits

section Merge

variable {n : ℕ} [BoostIequals] {confirmValue : Text} {rows ps : List (Row n)} {p : Row n}
  {j : Fin n}

theorem agreeAt_iff_fitsAt (hp : p ∈ positives confirmValue rows) :
    AgreeAt confirmValue rows j ↔ FitsAt confirmValue p rows j := by
  constructor
  · intro h q hq
    exact h p hp q hq
  · intro h q hq r hr
    exact iequals_trans (iequals_symm (h q hq)) (h r hr)

theorem refutedAt_iff_not_clearAt (hp : p ∈ positives confirmValue rows)
    (hagree : AgreeAt confirmValue rows j) :
    RefutedAt confirmValue rows j ↔ ¬ ClearAt confirmValue p rows j := by
  constructor
  · rintro ⟨q, hq, x, hx, hqx⟩ hclear
    exact hclear x hx (iequals_trans (hagree p hp q hq) hqx)
  · intro h
    unfold ClearAt at h
    push Not at h
    obtain ⟨x, hx, hpx⟩ := h
    exact ⟨p, hp, x, hx, hpx⟩

theorem learned_s (h : positives confirmValue rows = p :: ps) :
    (learned confirmValue rows).s j =
      if AgreeAt confirmValue rows j then p.attribute j else quest := by
  have hp : p ∈ positives confirmValue rows := h ▸ List.mem_cons_self ..
  have hlearned : (learned confirmValue rows).s j = learnedS confirmValue p rows j := by
    rw [learned, h]
  simp only [hlearned, learnedS, agreeAt_iff_fitsAt hp]

theorem learned_g (h : positives confirmValue rows = p :: ps) :
    (learned confirmValue rows).g j =
      if AgreeAt confirmValue rows j ∧ ¬ RefutedAt confirmValue rows j then
        if negatives confirmValue rows = [] then star else p.attribute j
      else quest := by
  have hp : p ∈ positives confirmValue rows := h ▸ List.mem_cons_self ..
  have hlearned : (learned confirmValue rows).g j = learnedG confirmValue p rows j := by
    rw [learned, h]
  rw [hlearned, learnedG]
  by_cases hagree : AgreeAt confirmValue rows j
  · have hfits := (agreeAt_iff_fitsAt hp).mp hagree
    simp only [hfits, hagree, refutedAt_iff_not_clearAt hp hagree, true_and, not_not]
  · have hfits : ¬ FitsAt confirmValue p rows j := fun h => hagree ((agreeAt_iff_fitsAt hp).mpr h)
    simp only [hfits, hagree, false_and, if_false]

theorem learned_totals (h : positives confirmValue rows ≠ []) :
    (learned confirmValue rows).totalPositives = (positives confirmValue rows).length ∧
      (learned confirmValue rows).totalNegatives = (negatives confirmValue rows).length := by
  obtain ⟨p, ps, hp⟩ := List.exists_cons_of_ne_nil h
  rw [learned, hp]
  exact ⟨rfl, rfl⟩

theorem positives_append (xs ys : List (Row n)) :
    positives confirmValue (xs ++ ys) = positives confirmValue xs ++ positives confirmValue ys :=
  List.filter_append ..

theorem negatives_append (xs ys : List (Row n)) :
    negatives confirmValue (xs ++ ys) = negatives confirmValue xs ++ negatives confirmValue ys :=
  List.filter_append ..

theorem mem_positives_flatten {blocks : List (List (Row n))} :
    p ∈ positives confirmValue blocks.flatten ↔
      ∃ block ∈ blocks, p ∈ positives confirmValue block := by
  rw [positives, List.filter_flatten, ← List.flatMap_def]
  exact List.mem_flatMap

theorem mem_negatives_flatten {blocks : List (List (Row n))} :
    p ∈ negatives confirmValue blocks.flatten ↔
      ∃ block ∈ blocks, p ∈ negatives confirmValue block := by
  rw [negatives, List.filter_flatten, ← List.flatMap_def]
  exact List.mem_flatMap

theorem negatives_flatten_eq_nil {blocks : List (List (Row n))} :
    negatives confirmValue blocks.flatten = [] ↔
      ∀ block ∈ blocks, negatives confirmValue block = [] := by
  rw [negatives, List.filter_flatten, ← List.flatMap_def]
  exact List.flatMap_eq_nil_iff

theorem AgreeAt.block {blocks : List (List (Row n))}
    (h : AgreeAt confirmValue blocks.flatten j) (hrows : rows ∈ blocks) :
    AgreeAt confirmValue rows j :=
  fun p hp q hq => h p (mem_positives_flatten.mpr ⟨rows, hrows, hp⟩) q
    (mem_positives_flatten.mpr ⟨rows, hrows, hq⟩)

/-- Blocks that agree in themselves, with one spelling of their first positive
rows, agree together. -/
theorem agreeAt_flatten {blocks : List (List (Row n))} {w : Text}
    (hagree : ∀ block ∈ blocks, AgreeAt confirmValue block j)
    (hw : ∀ block ∈ blocks, ∀ p ∈ (positives confirmValue block).head?, p.attribute j = w) :
    AgreeAt confirmValue blocks.flatten j := by
  have hlike : ∀ p ∈ positives confirmValue blocks.flatten, iequals w (p.attribute j) = true := by
    intro p hp
    obtain ⟨block, hblock, hp⟩ := mem_positives_flatten.mp hp
    obtain ⟨q, qs, hq⟩ := List.exists_cons_of_ne_nil (List.ne_nil_of_mem hp)
    have hfirst : q.attribute j = w := hw block hblock q (by rw [hq]; rfl)
    have hqp := hagree block hblock q (hq ▸ List.mem_cons_self ..) p hp
    rwa [hfirst] at hqp
  intro p hp q hq
  exact iequals_trans (iequals_symm (hlike p hp)) (hlike q hq)

/-- When the positive rows agree, a refutation stays inside one block. -/
theorem refutedAt_flatten {blocks : List (List (Row n))}
    (hpositive : ∀ block ∈ blocks, positives confirmValue block ≠ [])
    (hagree : AgreeAt confirmValue blocks.flatten j) :
    RefutedAt confirmValue blocks.flatten j ↔
      ∃ block ∈ blocks, RefutedAt confirmValue block j := by
  constructor
  · rintro ⟨p, hp, x, hx, hpx⟩
    obtain ⟨block, hblock, hx⟩ := mem_negatives_flatten.mp hx
    obtain ⟨q, hq⟩ := List.exists_mem_of_ne_nil _ (hpositive block hblock)
    have hqp := hagree q (mem_positives_flatten.mpr ⟨block, hblock, hq⟩) p hp
    exact ⟨block, hblock, q, hq, x, hx, iequals_trans hqp hpx⟩
  · rintro ⟨block, hblock, p, hp, x, hx, hpx⟩
    exact ⟨p, mem_positives_flatten.mpr ⟨block, hblock, hp⟩, x,
      mem_negatives_flatten.mpr ⟨block, hblock, hx⟩, hpx⟩

theorem positives_flatten_cons {block : List (Row n)} (rest : List (List (Row n)))
    (h : positives confirmValue block = p :: ps) :
    positives confirmValue (block :: rest).flatten =
      p :: (ps ++ positives confirmValue rest.flatten) := by
  rw [List.flatten_cons, positives_append, h, List.cons_append]

theorem iequals_quest_eq_false (hp : p.Concrete) (j : Fin n) :
    iequals (p.attribute j) quest = false :=
  Bool.eq_false_iff.mpr fun h => (hp j).2 (iequals_quest.mp h)

variable {block : List (Row n)} {rest : List (List (Row n))}

/-- The merged `s` of an attribute in which the positive rows agree is right
exactly when the first positive rows of the splits spell it alike. -/
theorem merge_s_of_agree (hpositive : ∀ b ∈ block :: rest, positives confirmValue b ≠ [])
    (hp : p.Concrete) (h : positives confirmValue block = p :: ps)
    (hagree : AgreeAt confirmValue (block :: rest).flatten j) :
    iequals
        (merge quest ((learned confirmValue block).s j)
          (rest.map fun b => (learned confirmValue b).s j))
        (p.attribute j) = true ↔
      ∀ b ∈ block :: rest, ∀ q ∈ (positives confirmValue b).head?,
        q.attribute j = p.attribute j := by
  set f := fun b => (learned confirmValue b).s j with hf
  have hs : ∀ b ∈ block :: rest, ∀ q qs, positives confirmValue b = q :: qs →
      f b = q.attribute j := by
    intro b hb q qs hq
    simp only [hf, learned_s hq, if_pos (hagree.block hb)]
  have hfirst : f block = p.attribute j := hs block (List.mem_cons_self ..) p ps h
  have hmerge := merge_map_eq_iff f block rest (hp j).2
  constructor
  · intro hsame b hb q hq
    have hne : merge quest (f block) (rest.map f) ≠ quest := by
      intro hquest
      rw [hquest, iequals_comm, iequals_quest_eq_false hp] at hsame
      cases hsame
    obtain ⟨qs, hqs⟩ := List.head?_eq_some_iff.mp hq
    rw [← hs b hb q qs hqs]
    exact hmerge.mp ((merge_map_of_ne f hne).trans hfirst) b hb
  · intro hspell
    rw [hmerge.mpr]
    · exact iequals_refl _
    · intro b hb
      obtain ⟨q, qs, hq⟩ := List.exists_cons_of_ne_nil (hpositive b hb)
      rw [hs b hb q qs hq]
      exact hspell b hb q (by rw [hq]; rfl)

/-- A family of values that are proper only where a block agrees, and are then
the value of its first positive row, falls back when the blocks disagree. -/
theorem merge_eq_quest_of_disagree {f : List (Row n) → Text}
    (hf : ∀ w, w ≠ quest → (∀ b ∈ block :: rest, f b = w) → ∀ b ∈ block :: rest,
      AgreeAt confirmValue b j ∧ ∀ q ∈ (positives confirmValue b).head?, q.attribute j = w)
    (hdisagree : ¬ AgreeAt confirmValue (block :: rest).flatten j) :
    merge quest (f block) (rest.map f) = quest := by
  apply (merge_map_eq_fallback_iff f block rest).mpr
  intro w hw
  by_contra hall
  push Not at hall
  have hcommon := hf w hw hall
  exact hdisagree (agreeAt_flatten (fun b hb => (hcommon b hb).1) fun b hb => (hcommon b hb).2)

/-- The merged `s` of an attribute in which the positive rows disagree is right. -/
theorem merge_s_of_disagree (hpositive : ∀ b ∈ block :: rest, positives confirmValue b ≠ [])
    (hdisagree : ¬ AgreeAt confirmValue (block :: rest).flatten j) :
    merge quest ((learned confirmValue block).s j)
      (rest.map fun b => (learned confirmValue b).s j) = quest := by
  refine merge_eq_quest_of_disagree (f := fun b => (learned confirmValue b).s j) ?_ hdisagree
  intro w hw hall b hb
  obtain ⟨q, qs, hq⟩ := List.exists_cons_of_ne_nil (hpositive b hb)
  have hb' := hall b hb
  rw [learned_s hq] at hb'
  split_ifs at hb' with hagree
  · refine ⟨hagree, ?_⟩
    intro q' hq'
    rw [hq] at hq'
    cases hq'
    exact hb'
  · exact absurd hb'.symm hw

/-- The merged `g` of an attribute in which the positive rows agree and are
spelled alike is right when a negative row refutes it, or when all splits or
none of them have a negative row. -/
theorem merge_g_of_agree (hpositive : ∀ b ∈ block :: rest, positives confirmValue b ≠ [])
    (hp : p.Concrete) (h : positives confirmValue block = p :: ps)
    (hagree : AgreeAt confirmValue (block :: rest).flatten j)
    (hspell : ∀ b ∈ block :: rest, ∀ q ∈ (positives confirmValue b).head?,
      q.attribute j = p.attribute j) :
    iequals
        (merge quest ((learned confirmValue block).g j)
          (rest.map fun b => (learned confirmValue b).g j))
        ((learned confirmValue (block :: rest).flatten).g j) = true ↔
      RefutedAt confirmValue (block :: rest).flatten j ∨
        (∀ b ∈ block :: rest, negatives confirmValue b = []) ∨
          ∀ b ∈ block :: rest, negatives confirmValue b ≠ [] := by
  set f := fun b => (learned confirmValue b).g j with hf
  have hg : ∀ b ∈ block :: rest, f b =
      if RefutedAt confirmValue b j then quest
      else if negatives confirmValue b = [] then star else p.attribute j := by
    intro b hb
    obtain ⟨q, qs, hq⟩ := List.exists_cons_of_ne_nil (hpositive b hb)
    have hqp : q.attribute j = p.attribute j := hspell b hb q (by rw [hq]; rfl)
    simp only [hf, learned_g hq, hqp, hagree.block hb, true_and, ite_not]
  have hflat : (learned confirmValue (block :: rest).flatten).g j =
      if RefutedAt confirmValue (block :: rest).flatten j then quest
      else if ∀ b ∈ block :: rest, negatives confirmValue b = [] then star else p.attribute j := by
    rw [learned_g (positives_flatten_cons rest h)]
    simp only [hagree, true_and, ite_not, negatives_flatten_eq_nil]
  rw [hflat]
  by_cases hrefuted : RefutedAt confirmValue (block :: rest).flatten j
  · obtain ⟨b, hb, hrefutedb⟩ := (refutedAt_flatten hpositive hagree).mp hrefuted
    have hquest : f b = quest := by rw [hg b hb, if_pos hrefutedb]
    rw [merge_map_of_eq_fallback f hb hquest, if_pos hrefuted]
    exact iff_of_true (iequals_refl _) (Or.inl hrefuted)
  · have hclear : ∀ b ∈ block :: rest, ¬ RefutedAt confirmValue b j := fun b hb hb' =>
      hrefuted ((refutedAt_flatten hpositive hagree).mpr ⟨b, hb, hb'⟩)
    have hmerge := merge_map_two_values (f := f)
      (P := fun b => negatives confirmValue b = []) (by decide : star ≠ quest)
      (hp j).2 (Ne.symm (hp j).1) fun b hb => by
        rw [hg b hb, if_neg (hclear b hb)]
    rw [hmerge, if_neg hrefuted]
    by_cases hnone : ∀ b ∈ block :: rest, negatives confirmValue b = []
    · rw [if_pos hnone, if_pos hnone]
      exact iff_of_true (iequals_refl _) (Or.inr (Or.inl hnone))
    · rw [if_neg hnone, if_neg hnone]
      by_cases hall : ∀ b ∈ block :: rest, negatives confirmValue b ≠ []
      · rw [if_pos hall]
        exact iff_of_true (iequals_refl _) (Or.inr (Or.inr hall))
      · rw [if_neg hall, iequals_comm, iequals_quest_eq_false hp]
        apply iff_of_false Bool.false_ne_true
        rintro (hrefuted' | hnone' | hall')
        · exact hrefuted hrefuted'
        · exact hnone hnone'
        · exact hall hall'

/-- Without negative rows and disagreements every split leaves `g` unset. -/
theorem merge_g_eq_star (hpositive : ∀ b ∈ block :: rest, positives confirmValue b ≠ [])
    (hnegative : ∀ b ∈ block :: rest, negatives confirmValue b = [])
    (hagree : ∀ b ∈ block :: rest, AgreeAt confirmValue b j) :
    merge quest ((learned confirmValue block).g j)
      (rest.map fun b => (learned confirmValue b).g j) = star := by
  apply (merge_map_eq_iff (fun b => (learned confirmValue b).g j) block rest (by decide)).mpr
  intro b hb
  obtain ⟨q, qs, hq⟩ := List.exists_cons_of_ne_nil (hpositive b hb)
  have hrefuted : ¬ RefutedAt confirmValue b j := by
    rintro ⟨_, _, x, hx, _⟩
    rw [hnegative b hb] at hx
    cases hx
  simp only [learned_g hq, hagree b hb, hrefuted, hnegative b hb, not_false_eq_true, and_self,
    if_true]

/-- A proper value of `g` comes from positive rows that agree. -/
theorem learned_g_proper {w : Text} (hw : w ≠ quest) (hq : positives confirmValue rows = p :: ps)
    (hg : (learned confirmValue rows).g j = w) :
    AgreeAt confirmValue rows j ∧
      (if negatives confirmValue rows = [] then star else p.attribute j) = w := by
  rw [learned_g hq] at hg
  by_cases hkept : AgreeAt confirmValue rows j ∧ ¬ RefutedAt confirmValue rows j
  · rw [if_pos hkept] at hg
    exact ⟨hkept.1, hg⟩
  · rw [if_neg hkept] at hg
    exact absurd hg.symm hw

/-- A split with a negative row does not leave `g` unset, so that no value is common to
splits whose positive rows disagree. -/
theorem merge_g_eq_quest_of_negative
    (hpositive : ∀ b ∈ block :: rest, positives confirmValue b ≠ [])
    (hconcrete : ∀ b ∈ block :: rest, ∀ p ∈ positives confirmValue b, p.Concrete)
    (hdisagree : ¬ AgreeAt confirmValue (block :: rest).flatten j)
    {c : List (Row n)} (hc : c ∈ block :: rest) (hnegative : negatives confirmValue c ≠ []) :
    merge quest ((learned confirmValue block).g j)
      (rest.map fun b => (learned confirmValue b).g j) = quest := by
  refine merge_eq_quest_of_disagree (f := fun b => (learned confirmValue b).g j) ?_ hdisagree
  intro w hw hall
  have hwstar : w ≠ star := by
    obtain ⟨q, qs, hq⟩ := List.exists_cons_of_ne_nil (hpositive c hc)
    have hqc : q ∈ positives confirmValue c := hq ▸ List.mem_cons_self ..
    rw [← (learned_g_proper hw hq (hall c hc)).2, if_neg hnegative]
    exact (hconcrete c hc q hqc j).1
  intro b hb
  obtain ⟨q, qs, hq⟩ := List.exists_cons_of_ne_nil (hpositive b hb)
  obtain ⟨hagree, hvalue⟩ := learned_g_proper hw hq (hall b hb)
  refine ⟨hagree, ?_⟩
  intro q' hq'
  rw [hq] at hq'
  cases hq'
  split_ifs at hvalue
  · exact absurd hvalue.symm hwstar
  · exact hvalue

/-- The merged `g` of an attribute in which the positive rows disagree is right
when there is a negative row or a split that sees the disagreement. -/
theorem merge_g_of_disagree (hpositive : ∀ b ∈ block :: rest, positives confirmValue b ≠ [])
    (hconcrete : ∀ b ∈ block :: rest, ∀ p ∈ positives confirmValue b, p.Concrete)
    (hdisagree : ¬ AgreeAt confirmValue (block :: rest).flatten j) :
    iequals
        (merge quest ((learned confirmValue block).g j)
          (rest.map fun b => (learned confirmValue b).g j)) quest = true ↔
      (∃ b ∈ block :: rest, negatives confirmValue b ≠ []) ∨
        ∃ b ∈ block :: rest, ¬ AgreeAt confirmValue b j := by
  constructor
  · intro hsame
    by_contra hnone
    push Not at hnone
    obtain ⟨hnegative, hagree⟩ := hnone
    rw [merge_g_eq_star hpositive hnegative hagree] at hsame
    exact absurd (iequals_quest.mp hsame) (by decide)
  · rintro (⟨c, hc, hnegative⟩ | ⟨c, hc, hagree⟩)
    · rw [merge_g_eq_quest_of_negative hpositive hconcrete hdisagree hc hnegative]
      exact iequals_refl _
    · obtain ⟨q, qs, hq⟩ := List.exists_cons_of_ne_nil (hpositive c hc)
      have hquest : (learned confirmValue c).g j = quest := by
        simp only [learned_g hq, hagree, false_and, if_false]
      rw [merge_map_of_eq_fallback (fun b => (learned confirmValue b).g j) hc hquest]
      exact iequals_refl _

/-- An attribute of the merged vectors is right exactly when it merges right. -/
theorem mergesAt_iff (hpositive : ∀ b ∈ block :: rest, positives confirmValue b ≠ [])
    (hconcrete : ∀ b ∈ block :: rest, ∀ p ∈ positives confirmValue b, p.Concrete) :
    (iequals
        (merge quest ((learned confirmValue block).s j)
          (rest.map fun b => (learned confirmValue b).s j))
        ((learned confirmValue (block :: rest).flatten).s j) = true ∧
      iequals
        (merge quest ((learned confirmValue block).g j)
          (rest.map fun b => (learned confirmValue b).g j))
        ((learned confirmValue (block :: rest).flatten).g j) = true) ↔
      MergesAt confirmValue (block :: rest) j := by
  have hblock : block ∈ block :: rest := List.mem_cons_self ..
  obtain ⟨p, ps, h⟩ := List.exists_cons_of_ne_nil (hpositive block hblock)
  have hp : p.Concrete := hconcrete block hblock p (h ▸ List.mem_cons_self ..)
  have hhead : p ∈ (positives confirmValue block).head? := by rw [h]; rfl
  have hflat := positives_flatten_cons rest h
  by_cases hagree : AgreeAt confirmValue (block :: rest).flatten j
  · have hs : (learned confirmValue (block :: rest).flatten).s j = p.attribute j := by
      rw [learned_s hflat, if_pos hagree]
    rw [hs, merge_s_of_agree hpositive hp h hagree]
    constructor
    · rintro ⟨hspell, hg⟩
      refine ⟨?_, fun _ => (merge_g_of_agree hpositive hp h hagree hspell).mp hg,
        fun hdisagree => absurd hagree hdisagree⟩
      intro _ b hb c hc q hq r hr
      exact (hspell b hb q hq).trans (hspell c hc r hr).symm
    · intro hmerges
      have hspell : ∀ b ∈ block :: rest, ∀ q ∈ (positives confirmValue b).head?,
          q.attribute j = p.attribute j :=
        fun b hb q hq => hmerges.spelling hagree b hb block hblock q hq p hhead
      exact ⟨hspell,
        (merge_g_of_agree hpositive hp h hagree hspell).mpr (hmerges.general hagree)⟩
  · have hs : (learned confirmValue (block :: rest).flatten).s j = quest := by
      rw [learned_s hflat, if_neg hagree]
    have hg : (learned confirmValue (block :: rest).flatten).g j = quest := by
      rw [learned_g hflat, if_neg fun h => hagree h.1]
    rw [hs, hg, merge_s_of_disagree hpositive hagree,
      merge_g_of_disagree hpositive hconcrete hagree]
    constructor
    · rintro ⟨_, hvaried⟩
      exact ⟨fun h => absurd h hagree, fun h => absurd h hagree, fun _ => hvaried⟩
    · intro hmerges
      exact ⟨iequals_refl _, hmerges.varied hagree⟩

/-- A split without a positive row takes one from the sum. -/
theorem sum_totalPositives (blocks : List (List (Row n))) :
    (blocks.map fun b => (learned confirmValue b).totalPositives).sum =
      (positives confirmValue blocks.flatten).length -
        blocks.countP fun b => positives confirmValue b = [] := by
  induction blocks with
  | nil => rfl
  | cons block rest ih =>
    rw [List.map_cons, List.sum_cons, ih, List.countP_cons, List.flatten_cons,
      positives_append, List.length_append, learned]
    cases positives confirmValue block with
    | nil =>
      simp
      ring
    | cons p ps =>
      simp
      ring

theorem sum_totalNegatives {blocks : List (List (Row n))}
    (hpositive : ∀ b ∈ blocks, positives confirmValue b ≠ []) :
    (blocks.map fun b => (learned confirmValue b).totalNegatives).sum =
      (negatives confirmValue blocks.flatten).length := by
  induction blocks with
  | nil => rfl
  | cons block rest ih =>
    have hblock := (learned_totals (hpositive block (List.mem_cons_self ..))).2
    rw [List.map_cons, List.sum_cons, ih fun b hb => hpositive b (List.mem_cons_of_mem _ hb),
      hblock, List.flatten_cons, negatives_append, List.length_append, Nat.cast_add]

/-- With more than one split, the totals of positive rows agree only when every
split has one. -/
theorem positives_ne_nil_of_totals {blocks : List (List (Row n))} (hlength : blocks.length ≠ 1)
    (h : (blocks.map fun b => (learned confirmValue b).totalPositives).sum =
      (learned confirmValue blocks.flatten).totalPositives) :
    ∀ b ∈ blocks, positives confirmValue b ≠ [] := by
  rw [sum_totalPositives] at h
  cases hflat : positives confirmValue blocks.flatten with
  | nil =>
    have hall : blocks.countP (fun b => positives confirmValue b = []) = blocks.length := by
      apply List.countP_eq_length.mpr
      intro b hb
      have hb' : positives confirmValue b = [] := by
        apply List.eq_nil_iff_forall_not_mem.mpr
        intro p hp
        have hmem := mem_positives_flatten.mpr ⟨b, hb, hp⟩
        rw [hflat] at hmem
        cases hmem
      simpa using hb'
    rw [hall, learned, hflat, List.length_nil] at h
    dsimp only at h
    omega
  | cons p ps =>
    have hnone : blocks.countP (fun b => positives confirmValue b = []) = 0 := by
      rw [learned, hflat] at h
      dsimp only at h
      omega
    intro b hb hb'
    exact List.countP_eq_zero.mp hnone b hb (by simpa using hb')

/-- What `aggrigateResults` makes of splits that all have a positive row. -/
def mergedResult (confirmValue : Text) (block : List (Row n)) (rest : List (List (Row n))) :
    CeFinalize n where
  totalPositves := ((block :: rest).map fun b => (learned confirmValue b).totalPositives).sum
  totalNegatives := ((block :: rest).map fun b => (learned confirmValue b).totalNegatives).sum
  s := fun j => merge quest ((learned confirmValue block).s j)
    (rest.map fun b => (learned confirmValue b).s j)
  g := fun j => merge quest ((learned confirmValue block).g j)
    (rest.map fun b => (learned confirmValue b).g j)

theorem aggrigateResults_learned (hn : 0 < n)
    (hpositive : ∀ b ∈ block :: rest, positives confirmValue b ≠ [])
    (hconcrete : ∀ b ∈ block :: rest, ∀ p ∈ positives confirmValue b, p.Concrete) :
    aggrigateResults ((block :: rest).map (learned confirmValue)) =
      some (mergedResult confirmValue block rest) := by
  have hblock : block ∈ block :: rest := List.mem_cons_self ..
  obtain ⟨p, ps, h⟩ := List.exists_cons_of_ne_nil (hpositive block hblock)
  have hp : p.Concrete := hconcrete block hblock p (h ▸ List.mem_cons_self ..)
  have hset : (learned confirmValue block).s ⟨0, hn⟩ ≠ star := by
    rw [learned_s h]
    split_ifs
    · exact (hp _).1
    · decide
  rw [List.map_cons, aggrigateResults_cons hn hset]
  simp only [List.map_map, mergedResult, List.map_cons, List.sum_cons]
  rfl

/-- The result of all rows at once. -/
def sequentialResult (confirmValue : Text) (rows : List (Row n)) : CeFinalize n :=
  let res := learned confirmValue rows
  ⟨res.totalPositives, res.totalNegatives, res.s, res.g⟩

theorem sameResult_iff (hpositive : ∀ b ∈ block :: rest, positives confirmValue b ≠ [])
    (hconcrete : ∀ b ∈ block :: rest, ∀ p ∈ positives confirmValue b, p.Concrete) :
    (mergedResult confirmValue block rest).SameResult
        (sequentialResult confirmValue (block :: rest).flatten) ↔
      ∀ j, MergesAt confirmValue (block :: rest) j := by
  constructor
  · intro h j
    exact (mergesAt_iff hpositive hconcrete).mp ⟨h.s j, h.g j⟩
  · intro h
    obtain ⟨p, ps, hp⟩ := List.exists_cons_of_ne_nil (hpositive block (List.mem_cons_self ..))
    have hflat : positives confirmValue (block :: rest).flatten ≠ [] := by
      rw [positives_flatten_cons rest hp]
      exact nofun
    obtain ⟨hpositives, hnegatives⟩ := learned_totals hflat
    refine ⟨fun j => ((mergesAt_iff hpositive hconcrete).mpr (h j)).1,
      fun j => ((mergesAt_iff hpositive hconcrete).mpr (h j)).2, ?_, ?_⟩
    · have hnone : (block :: rest).countP (fun b => positives confirmValue b = []) = 0 := by
        apply List.countP_eq_zero.mpr
        intro b hb
        simpa using hpositive b hb
      simp only [mergedResult, sequentialResult]
      rw [sum_totalPositives, hnone, hpositives, Nat.cast_zero, sub_zero]
    · simp only [mergedResult, sequentialResult]
      rw [sum_totalNegatives hpositive, hnegatives]

/-- The merge of the splits gives the result of all rows at once exactly when
there is one split or the splits merge safely. -/
theorem aggrigateResults_iff {blocks : List (List (Row n))} (hblocks : blocks ≠ [])
    (hconcrete : ∀ b ∈ blocks, ∀ p ∈ positives confirmValue b, p.Concrete) :
    (∃ a b, aggrigateResults (blocks.map (learned confirmValue)) = some a ∧
        aggrigateResults [learned confirmValue blocks.flatten] = some b ∧ a.SameResult b) ↔
      0 < n ∧ (blocks.length = 1 ∨ MergeSafe confirmValue blocks) := by
  obtain ⟨block, rest, rfl⟩ := List.exists_cons_of_ne_nil hblocks
  constructor
  · rintro ⟨a, b, ha, hb, hsame⟩
    have hn : 0 < n := pos_of_aggrigateResults hb
    refine ⟨hn, ?_⟩
    by_cases hlength : (block :: rest).length = 1
    · exact Or.inl hlength
    · right
      rw [aggrigateResults_singleton hn] at hb
      cases hb
      have htotals := (aggrigateLoop_totals ha).1
      rw [hsame.totalPositves, List.map_map, zero_add] at htotals
      have hpositive := positives_ne_nil_of_totals hlength htotals.symm
      rw [aggrigateResults_learned hn hpositive hconcrete] at ha
      cases ha
      exact ⟨hpositive, (sameResult_iff hpositive hconcrete).mp hsame⟩
  · rintro ⟨hn, hlength | ⟨hpositive, hmerges⟩⟩
    · obtain rfl : rest = [] := List.eq_nil_of_length_eq_zero (by simpa using hlength)
      have hone := aggrigateResults_singleton hn (learned confirmValue block)
      exact ⟨_, _, hone, by simpa using hone, SameResult.refl _⟩
    · exact ⟨_, _, aggrigateResults_learned hn hpositive hconcrete,
        aggrigateResults_singleton hn _, (sameResult_iff hpositive hconcrete).mpr hmerges⟩

end Merge

section Runs

variable {n : ℕ} {disk : Disk} {tableId confirmValue : Text} {rows totalThreads : ℕ}

theorem splits_eq (n : ℕ) (lines : List Text) (rows totalThreads : ℕ) :
    splits n lines rows totalThreads =
      (splitBlocks rows totalThreads).map fun b => readRows n lines b.1 b.2 := by
  rw [splits, splitRanges_eq, List.map_map]
  apply List.map_congr_left
  intro b _
  have hlength : ((b.1 : ℤ) + b.2 - 1 + 1 - b.1).toNat = b.2 := by omega
  simp only [Function.comp_apply, Int.toNat_natCast, hlength]

/-- Together the splits have the rows of the table. -/
theorem flatten_splits (n : ℕ) (lines : List Text) (rows totalThreads : ℕ) :
    (splits n lines rows totalThreads).flatten = readRows n lines 1 rows := by
  rw [splits_eq, ← List.flatMap_def, readRows, ← splitBlocks_cover rows totalThreads,
    List.filterMap_flatMap]
  rfl

theorem length_splits (lines : List Text) (hT : 1 ≤ totalThreads) :
    (splits n lines rows totalThreads).length = totalThreads := by
  rw [splits, List.length_map, AlgoState.length_splitRanges rows hT]

theorem splits_one (lines : List Text) : splits n lines rows 1 = [readRows n lines 1 rows] := by
  simp [splits_eq, splitBlocks]

theorem PlainCells.concrete (h : PlainCells disk tableId rows) {row : Row n}
    (hrow : row ∈ readRows n (fileLines disk tableId) 1 rows) : row.Concrete := by
  obtain ⟨r, hr, hat⟩ := List.mem_filterMap.mp hrow
  obtain ⟨hr1, hr2⟩ := List.mem_range'_1.mp hr
  obtain ⟨line, hline, hsized⟩ := Option.bind_eq_some_iff.mp hat
  intro j
  exact h r (by omega) hr1 line hline _
    (List.mem_of_getElem? (sizedRow_eq_some hsized j.castSucc))

variable [BoostIequals]

/-- Each split runs to `JOB_DONE` and exports what its rows say. -/
theorem split_runs (hpresent : rows < (fileLines disk tableId).length)
    (hconcrete : ∀ p ∈ positives confirmValue (readRows n (fileLines disk tableId) 1 rows),
      p.Concrete)
    {b : ℕ × ℕ} (hb : b ∈ splitBlocks rows totalThreads) :
    ∃ final, (CandidateElimination.new n disk tableId confirmValue
        ((b.1 : ℤ), (b.1 : ℤ) + b.2 - 1)).RunsTo final ∧
      final.candidateEliminationEnd =
        learned confirmValue (readRows n (fileLines disk tableId) b.1 b.2) := by
  have hle := splitBlocks_le hb
  apply runsTo_learned confirmValue b.1 b.2 (by omega)
  intro p hp
  apply hconcrete p
  rw [← flatten_splits n _ rows totalThreads, splits_eq]
  exact mem_positives_flatten.mpr ⟨_, List.mem_map_of_mem hb, hp⟩

/-- The exports of the splits are what their rows say. -/
theorem computes_iff {result : CeFinalize n}
    (hpresent : rows < (fileLines disk tableId).length)
    (hconcrete : ∀ p ∈ positives confirmValue (readRows n (fileLines disk tableId) 1 rows),
      p.Concrete) :
    Computes n disk tableId confirmValue rows totalThreads result ↔
      aggrigateResults
        ((splits n (fileLines disk tableId) rows totalThreads).map (learned confirmValue)) =
          some result := by
  have hruns : ∀ b ∈ splitBlocks rows totalThreads, _ := fun b hb =>
    split_runs hpresent hconcrete hb
  simp only [Computes, splitRanges_eq, splits_eq, List.map_map, List.forall₂_map_left_iff]
  constructor
  · rintro ⟨finals, hfinals, haggrigate⟩
    rw [Loop.map_ends hruns hfinals] at haggrigate
    exact haggrigate
  · intro haggrigate
    obtain ⟨finals, hfinals⟩ := Loop.exists_ends hruns
    refine ⟨finals, hfinals, ?_⟩
    rw [Loop.map_ends hruns hfinals]
    exact haggrigate

/-- The splits and a single split compute the same result exactly when there is
an attribute, and the splits merge safely or there is one split. -/
theorem parallelAgrees_iff (hT : 1 ≤ totalThreads)
    (hpresent : rows < (fileLines disk tableId).length)
    (hcells : PlainCells disk tableId rows) :
    ParallelAgrees n disk tableId confirmValue rows totalThreads ↔
      0 < n ∧ (totalThreads = 1 ∨
        MergeSafe confirmValue (splits n (fileLines disk tableId) rows totalThreads)) := by
  have hconcrete : ∀ p ∈ positives confirmValue (readRows n (fileLines disk tableId) 1 rows),
      p.Concrete := fun p hp => hcells.concrete (List.mem_filter.mp hp).1
  have hlength : (splits n (fileLines disk tableId) rows totalThreads).length = totalThreads :=
    length_splits _ hT
  have hnonempty : splits n (fileLines disk tableId) rows totalThreads ≠ [] := by
    apply List.ne_nil_of_length_pos
    omega
  have hmerge := aggrigateResults_iff hnonempty fun b hb p hp => hconcrete p (by
    rw [← flatten_splits n _ rows totalThreads]
    exact mem_positives_flatten.mpr ⟨b, hb, hp⟩)
  rw [flatten_splits, hlength] at hmerge
  rw [← hmerge]
  simp only [ParallelAgrees, computes_iff hpresent hconcrete, splits_one, List.map_singleton]

end Runs

/-- Two splits with a positive and a negative row each. -/
theorem parallelAgrees_twoSplits :
    ParallelAgrees 1
      (diskOf ['t'] [['h', ',', 't'], ['a', ',', 'y'], ['b', ',', 'n'], ['a', ',', 'Y'],
        ['c', ',', 'n']]) ['t'] ['y'] 4 2 :=
  (parallelAgrees_iff (by decide) (by decide) (by decide)).mpr (by decide)

/-- The second split has no positive row: its export takes one from the positive
rows and forgets the negative row. -/
theorem not_parallelAgrees_split_without_positive :
    ¬ ParallelAgrees 1 (diskOf ['t'] [['h', ',', 't'], ['a', ',', 'y'], ['b', ',', 'n']])
      ['t'] ['y'] 2 2 := by
  rintro ⟨a, b, ha, hb, hsame⟩
  have hconcrete : ∀ p ∈ positives ['y'] (readRows 1 (fileLines
      (diskOf ['t'] [['h', ',', 't'], ['a', ',', 'y'], ['b', ',', 'n']]) ['t']) 1 2),
      p.Concrete := by decide
  rw [computes_iff (by decide) hconcrete] at ha hb
  have ha0 : ∀ result ∈ aggrigateResults ((splits 1 (fileLines
      (diskOf ['t'] [['h', ',', 't'], ['a', ',', 'y'], ['b', ',', 'n']]) ['t']) 2 2).map
      (learned ['y'])), result.totalPositves = 0 := by decide
  have hb1 : ∀ result ∈ aggrigateResults ((splits 1 (fileLines
      (diskOf ['t'] [['h', ',', 't'], ['a', ',', 'y'], ['b', ',', 'n']]) ['t']) 2 1).map
      (learned ['y'])), result.totalPositves = 1 := by decide
  have htotals := hsame.totalPositves
  rw [ha0 a ha, hb1 b hb] at htotals
  cases htotals

end WorkerUnit
