import WorkerUnit.Algorithm.ParallelSplits

/-!
# The closed form of a split

What a split exports is determined by its first positive row and by which rows
fit it. Up to letter case the first positive row does not matter, so neither
does the order of the rows.
-/

namespace WorkerUnit

open CandidateElimination

section Exports

variable {n : ℕ} [BoostIequals] {confirmValue : Text} {rows rows' : List (Row n)} {p : Row n}
  {j : Fin n}

/-- The export of a split with these rows, of which `p` is the first positive one. -/
structure ClosedForm (confirmValue : Text) (p : Row n) (rows : List (Row n))
    (res : CeResultExportObject n) : Prop where
  s : ∀ j, res.s j =
    if ∀ q ∈ positives confirmValue rows, iequals (p.attribute j) (q.attribute j)
    then p.attribute j else quest
  g : ∀ j, res.g j =
    if (∃ q ∈ positives confirmValue rows, ¬ iequals (p.attribute j) (q.attribute j)) ∨
      ∃ x ∈ negatives confirmValue rows, iequals (p.attribute j) (x.attribute j)
    then quest
    else if negatives confirmValue rows ≠ [] then p.attribute j else star
  totalPositives : res.totalPositives = (positives confirmValue rows).length
  totalNegatives : res.totalNegatives = (negatives confirmValue rows).length

/-- Two exports are the same up to letter case. -/
structure CeResultExportObject.SameUpToCase (a b : CeResultExportObject n) : Prop where
  s : ∀ j, iequals (a.s j) (b.s j)
  g : ∀ j, iequals (a.g j) (b.g j)
  totalPositives : a.totalPositives = b.totalPositives
  totalNegatives : a.totalNegatives = b.totalNegatives

theorem disagrees_or_refuted_iff :
    ((∃ q ∈ positives confirmValue rows, ¬ iequals (p.attribute j) (q.attribute j)) ∨
      ∃ x ∈ negatives confirmValue rows, iequals (p.attribute j) (x.attribute j)) ↔
      ¬ (FitsAt confirmValue p rows j ∧ ClearAt confirmValue p rows j) := by
  simp only [FitsAt, ClearAt, not_and_or, not_forall, exists_prop, not_not]

/-- What a split has learned is the closed form. -/
theorem closedForm_learned (h : p ∈ (positives confirmValue rows).head?) :
    ClosedForm confirmValue p rows (learned confirmValue rows) := by
  obtain ⟨ps, hps⟩ : ∃ ps, positives confirmValue rows = p :: ps :=
    List.head?_eq_some_iff.mp h
  have hlearned : learned confirmValue rows = ⟨(positives confirmValue rows).length,
      (negatives confirmValue rows).length, learnedS confirmValue p rows,
      learnedG confirmValue p rows⟩ := by
    rw [learned, hps]
  rw [hlearned]
  refine ⟨fun j => rfl, fun j => ?_, rfl, rfl⟩
  simp only [learnedG, disagrees_or_refuted_iff, ite_not]

section Order

/-- The positive rows of permuted rows agree alike. -/
theorem agreeAt_perm (h : rows.Perm rows') (j : Fin n) :
    AgreeAt confirmValue rows j ↔ AgreeAt confirmValue rows' j := by
  have hmem : ∀ x, x ∈ positives confirmValue rows ↔ x ∈ positives confirmValue rows' :=
    fun _ => (h.filter _).mem_iff
  simp only [AgreeAt, hmem]

theorem refutedAt_perm (h : rows.Perm rows') (j : Fin n) :
    RefutedAt confirmValue rows j ↔ RefutedAt confirmValue rows' j := by
  have hpositive : ∀ x, x ∈ positives confirmValue rows ↔ x ∈ positives confirmValue rows' :=
    fun _ => (h.filter _).mem_iff
  have hnegative : ∀ x, x ∈ negatives confirmValue rows ↔ x ∈ negatives confirmValue rows' :=
    fun _ => (h.filter _).mem_iff
  simp only [RefutedAt, hpositive, hnegative]

/-- The order of the rows changes at most the letter case. -/
theorem learned_perm (h : rows.Perm rows') (hpositive : positives confirmValue rows ≠ []) :
    (learned confirmValue rows).SameUpToCase (learned confirmValue rows') := by
  have hpositives : (positives confirmValue rows).Perm (positives confirmValue rows') := h.filter _
  have hnegatives : (negatives confirmValue rows).Perm (negatives confirmValue rows') := h.filter _
  obtain ⟨p, ps, hp⟩ := List.exists_cons_of_ne_nil hpositive
  have hpositive' : positives confirmValue rows' ≠ [] := fun hnil =>
    hpositive (hpositives.trans (.of_eq hnil)).eq_nil
  obtain ⟨q, qs, hq⟩ := List.exists_cons_of_ne_nil hpositive'
  have hpmem : p ∈ positives confirmValue rows := hp ▸ List.mem_cons_self ..
  have hqmem : q ∈ positives confirmValue rows :=
    hpositives.mem_iff.mpr (hq ▸ List.mem_cons_self ..)
  obtain ⟨hposTotal, hnegTotal⟩ := learned_totals hpositive
  obtain ⟨hposTotal', hnegTotal'⟩ := learned_totals hpositive'
  constructor
  · intro j
    simp only [learned_s hp, learned_s hq, ← agreeAt_perm h j]
    split_ifs with hagree
    · exact hagree p hpmem q hqmem
    · exact iequals_refl quest
  · intro j
    have hnil : negatives confirmValue rows' = [] ↔ negatives confirmValue rows = [] :=
      ⟨fun he => (hnegatives.trans (.of_eq he)).eq_nil,
        fun he => (hnegatives.symm.trans (.of_eq he)).eq_nil⟩
    simp only [learned_g hp, learned_g hq, ← agreeAt_perm h j, ← refutedAt_perm h j, hnil]
    split_ifs with hlearned hnone
    · exact iequals_refl star
    · exact hlearned.1 p hpmem q hqmem
    · exact iequals_refl quest
  · rw [hposTotal, hposTotal', hpositives.length_eq]
  · rw [hnegTotal, hnegTotal', hnegatives.length_eq]

end Order

section Runs

variable {disk : Disk} {tableId : Text} {a k : ℕ}

/-- The range from row `a` on of `k` rows is in the file, and has these rows of
the right size, none with a cell like an unset or a general value. -/
structure PlainRange (disk : Disk) (tableId : Text) (a k : ℕ) (rows : List (Row n)) : Prop where
  inFile : a + k ≤ (fileLines disk tableId).length
  read : readRows n (fileLines disk tableId) a k = rows
  concrete : ∀ row ∈ rows, row.Concrete

theorem PlainRange.runsTo (h : PlainRange disk tableId a k rows) (confirmValue : Text) :
    ∃ final, (∀ other, (CandidateElimination.new n disk tableId confirmValue
        (a, a + k - 1)).RunsTo other ↔ other = final) ∧
      final.candidateEliminationEnd = learned confirmValue rows := by
  obtain ⟨final, hfinal, hexport⟩ := runsTo_learned confirmValue a k h.inFile fun p hp =>
    h.concrete p (by
      rw [← h.read]
      exact (List.mem_filter.mp hp).1)
  rw [h.read] at hexport
  exact ⟨final, fun other => ⟨fun ho => ho.unique hfinal, fun ho => ho ▸ hfinal⟩, hexport⟩

/-- A split of plain rows, one of them positive, runs to `JOB_DONE` and exports
the closed form, and a split of the same rows in another order exports the same
up to letter case. -/
theorem split_closedForm (h : PlainRange disk tableId a k rows)
    (hp : p ∈ (positives confirmValue rows).head?) :
    ∃ final, (∀ other, (CandidateElimination.new n disk tableId confirmValue
        (a, a + k - 1)).RunsTo other ↔ other = final) ∧
      ClosedForm confirmValue p rows final.candidateEliminationEnd ∧
      ∀ disk' tableId' a' k', ∀ rows' : List (Row n), PlainRange disk' tableId' a' k' rows' →
        rows.Perm rows' → ∀ final', (CandidateElimination.new n disk' tableId' confirmValue
          (a', a' + k' - 1)).RunsTo final' →
        final.candidateEliminationEnd.SameUpToCase final'.candidateEliminationEnd := by
  obtain ⟨final, hruns, hexport⟩ := h.runsTo confirmValue
  refine ⟨final, hruns, hexport ▸ closedForm_learned hp, ?_⟩
  intro disk' tableId' a' k' rows' h' hperm final' hfinal'
  obtain ⟨other, hother, hexport'⟩ := h'.runsTo confirmValue
  rw [hexport, (hother final').mp hfinal', hexport']
  exact learned_perm hperm (List.ne_nil_of_mem (List.mem_of_mem_head? hp))

end Runs

end Exports

/-- A positive row between two negative ones, the second of which refutes it. -/
theorem split_closedForm_threeRows :
    ∃ final, (CandidateElimination.new 1 (diskOf ['t'] [['h', ',', 't'], ['b', ',', 'n'],
        ['a', ',', 'y'], ['A', ',', 'n']]) ['t'] ['y'] (1, 3)).RunsTo final ∧
      ClosedForm ['y'] ![['a'], ['y']]
        [![['b'], ['n']], ![['a'], ['y']], ![['A'], ['n']]] final.candidateEliminationEnd := by
  have hrange : PlainRange (diskOf ['t'] [['h', ',', 't'], ['b', ',', 'n'], ['a', ',', 'y'],
      ['A', ',', 'n']]) ['t'] 1 3 [![['b'], ['n']], ![['a'], ['y']], (![['A'], ['n']] : Row 1)] :=
    ⟨by decide, by decide, by decide⟩
  have hfirst : (![['a'], ['y']] : Row 1) ∈ (positives ['y']
      [![['b'], ['n']], ![['a'], ['y']], ![['A'], ['n']]]).head? := by decide
  obtain ⟨final, hruns, hclosed, _⟩ := split_closedForm hrange hfirst
  exact ⟨final, (hruns final).mpr rfl, hclosed⟩

end WorkerUnit
