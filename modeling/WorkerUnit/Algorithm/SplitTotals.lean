import WorkerUnit.Algorithm.ParallelSplits

/-!
# The totals of the splits

A split with a positive row counts it twice and takes one off at the export. A
split without one stops at its first call, and the export takes one off all the
same. Whatever the cells say, the sums are right when no split is of this kind.
-/

namespace WorkerUnit

open CandidateElimination CeFinalize

/-- The splits run to `JOB_DONE`, and the totals of their aggregation are the
numbers of positive and of negative rows of the table. -/
def CountsRight [BoostIequals] (n : ℕ) (disk : Disk) (tableId confirmValue : Text)
    (rows totalThreads : ℕ) : Prop :=
  ∃ result, Computes n disk tableId confirmValue rows totalThreads result ∧
    result.totalPositves =
      (positives confirmValue (readRows n (fileLines disk tableId) 1 rows)).length ∧
    result.totalNegatives =
      (negatives confirmValue (readRows n (fileLines disk tableId) 1 rows)).length

section Totals

variable {n : ℕ} [BoostIequals] {disk : Disk} {tableId confirmValue : Text}
  {rows totalThreads : ℕ}

def exportedTotals (ce : CandidateElimination n) : ℤ × ℤ :=
  (ce.candidateEliminationEnd.totalPositives, ce.candidateEliminationEnd.totalNegatives)

def learnedTotals (confirmValue : Text) (rows : List (Row n)) : ℤ × ℤ :=
  ((learned confirmValue rows).totalPositives, (learned confirmValue rows).totalNegatives)

/-- Each split runs to `JOB_DONE` and exports the totals of its rows. -/
theorem split_totals (hpresent : rows < (fileLines disk tableId).length) {b : ℕ × ℕ}
    (hb : b ∈ splitBlocks rows totalThreads) :
    ∃ final, (CandidateElimination.new n disk tableId confirmValue
        ((b.1 : ℤ), (b.1 : ℤ) + b.2 - 1)).RunsTo final ∧
      exportedTotals final =
        learnedTotals confirmValue (readRows n (fileLines disk tableId) b.1 b.2) := by
  have hle := splitBlocks_le hb
  exact runsTo_totals confirmValue b.1 b.2 (by omega)

/-- The splits run to `JOB_DONE`. -/
theorem exists_split_runs (n : ℕ) (confirmValue : Text) (totalThreads : ℕ)
    (hpresent : rows < (fileLines disk tableId).length) :
    ∃ finals, List.Forall₂ (fun range final =>
        (CandidateElimination.new n disk tableId confirmValue range).RunsTo final)
      (splitRanges rows totalThreads) finals := by
  rw [splitRanges_eq]
  simp only [List.forall₂_map_left_iff]
  exact Loop.exists_ends fun _ hb => split_totals hpresent hb

/-- The aggregated totals are the sums over the splits. -/
theorem totals_of_runs (hpresent : rows < (fileLines disk tableId).length)
    {finals : List (CandidateElimination n)}
    (hfinals : List.Forall₂ (fun range final =>
        (CandidateElimination.new n disk tableId confirmValue range).RunsTo final)
      (splitRanges rows totalThreads) finals) {result : CeFinalize n}
    (h : aggrigateResults (finals.map (·.candidateEliminationEnd)) = some result) :
    result.totalPositves = ((splits n (fileLines disk tableId) rows totalThreads).map
        fun b => (learned confirmValue b).totalPositives).sum ∧
      result.totalNegatives = ((splits n (fileLines disk tableId) rows totalThreads).map
        fun b => (learned confirmValue b).totalNegatives).sum := by
  rw [splitRanges_eq, List.forall₂_map_left_iff] at hfinals
  have htotals := Loop.map_ends (fun _ hb => split_totals hpresent hb) hfinals
  obtain ⟨hpos, hneg⟩ := aggrigateLoop_totals h
  have hpositives := congrArg (List.map Prod.fst) htotals
  have hnegatives := congrArg (List.map Prod.snd) htotals
  simp only [List.map_map] at hpos hneg hpositives hnegatives
  rw [zero_add] at hpos hneg
  rw [hpos, hneg, splits_eq, List.map_map, List.map_map]
  exact ⟨congrArg List.sum hpositives, congrArg List.sum hnegatives⟩

/-- The sum of the positive totals is right when each split has a positive row. -/
theorem sum_totalPositives_eq_iff (confirmValue : Text) (blocks : List (List (Row n))) :
    (blocks.map fun b => (learned confirmValue b).totalPositives).sum =
        (positives confirmValue blocks.flatten).length ↔
      ∀ b ∈ blocks, positives confirmValue b ≠ [] := by
  rw [sum_totalPositives]
  constructor
  · intro h b hb hnil
    have hnone : blocks.countP (fun b => positives confirmValue b = []) = 0 := by omega
    exact List.countP_eq_zero.mp hnone b hb (by simpa using hnil)
  · intro h
    have hnone : blocks.countP (fun b => positives confirmValue b = []) = 0 :=
      List.countP_eq_zero.mpr fun b hb => by simpa using h b hb
    rw [hnone, Nat.cast_zero, sub_zero]

/-- The totals are right exactly when there is an attribute and every split has a
positive row. -/
theorem countsRight_iff (hT : 1 ≤ totalThreads)
    (hpresent : rows < (fileLines disk tableId).length) :
    CountsRight n disk tableId confirmValue rows totalThreads ↔
      0 < n ∧ ∀ block ∈ splits n (fileLines disk tableId) rows totalThreads,
        positives confirmValue block ≠ [] := by
  have hflatten := flatten_splits n (fileLines disk tableId) rows totalThreads
  have hsum := sum_totalPositives_eq_iff confirmValue
    (splits n (fileLines disk tableId) rows totalThreads)
  rw [hflatten] at hsum
  constructor
  · rintro ⟨result, ⟨finals, hfinals, haggrigate⟩, hpos, _⟩
    have htotal := (totals_of_runs hpresent hfinals haggrigate).1
    refine ⟨?_, hsum.mp (htotal.symm.trans hpos)⟩
    have hlength := hfinals.length_eq
    rw [AlgoState.length_splitRanges rows hT] at hlength
    obtain ⟨final, rest, rfl⟩ := List.exists_cons_of_length_pos (hlength ▸ hT)
    exact pos_of_aggrigateResults haggrigate
  · rintro ⟨hn, hpositive⟩
    obtain ⟨finals, hfinals⟩ := exists_split_runs n confirmValue totalThreads hpresent
    obtain ⟨result, hresult⟩ := aggrigateLoop_isSome hn ⟨0, 0, fun _ => [], fun _ => []⟩ false
      (finals.map (·.candidateEliminationEnd))
    obtain ⟨hpos, hneg⟩ := totals_of_runs hpresent hfinals hresult
    refine ⟨result, ⟨finals, hfinals, hresult⟩, hpos.trans (hsum.mpr hpositive), ?_⟩
    rw [hneg, sum_totalNegatives hpositive, hflatten]

end Totals

/-- Two splits with a positive row each, spelled like an unset value. -/
theorem countsRight_twoSplits :
    CountsRight 1 (diskOf ['t'] [['h', ',', 't'], ['*', ',', 'y'], ['x'], ['?', ',', 'Y'],
      ['b', ',', 'n']]) ['t'] ['y'] 4 2 :=
  (countsRight_iff (by decide) (by decide)).mpr (by decide)

/-- A single split with a negative row counts minus one positive rows and none
that is negative. -/
theorem not_countsRight_noPositive :
    ¬ CountsRight 1 (diskOf ['t'] [['h', ',', 't'], ['b', ',', 'n']]) ['t'] ['y'] 1 1 := by
  rintro ⟨result, ⟨finals, hfinals, haggrigate⟩, hpos, _⟩
  have htotal := (totals_of_runs (by decide) hfinals haggrigate).1
  exact absurd (htotal.symm.trans hpos) (by decide)

end WorkerUnit
