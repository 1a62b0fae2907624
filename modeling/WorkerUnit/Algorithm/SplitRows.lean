import WorkerUnit.Algorithm.AlgorithmScheduler
import WorkerUnit.Algorithm.CandidateElimination

/-!
# The rows that the splits walk through

A split takes its rows from `getNextRow` until a call gives a negative index. The
cursor is an `int` and is wrapped when it is stored, which shows only behind the
last row that an `int` can name; up to there it may be a plain number.
-/

namespace WorkerUnit

/-- What a 32-bit `int` holds of a number. -/
def wrapInt (i : ℤ) : ℤ := i.bmod (2 ^ 32)

theorem wrapInt_eq_self {i : ℤ} (hlow : -2 ^ 31 ≤ i) (hhigh : i < 2 ^ 31) : wrapInt i = i :=
  Int.bmod_eq_of_le (by omega) (by omega)

theorem wrapInt_natCast {i : ℕ} (hi : i < 2 ^ 31) : wrapInt i = i :=
  wrapInt_eq_self (by omega) (by omega)

theorem wrapInt_lt (i : ℤ) : wrapInt i < 2 ^ 31 := by
  have hlt := Int.bmod_lt (x := i) (m := 2 ^ 32) (by omega)
  rw [wrapInt]
  omega

/-- A sum of two nonnegative `int`s that is too large is stored as a negative one. -/
theorem wrapInt_over {i : ℤ} (hlow : 2 ^ 31 ≤ i) (hhigh : i < 2 ^ 32) :
    wrapInt i = i - 2 ^ 32 := by
  have hshift : (i - (2 ^ 32 : ℕ) * 1).bmod (2 ^ 32) = i.bmod (2 ^ 32) :=
    Int.sub_mul_bmod_self_left i (2 ^ 32) 1
  rw [wrapInt, ← hshift, Nat.cast_pow, Nat.cast_ofNat, mul_one]
  exact Int.bmod_eq_of_le (by omega) (by omega)

/-- Behind the largest `int` comes a negative one. -/
theorem wrapInt_max_neg : wrapInt (2 ^ 31 : ℕ) < 0 := by decide

namespace CandidateElimination

variable {n : ℕ} {ce : CandidateElimination n}

/-- One call of `getNextRow` by a split that collects the rows it is given. -/
def takeRow (w : CandidateElimination n × List ℤ) :
    Option (Bool × CandidateElimination n × List ℤ) :=
  let (rowIndex, ce) := w.1.getNextRow
  if rowIndex < 0 then some (true, ce, w.2)
  else some (false, { ce with start := wrapInt ce.start }, w.2 ++ [rowIndex])

/-- The calls of `getNextRow` up to a negative index give these rows. -/
def Walks (ce : CandidateElimination n) (rows : List ℤ) : Prop :=
  ∃ final, Loop.Ends takeRow id (ce, []) (final, rows)

theorem Walks.unique {rows other : List ℤ} (h : ce.Walks rows) (h' : ce.Walks other) :
    rows = other := by
  obtain ⟨final, hfinal⟩ := h
  obtain ⟨final', hfinal'⟩ := h'
  exact congrArg Prod.snd (hfinal.unique hfinal')

theorem getNextRow_of_le (h : ce.start ≤ ce.endRow) :
    ce.getNextRow = (ce.start, { ce with start := ce.start + 1 }) := if_pos h

theorem getNextRow_of_lt (h : ce.endRow < ce.start) : ce.getNextRow = (-1, ce) :=
  if_neg (not_le.mpr h)

/-- A cursor past the end of the split, or in front of row zero, ends the walk. -/
theorem takeRow_end (h : ce.endRow < ce.start ∨ ce.start < 0) (rows : List ℤ) :
    ∃ final, takeRow (ce, rows) = some (true, final, rows) := by
  by_cases hlt : ce.endRow < ce.start
  · exact ⟨ce, by simp [takeRow, getNextRow_of_lt hlt]⟩
  · have hneg : ce.start < 0 := h.resolve_left hlt
    exact ⟨{ ce with start := ce.start + 1 }, by
      simp [takeRow, getNextRow_of_le (not_lt.mp hlt), hneg]⟩

theorem takeRow_row {a : ℕ} (ha : ce.start = a) (hle : (a : ℤ) ≤ ce.endRow) (rows : List ℤ) :
    takeRow (ce, rows) =
      some (false, { ce with start := wrapInt (a + 1 : ℕ) }, rows ++ [(a : ℤ)]) := by
  have hnonneg : ¬ (a : ℤ) < 0 := by omega
  have hnext := getNextRow_of_le (ha.trans_le hle)
  simp [takeRow, hnext, ha, hnonneg]

/-- The cursor goes through `k` rows from row `a` on and stops. -/
theorem walk_rows (k a : ℕ) (ce : CandidateElimination n) (rows : List ℤ)
    (ha : ce.start = wrapInt a) (hend : ce.endRow = a + k - 1) (hbound : a + k ≤ 2 ^ 31) :
    ∃ final, Loop.run takeRow id (k + 1) (ce, rows) =
      some (final, rows ++ (List.range' a k).map Nat.cast) := by
  induction k generalizing ce a rows with
  | zero =>
    have hover : ce.endRow < ce.start ∨ ce.start < 0 := by
      rcases (show a ≤ 2 ^ 31 from hbound).lt_or_eq with hlt | hmax
      · rw [wrapInt_natCast hlt] at ha
        omega
      · rw [ha, hmax]
        exact .inr wrapInt_max_neg
    obtain ⟨final, hfinal⟩ := takeRow_end hover rows
    exact ⟨final, by simpa using Loop.run_of_stop hfinal rfl 0⟩
  | succ k ih =>
    rw [wrapInt_natCast (by omega)] at ha
    have hrow := takeRow_row ha (by omega) rows
    obtain ⟨final, hrun⟩ := ih (a + 1) { ce with start := wrapInt (a + 1 : ℕ) }
      (rows ++ [(a : ℤ)]) (by dsimp only) (by rw [hend]; push_cast; ring) (by omega)
    refine ⟨final, (Loop.run_of_continue hrow rfl (k + 1)).trans ?_⟩
    rw [hrun, List.range'_succ, List.map_cons, List.append_assoc, List.singleton_append]

/-- The cursor and the row behind the split are nonnegative `int`s. -/
structure InRange (ce : CandidateElimination n) : Prop where
  nonneg : 0 ≤ ce.start
  start_lt : ce.start < 2 ^ 31
  end_lt : ce.endRow + 1 < 2 ^ 31

theorem InRange.candidateEliminationStart [BoostIequals] {status : JobStatus}
    {ce' : CandidateElimination n} (h : ce.InRange)
    (hcall : ce.candidateEliminationStart = some (status, ce')) : ce'.InRange := by
  obtain ⟨_, hend, hfrom, hto⟩ := candidateEliminationStart_frame hcall
  exact ⟨h.nonneg.trans hfrom, hto.trans_lt (max_lt h.start_lt h.end_lt), hend ▸ h.end_lt⟩

theorem InRange.wrapInt_start (h : ce.InRange) : wrapInt ce.start = ce.start := by
  have hnonneg := h.nonneg
  exact wrapInt_eq_self (by omega) h.start_lt

end CandidateElimination

open CandidateElimination

/-- The split at `range` walks through these rows. -/
def SplitWalks (n : ℕ) (disk : Disk) (tableId confirmValue : Text) (range : ℤ × ℤ)
    (walk : List ℤ) : Prop :=
  (CandidateElimination.new n disk tableId confirmValue range).Walks walk

section Splits

variable {n : ℕ} {disk : Disk} {tableId confirmValue : Text} {rows totalThreads : ℕ}

theorem splitBlocks_start_le (hT : 1 ≤ totalThreads) {b : ℕ × ℕ}
    (hb : b ∈ splitBlocks rows totalThreads) : b.1 ≤ max 1 rows := by
  have hstart : ∀ i ≤ totalThreads - 1, rows / totalThreads * i + 1 ≤ max 1 rows := by
    intro i hi
    rcases Nat.eq_zero_or_pos (rows / totalThreads) with hzero | hpos
    · simp [hzero]
    · have hmul : rows / totalThreads * (i + 1) ≤ rows :=
        (Nat.mul_le_mul_left _ (by omega)).trans (Nat.div_mul_le_self rows totalThreads)
      rw [Nat.mul_succ] at hmul
      exact le_max_of_le_right (by omega)
  rcases List.mem_append.mp hb with hb | hb
  · obtain ⟨i, hi, rfl⟩ := List.mem_map.mp hb
    exact hstart i (List.mem_range.mp hi).le
  · rw [List.mem_singleton.mp hb]
    exact hstart _ le_rfl

theorem splitWalks_block (hT : 1 ≤ totalThreads) (hrows : rows < 2 ^ 31) {b : ℕ × ℕ}
    (hb : b ∈ splitBlocks rows totalThreads) :
    SplitWalks n disk tableId confirmValue ((b.1 : ℤ), (b.1 : ℤ) + b.2 - 1)
      ((List.range' b.1 b.2).map Nat.cast) := by
  have hstart := splitBlocks_start_le hT hb
  have hle := splitBlocks_le hb
  obtain ⟨final, hrun⟩ := walk_rows b.2 b.1
    (CandidateElimination.new n disk tableId confirmValue ((b.1 : ℤ), (b.1 : ℤ) + b.2 - 1)) []
    (wrapInt_natCast (by omega)).symm rfl (by omega)
  exact ⟨final, b.2 + 1, hrun⟩

/-- The rows of the splits, in the order of the splits. -/
def splitWalks (rows totalThreads : ℕ) : List (List ℤ) :=
  (splitBlocks rows totalThreads).map fun b => (List.range' b.1 b.2).map Nat.cast

/-- The splits walk through the rows of their blocks, and through no others. -/
theorem splitWalks_iff (hT : 1 ≤ totalThreads) (hrows : rows < 2 ^ 31) {walks : List (List ℤ)} :
    List.Forall₂ (SplitWalks n disk tableId confirmValue) (splitRanges rows totalThreads) walks ↔
      walks = splitWalks rows totalThreads := by
  have hwalk : ∀ b ∈ splitBlocks rows totalThreads, ∀ walk,
      SplitWalks n disk tableId confirmValue ((b.1 : ℤ), (b.1 : ℤ) + b.2 - 1) walk ↔
        walk = (List.range' b.1 b.2).map Nat.cast := by
    intro b hb walk
    have hblock : SplitWalks n disk tableId confirmValue ((b.1 : ℤ), (b.1 : ℤ) + b.2 - 1) _ :=
      splitWalks_block hT hrows hb
    exact ⟨fun h => h.unique hblock, fun h => h ▸ hblock⟩
  rw [splitRanges_eq, List.forall₂_map_left_iff, splitWalks]
  constructor
  · intro h
    have hvalues : List.Forall₂ (fun b walk => (List.range' b.1 b.2).map Nat.cast = walk)
        (splitBlocks rows totalThreads) walks :=
      ((List.forall₂_and_left _ _).mpr ⟨fun _ hb => hb, h⟩).imp fun b walk hbw =>
        ((hwalk b hbw.1 walk).mp hbw.2).symm
    rw [← List.forall₂_map_left_iff, List.forall₂_eq_eq_eq] at hvalues
    exact hvalues.symm
  · rintro rfl
    rw [List.forall₂_map_right_iff, List.forall₂_same]
    exact fun b hb => (hwalk b hb _).mpr rfl

theorem flatten_splitWalks (rows totalThreads : ℕ) :
    (splitWalks rows totalThreads).flatten = (List.range' 1 rows).map Nat.cast := by
  rw [← splitBlocks_cover rows totalThreads, List.map_flatMap, splitWalks, List.flatMap_def]

/-- The splits of `sched_algo` walk through each row from 1 to the last one once,
through nothing else, and no two splits through one row. -/
theorem splitWalks_partition (hT : 1 ≤ totalThreads) (hrows : rows < 2 ^ 31) :
    ∃ walks, (∀ other, List.Forall₂ (SplitWalks n disk tableId confirmValue)
        (splitRanges rows totalThreads) other ↔ other = walks) ∧
      walks.length = totalThreads ∧ walks.Pairwise List.Disjoint ∧
      walks.flatten = (List.range' 1 rows).map Nat.cast := by
  have hflatten := flatten_splitWalks rows totalThreads
  have hnodup : (splitWalks rows totalThreads).flatten.Nodup := by
    rw [hflatten]
    exact (List.nodup_range' 1).map Nat.cast_injective
  refine ⟨splitWalks rows totalThreads, fun _ => splitWalks_iff hT hrows, ?_,
    (List.nodup_flatten.mp hnodup).2, hflatten⟩
  simp only [splitWalks, splitBlocks, List.length_map, List.length_append, List.length_range,
    List.length_singleton]
  omega

/-- Until the last row is the last that an `int` can name, the cursor of a split needs no
wrapping at any call. -/
theorem wrapInt_start_of_visited [BoostIequals] (hT : 1 ≤ totalThreads)
    (hrows : rows + 1 < 2 ^ 31) {range : ℤ × ℤ} (hrange : range ∈ splitRanges rows totalThreads)
    (fuel : ℕ) {ce : CandidateElimination n}
    (hce : ce ∈ Loop.visited candidateEliminationStart (· = JobStatus.done) fuel
      (CandidateElimination.new n disk tableId confirmValue range)) :
    wrapInt ce.start = ce.start := by
  rw [splitRanges_eq] at hrange
  obtain ⟨b, hb, rfl⟩ := List.mem_map.mp hrange
  have hstart := splitBlocks_start_le hT hb
  have hle := splitBlocks_le hb
  have hnew : (CandidateElimination.new n disk tableId confirmValue
      ((b.1 : ℤ), (b.1 : ℤ) + b.2 - 1)).InRange := by
    refine ⟨Int.natCast_nonneg b.1, ?_, ?_⟩
    · dsimp only [CandidateElimination.new]
      omega
    · dsimp only [CandidateElimination.new]
      omega
  exact (Loop.visited_invariant (fun _ _ _ h => h.candidateEliminationStart) hnew fuel ce
    hce).wrapInt_start

/-- Three splits of two rows: the first two get none. -/
theorem splitWalks_partition_fewRows :
    ∃ walks, (∀ other, List.Forall₂ (SplitWalks 1 (fun _ => none) ['t'] ['y'])
        (splitRanges 2 3) other ↔ other = walks) ∧
      walks.length = 3 ∧ walks.Pairwise List.Disjoint ∧
      walks.flatten = (List.range' 1 2).map Nat.cast :=
  splitWalks_partition (by decide) (by decide)

end Splits

end WorkerUnit
