import Mathlib
import WorkerUnit.Algorithm.SplitRows
import WorkerUnit.DataProcessor.DataValidator

/-!
# The ranges of the validate phase

`schedule_validate_phase` gives the splits ranges that follow one another, so
they partition the rows exactly when the last one ends with the last row. The
end index grows by one more multiple each time, and passes the last row unless
there are few rows or few threads. The indices are of type `int`: behind the last
row that an `int` can name the end index goes on from the smallest one.
-/

namespace WorkerUnit

/-- The loop of `schedule_validate_phase` in its `int` variables. For the comparison
with `rows` the index is converted to an unsigned number. -/
def scheduleLoop (rows : ℕ) (multiplier startIndex endIndex : ℤ) : List ℕ → List (ℤ × ℤ)
  | [] => []
  | i :: is =>
    let next := wrapInt (endIndex + wrapInt (multiplier * i))
    (startIndex, endIndex) ::
      scheduleLoop rows multiplier (wrapInt (endIndex + 1))
        (if toSizeT (wrapInt (next + 1)) ≤ rows then wrapInt (next + 1) else next) is

/-- The pairs that `schedule_validate_phase` passes to `init_validate_data_phase`. -/
def scheduleValidatePhase (rows totalThreads : ℕ) : List (ℤ × ℤ) :=
  let multiplier := wrapInt (rows / totalThreads : ℕ)
  scheduleLoop rows multiplier 1 multiplier (List.range' 1 totalThreads)

def rowsOf (range : ℤ × ℤ) : Set ℤ := Set.Icc range.1 range.2

/-- The ranges are pairwise disjoint and have the rows `1` to `rows` and no others. -/
structure PartitionsRows (rows : ℕ) (ranges : List (ℤ × ℤ)) : Prop where
  disjoint : ranges.Pairwise fun a b => Disjoint (rowsOf a) (rowsOf b)
  within : ∀ range ∈ ranges, rowsOf range ⊆ Set.Icc 1 rows
  covers : ∀ r ∈ Set.Icc 1 (rows : ℤ), ∃ range ∈ ranges, r ∈ rowsOf range

/-- How the loop moves the end index on in round `i`. -/
def nextEnd (rows multiplier endIndex : ℤ) (i : ℕ) : ℤ :=
  if endIndex + multiplier * i + 1 ≤ rows then endIndex + multiplier * i + 1
  else endIndex + multiplier * i

/-- The last row in front of the `k`-th range. -/
def boundary (rows multiplier : ℤ) : ℕ → ℤ
  | 0 => 0
  | 1 => multiplier
  | k + 2 => nextEnd rows multiplier (boundary rows multiplier (k + 1)) (k + 1)

variable {rows totalThreads : ℕ} {multiplier : ℤ}

theorem validateLoop_eq (rows multiplier : ℤ) (m k : ℕ) :
    validateLoop rows multiplier (boundary rows multiplier k + 1)
        (boundary rows multiplier (k + 1)) (List.range' (k + 1) m) =
      (List.range' k m).map fun i =>
        (boundary rows multiplier i + 1, boundary rows multiplier (i + 1)) := by
  induction m generalizing k with
  | zero => rfl
  | succ m ih =>
    rw [List.range'_succ, List.range'_succ, validateLoop, List.map_cons, ← ih (k + 1)]
    rfl

/-- The ranges follow one another. -/
theorem validateRanges_eq (rows totalThreads : ℕ) :
    validateRanges rows totalThreads = (List.range totalThreads).map fun i =>
      (boundary rows (rows / totalThreads : ℕ) i + 1,
        boundary rows (rows / totalThreads : ℕ) (i + 1)) := by
  rw [List.range_eq_range', ← validateLoop_eq]
  rfl

theorem le_nextEnd (rows multiplier endIndex : ℤ) (i : ℕ) :
    endIndex + multiplier * i ≤ nextEnd rows multiplier endIndex i := by
  unfold nextEnd
  split_ifs <;> omega

theorem boundary_mono (rows : ℤ) (h : 0 ≤ multiplier) : Monotone (boundary rows multiplier) := by
  apply monotone_nat_of_le_succ
  intro k
  cases k with
  | zero => exact h
  | succ k =>
    have hnext := le_nextEnd rows multiplier (boundary rows multiplier (k + 1)) (k + 1)
    have hgrow : 0 ≤ multiplier * (k + 1 : ℕ) := by positivity
    exact (le_add_of_nonneg_right hgrow).trans hnext

/-- Ranges between the values of a monotone sequence reach from the first value to
the last. -/
theorem exists_mem_rowsOf_iff {b : ℕ → ℤ} (hb : Monotone b) (h0 : b 0 = 0) (m : ℕ) (r : ℤ) :
    (∃ range ∈ (List.range m).map fun i => (b i + 1, b (i + 1)), r ∈ rowsOf range) ↔
      1 ≤ r ∧ r ≤ b m := by
  have hunion := Set.ext_iff.mp (hb.biUnion_Ico_Ioc_map_succ 0 m) r
  simp only [Set.mem_iUnion, exists_prop, Set.mem_Ico, Set.mem_Ioc, h0, Nat.succ_eq_succ,
    Nat.zero_le, true_and, Nat.succ_eq_add_one] at hunion
  simp only [List.mem_map, List.mem_range, exists_exists_and_eq_and, rowsOf, Set.mem_Icc,
    Int.add_one_le_iff]
  exact hunion.trans (and_congr_left fun _ => Int.lt_iff_add_one_le)

theorem partitionsRows_map_iff {b : ℕ → ℤ} (hb : Monotone b) (h0 : b 0 = 0) (rows m : ℕ) :
    PartitionsRows rows ((List.range m).map fun i => (b i + 1, b (i + 1))) ↔ b m = rows := by
  have hmem := exists_mem_rowsOf_iff hb h0 m
  constructor
  · intro h
    have hpos : 0 ≤ b m := h0 ▸ hb (Nat.zero_le m)
    apply le_antisymm
    · by_contra hlt
      obtain ⟨range, hrange, hr⟩ := (hmem (b m)).mpr ⟨by omega, le_rfl⟩
      have hle := (h.within range hrange hr).2
      omega
    · by_contra hlt
      have hr := (hmem rows).mp (h.covers rows ⟨by omega, le_rfl⟩)
      omega
  · intro hm
    rw [hm] at hmem
    refine ⟨List.pairwise_map.mpr ?_, ?_, fun r hr => (hmem r).mpr hr⟩
    · refine List.pairwise_lt_range.imp fun {i j} hij => ?_
      rw [Set.disjoint_left]
      intro r hi hj
      have hle := hb (show i + 1 ≤ j from hij)
      have hri := hi.2
      have hrj := hj.1
      dsimp only at hri hrj
      omega
    · intro range hrange r hr
      exact (hmem r).mp ⟨range, hrange, hr⟩

/-- Without full multiples each split but the first gets one row, while there are rows. -/
theorem boundary_of_few (rows k : ℕ) : boundary rows 0 (k + 1) = min k rows := by
  induction k with
  | zero => simp [boundary]
  | succ k ih =>
    rw [boundary, nextEnd, ih, zero_mul, add_zero]
    split_ifs <;> omega

/-- From the fourth split on the end index is past the last row. -/
theorem le_boundary {rows : ℤ} (h : 1 ≤ multiplier) (hrows : 4 * multiplier ≤ rows) {k : ℕ}
    (hk : 3 ≤ k) : multiplier * (k + 1) + (k + 1) ≤ boundary rows multiplier (k + 1) := by
  induction k, hk using Nat.le_induction with
  | base =>
    have hsecond : boundary rows multiplier 2 = 2 * multiplier + 1 := by
      simp only [boundary, nextEnd]
      split_ifs <;> push_cast <;> omega
    have hthird : boundary rows multiplier 2 + multiplier * 2 ≤ boundary rows multiplier 3 :=
      le_nextEnd ..
    have hfourth : boundary rows multiplier 3 + multiplier * 3 ≤ boundary rows multiplier 4 :=
      le_nextEnd ..
    push_cast
    omega
  | succ k hk ih =>
    have hnext : boundary rows multiplier (k + 1) + multiplier * (k + 1 : ℕ) ≤
        boundary rows multiplier (k + 1 + 1) := le_nextEnd ..
    have hgrow : 1 ≤ multiplier * k := one_le_mul_of_one_le_of_one_le h (by omega)
    push_cast at hnext ⊢
    linarith

/-- With one thread or two the last range ends with the last row. -/
theorem boundary_of_le_two (hT : 1 ≤ totalThreads) (hle : totalThreads ≤ 2) :
    boundary rows (rows / totalThreads : ℕ) totalThreads = rows := by
  interval_cases totalThreads
  · simp [boundary]
  · simp only [boundary, nextEnd]
    split_ifs <;> push_cast <;> omega

theorem boundary_three_iff : boundary rows (rows / 3 : ℕ) 3 = rows ↔ rows < 3 ∨ rows = 5 := by
  simp only [boundary, nextEnd]
  push_cast
  split_ifs <;> omega

/-- With four threads or more, each of which gets a multiple, the last range ends
past the last row. -/
theorem boundary_ne_of_four_le (hT : 4 ≤ totalThreads) (hrows : totalThreads ≤ rows) :
    boundary rows (rows / totalThreads : ℕ) totalThreads ≠ rows := by
  obtain ⟨k, rfl⟩ : ∃ k, totalThreads = k + 1 := ⟨totalThreads - 1, by omega⟩
  have hmul : 1 ≤ rows / (k + 1) := Nat.div_pos hrows (Nat.succ_pos k)
  have hfour : 4 * (rows / (k + 1)) ≤ rows :=
    (Nat.mul_le_mul_right _ hT).trans (Nat.mul_div_le rows (k + 1))
  have hle : ((rows / (k + 1) : ℕ) : ℤ) * (k + 1) + (k + 1) ≤ boundary rows _ (k + 1) :=
    le_boundary (by exact_mod_cast hmul) (by exact_mod_cast hfour) (by omega)
  have hlt : (rows : ℤ) < (rows / (k + 1) : ℕ) * (k + 1) + (k + 1) := by
    have hnat : rows < rows / (k + 1) * (k + 1) + (k + 1) := Nat.lt_div_mul_add (Nat.succ_pos k)
    exact_mod_cast hnat
  exact (hlt.trans_le hle).ne'

/-- With unbounded indices the ranges partition the rows exactly when there are fewer
rows than threads, or at most two threads, or three threads and five rows. -/
theorem partitionsRows_validateRanges_iff (hT : 1 ≤ totalThreads) :
    PartitionsRows rows (validateRanges rows totalThreads) ↔
      rows < totalThreads ∨ totalThreads ≤ 2 ∨ (totalThreads = 3 ∧ rows = 5) := by
  rw [validateRanges_eq, partitionsRows_map_iff (boundary_mono _ (by positivity)) rfl]
  rcases lt_or_ge rows totalThreads with hfew | hrows
  · have hzero : rows / totalThreads = 0 := Nat.div_eq_of_lt hfew
    obtain ⟨k, rfl⟩ : ∃ k, totalThreads = k + 1 := ⟨totalThreads - 1, by omega⟩
    rw [hzero, Nat.cast_zero, boundary_of_few, min_eq_right (by omega)]
    exact iff_of_true rfl (.inl hfew)
  · rcases lt_or_ge totalThreads 4 with hlt | hfour
    · rcases (show totalThreads ≤ 2 ∨ totalThreads = 3 by omega) with hle | rfl
      · exact iff_of_true (boundary_of_le_two hT hle) (.inr (.inl hle))
      · rw [boundary_three_iff]
        omega
    · have hne := boundary_ne_of_four_le hfour hrows
      constructor
      · exact fun h => absurd h hne
      · omega

/-- How the loop moves the end index on in round `i`, as an `int`. -/
def intNextEnd (rows : ℕ) (multiplier endIndex : ℤ) (i : ℕ) : ℤ :=
  let next := wrapInt (endIndex + wrapInt (multiplier * i))
  if toSizeT (wrapInt (next + 1)) ≤ rows then wrapInt (next + 1) else next

/-- The end index of the `k`-th range, as an `int`. -/
def intBoundary (rows : ℕ) (multiplier : ℤ) : ℕ → ℤ
  | 0 => 0
  | 1 => multiplier
  | k + 2 => intNextEnd rows multiplier (intBoundary rows multiplier (k + 1)) (k + 1)

theorem scheduleLoop_eq (rows : ℕ) (multiplier : ℤ) (m k : ℕ) :
    scheduleLoop rows multiplier (wrapInt (intBoundary rows multiplier k + 1))
        (intBoundary rows multiplier (k + 1)) (List.range' (k + 1) m) =
      (List.range' k m).map fun i =>
        (wrapInt (intBoundary rows multiplier i + 1), intBoundary rows multiplier (i + 1)) := by
  induction m generalizing k with
  | zero => rfl
  | succ m ih =>
    rw [List.range'_succ, List.range'_succ, scheduleLoop, List.map_cons, ← ih (k + 1)]
    rfl

theorem scheduleValidatePhase_eq (rows totalThreads : ℕ) :
    scheduleValidatePhase rows totalThreads = (List.range totalThreads).map fun i =>
      (wrapInt (intBoundary rows (wrapInt (rows / totalThreads : ℕ)) i + 1),
        intBoundary rows (wrapInt (rows / totalThreads : ℕ)) (i + 1)) := by
  rw [List.range_eq_range', ← scheduleLoop_eq]
  rfl

section Ints

variable {endIndex : ℤ} {i k : ℕ}

/-- While the end index stays an `int` it moves on as a number does. -/
theorem intNextEnd_eq (hrows : rows < 2 ^ 31) (hend : 0 ≤ endIndex) (hgrow : 0 ≤ multiplier * i)
    (hfits : endIndex + multiplier * i < 2 ^ 31) :
    intNextEnd rows multiplier endIndex i = nextEnd rows multiplier endIndex i := by
  have hproduct : wrapInt (multiplier * i) = multiplier * i :=
    wrapInt_eq_self (by omega) (by omega)
  have hnext : wrapInt (endIndex + multiplier * i) = endIndex + multiplier * i :=
    wrapInt_eq_self (by omega) hfits
  simp only [intNextEnd, nextEnd, hproduct, hnext]
  have hnonneg : 0 ≤ endIndex + multiplier * i := by omega
  generalize endIndex + multiplier * i = next at hfits hnext hnonneg
  rcases (show next + 1 < 2 ^ 31 ∨ next + 1 = 2 ^ 31 by omega) with hlt | heq
  · rw [wrapInt_eq_self (by omega) hlt, toSizeT_of_nonneg (by omega)]
    exact if_congr (by omega) rfl rfl
  · have hover := wrapInt_over heq.ge (by omega)
    have hrow : ¬ toSizeT (wrapInt (next + 1)) ≤ rows :=
      (lt_toSizeT_of_neg (by omega) (by omega) (by omega)).not_ge
    rw [if_neg hrow, if_neg (by omega)]

/-- An end index that is too large is stored as a negative one, which no row follows. -/
theorem intNextEnd_over (hrows : rows < 2 ^ 31) (hend : endIndex < 2 ^ 31)
    (hgrow : 0 ≤ multiplier * i) (hproduct : multiplier * i < 2 ^ 31)
    (hover : 2 ^ 31 ≤ endIndex + multiplier * i) :
    intNextEnd rows multiplier endIndex i = endIndex + multiplier * i - 2 ^ 32 := by
  simp only [intNextEnd, wrapInt_eq_self (show -2 ^ 31 ≤ multiplier * i by omega) hproduct,
    wrapInt_over hover (by omega)]
  rw [wrapInt_eq_self (by omega) (by omega),
    if_neg (lt_toSizeT_of_neg (by omega) (by omega) (by omega)).not_ge]

theorem intBoundary_lt (rows : ℕ) (hmultiplier : multiplier < 2 ^ 31) (k : ℕ) :
    intBoundary rows multiplier k < 2 ^ 31 := by
  match k with
  | 0 => exact Int.pow_pos (by decide)
  | 1 => exact hmultiplier
  | k + 2 =>
    simp only [intBoundary, intNextEnd]
    split_ifs <;> exact wrapInt_lt _

theorem boundary_nonneg (rows : ℤ) (h : 0 ≤ multiplier) (k : ℕ) :
    0 ≤ boundary rows multiplier k :=
  boundary_mono rows h (Nat.zero_le k)

/-- The indices are the numbers as long as these stay below the last `int`. -/
theorem intBoundary_eq (hrows : rows < 2 ^ 31) (h : 0 ≤ multiplier)
    (hfits : boundary rows multiplier k < 2 ^ 31) :
    intBoundary rows multiplier k = boundary rows multiplier k := by
  induction k using boundary.induct with
  | case1 => rfl
  | case2 => rfl
  | case3 k ih =>
    have hle := le_nextEnd rows multiplier (boundary rows multiplier (k + 1)) (k + 1)
    have hgrow : 0 ≤ multiplier * (k + 1 : ℕ) := by positivity
    have hnonneg := boundary_nonneg rows h (k + 1)
    have hlt : boundary rows multiplier (k + 1) + multiplier * (k + 1 : ℕ) < 2 ^ 31 :=
      hle.trans_lt hfits
    rw [intBoundary, ih (by omega), intNextEnd_eq hrows hnonneg hgrow hlt]
    rfl

theorem boundary_lt_succ (rows : ℤ) (h : 1 ≤ multiplier) (k : ℕ) :
    boundary rows multiplier k < boundary rows multiplier (k + 1) := by
  cases k with
  | zero => exact h
  | succ k =>
    have hnext := le_nextEnd rows multiplier (boundary rows multiplier (k + 1)) (k + 1)
    have hgrow : 1 ≤ multiplier * (k + 1 : ℕ) := one_le_mul_of_one_le_of_one_le h (by omega)
    exact (lt_add_of_pos_right _ hgrow).trans_le hnext

/-- The first number behind the last `int` is stored as a negative index. -/
theorem intBoundary_over (hrows : rows < 2 ^ 31) (h : 0 ≤ multiplier)
    (hproduct : multiplier * (k + 1 : ℕ) < 2 ^ 31)
    (hlast : boundary rows multiplier (k + 1) < 2 ^ 31)
    (hover : 2 ^ 31 ≤ boundary rows multiplier (k + 2)) :
    -2 ^ 31 ≤ intBoundary rows multiplier (k + 2) ∧
      intBoundary rows multiplier (k + 2) < -1 := by
  have hgrow : 0 ≤ multiplier * (k + 1 : ℕ) := by positivity
  have hsum : 2 ^ 31 ≤ boundary rows multiplier (k + 1) + multiplier * (k + 1 : ℕ) := by
    simp only [boundary, nextEnd] at hover hlast ⊢
    split_ifs at hover <;> omega
  rw [intBoundary, intBoundary_eq hrows h hlast,
    intNextEnd_over hrows hlast hgrow hproduct hsum]
  omega

/-- The range behind a negative end index has a negative row. -/
theorem exists_neg_of_over (h : 1 ≤ multiplier)
    (hproduct : multiplier * (k + 1 : ℕ) < 2 ^ 31)
    (hlow : -2 ^ 31 ≤ intBoundary rows multiplier (k + 1))
    (hneg : intBoundary rows multiplier (k + 1) < -1) :
    intBoundary rows multiplier (k + 1) + 1 ∈
      rowsOf (wrapInt (intBoundary rows multiplier (k + 1) + 1),
        intBoundary rows multiplier (k + 2)) := by
  have hgrow : 1 ≤ multiplier * (k + 1 : ℕ) := one_le_mul_of_one_le_of_one_le h (by omega)
  rw [intBoundary, intNextEnd]
  generalize intBoundary rows multiplier (k + 1) = endIndex at hlow hneg
  generalize multiplier * (k + 1 : ℕ) = product at hproduct hgrow
  simp only [rowsOf, Set.mem_Icc, wrapInt_eq_self (show -2 ^ 31 ≤ product by omega) hproduct,
    wrapInt_eq_self (show -2 ^ 31 ≤ endIndex + product by omega) (by omega),
    wrapInt_eq_self (show -2 ^ 31 ≤ endIndex + 1 by omega) (by omega),
    wrapInt_eq_self (show -2 ^ 31 ≤ endIndex + product + 1 by omega) (by omega)]
  split_ifs <;> omega

/-- With full multiples for five splits or more the range in front of the last one ends
past the last row, if the last end index is no `int`. -/
theorem lt_boundary_pred (hk : 3 ≤ k) (hmul : 1 ≤ rows / (k + 2))
    (hover : 2 ^ 31 ≤ boundary rows (rows / (k + 2) : ℕ) (k + 2)) :
    (rows : ℤ) < boundary rows (rows / (k + 2) : ℕ) (k + 1) := by
  rcases hk.eq_or_lt with rfl | hk
  · simp only [boundary, nextEnd] at hover ⊢
    push_cast at hover ⊢
    split_ifs at hover ⊢ <;> omega
  · obtain ⟨j, rfl⟩ : ∃ j, k = j + 1 := ⟨k - 1, by omega⟩
    have hrows : rows < rows / (j + 1 + 2) * (j + 1 + 2) + (j + 1 + 2) :=
      Nat.lt_div_mul_add (by omega)
    have hfour : 4 * (rows / (j + 1 + 2)) ≤ rows :=
      (Nat.mul_le_mul_right _ (by omega)).trans (Nat.mul_div_le rows (j + 1 + 2))
    generalize rows / (j + 1 + 2) = m at hmul hrows hfour
    have hmultiplier : (1 : ℤ) ≤ m := by exact_mod_cast hmul
    have hall : 4 * (m : ℤ) ≤ rows := by exact_mod_cast hfour
    have hboundary := le_boundary hmultiplier hall (show 3 ≤ j by omega)
    have hnext : boundary rows m (j + 1) + m * (j + 1 : ℕ) ≤ boundary rows m (j + 1 + 1) :=
      le_nextEnd ..
    have hlarge : 1 * 2 ≤ m * (j - 1) := Nat.mul_le_mul hmul (by omega)
    zify [show 1 ≤ j by omega] at hrows hlarge
    push_cast at hnext
    linarith

/-- When only the last end index is no `int`, the ranges in front of it have all rows
for four splits that leave one row or two. -/
theorem boundary_pred_eq_iff (hrows : k + 2 ≤ rows)
    (hover : 2 ^ 31 ≤ boundary rows (rows / (k + 2) : ℕ) (k + 2)) (hint : rows < 2 ^ 31) :
    boundary rows (rows / (k + 2) : ℕ) (k + 1) = rows ↔
      k = 2 ∧ (rows % 4 = 1 ∨ rows % 4 = 2) := by
  rcases lt_or_ge k 3 with hlt | hk
  · interval_cases k
    · simp only [boundary] at hover ⊢
      refine iff_of_false ?_ (by omega)
      omega
    · refine iff_of_false (fun heq => ?_) (by omega)
      simp only [boundary, nextEnd] at hover heq
      push_cast at hover heq
      split_ifs at hover heq <;> omega
    · constructor
      · intro heq
        simp only [boundary, nextEnd] at hover heq
        push_cast at hover heq
        split_ifs at hover heq <;> omega
      · rintro ⟨-, hmod⟩
        simp only [boundary, nextEnd]
        push_cast
        split_ifs <;> omega
  · have hmul : 1 ≤ rows / (k + 2) := Nat.div_pos hrows (by omega)
    have hlt := lt_boundary_pred hk hmul hover
    omega

end Ints

/-- A range with no rows changes nothing. -/
theorem PartitionsRows.concat {ranges : List (ℤ × ℤ)} {range : ℤ × ℤ}
    (h : PartitionsRows rows ranges) (hempty : rowsOf range = ∅) :
    PartitionsRows rows (ranges ++ [range]) := by
  refine ⟨List.pairwise_append.mpr ⟨h.disjoint, List.pairwise_singleton .., ?_⟩, ?_, ?_⟩
  · simp [hempty]
  · intro other hother
    rcases List.mem_append.mp hother with hother | hother
    · exact h.within other hother
    · simp [List.mem_singleton.mp hother, hempty]
  · intro r hr
    obtain ⟨other, hother, hmem⟩ := h.covers r hr
    exact ⟨other, List.mem_append_left _ hother, hmem⟩

/-- The pairs are those of unbounded indices while the last one ends with an `int`. -/
theorem scheduleValidatePhase_eq_validateRanges (hrows : rows < 2 ^ 31)
    (hint : totalThreads < 2 ^ 31)
    (hfits : boundary rows (rows / totalThreads : ℕ) totalThreads < 2 ^ 31) :
    scheduleValidatePhase rows totalThreads = validateRanges rows totalThreads := by
  have hmul : rows / totalThreads < 2 ^ 31 := (Nat.div_le_self ..).trans_lt hrows
  have hmultiplier : (0 : ℤ) ≤ (rows / totalThreads : ℕ) := by positivity
  have hmono := boundary_mono rows hmultiplier
  rw [scheduleValidatePhase_eq, wrapInt_natCast hmul, validateRanges_eq]
  apply List.map_congr_left
  intro i hi
  have hi : i < totalThreads := List.mem_range.mp hi
  have hle := hmono (show i + 1 ≤ totalThreads from hi)
  have hstart : boundary rows (rows / totalThreads : ℕ) i + 1 < 2 ^ 31 := by
    rcases Nat.eq_zero_or_pos (rows / totalThreads) with hzero | hpos
    · cases i with
      | zero => simp [boundary]
      | succ i =>
        rw [hzero, Nat.cast_zero, boundary_of_few]
        omega
    · have hone : (1 : ℤ) ≤ (rows / totalThreads : ℕ) := by exact_mod_cast hpos
      have hlt := boundary_lt_succ rows hone i
      omega
  have hnonneg := boundary_nonneg rows hmultiplier i
  rw [intBoundary_eq hrows hmultiplier (by omega),
    intBoundary_eq hrows hmultiplier (by omega), wrapInt_eq_self (by omega) hstart]

/-- A multiple of the quotient is an `int` when the number of rows is. -/
theorem div_mul_lt (hrows : rows < 2 ^ 31) {i : ℕ} (hi : i ≤ totalThreads) :
    ((rows / totalThreads : ℕ) : ℤ) * (i : ℕ) < 2 ^ 31 := by
  have hle : rows / totalThreads * i ≤ rows :=
    (Nat.mul_le_mul_left _ hi).trans (Nat.div_mul_le_self rows totalThreads)
  exact_mod_cast hle.trans_lt hrows

/-- Behind an end index that is no `int` there is no range of rows. -/
theorem boundary_lt_of_partitionsRows (hrows : rows < 2 ^ 31) (hmul : 1 ≤ rows / totalThreads)
    (h : PartitionsRows rows (scheduleValidatePhase rows totalThreads)) (j : ℕ)
    (hj : j < totalThreads) : boundary rows (rows / totalThreads : ℕ) j < 2 ^ 31 := by
  have hint : rows / totalThreads < 2 ^ 31 := (Nat.div_le_self ..).trans_lt hrows
  have hmultiplier : (1 : ℤ) ≤ (rows / totalThreads : ℕ) := by exact_mod_cast hmul
  induction j using boundary.induct with
  | case1 => simp [boundary]
  | case2 =>
    rw [boundary]
    exact_mod_cast hint
  | case3 k ih =>
    by_contra hover
    obtain ⟨hlow, hneg⟩ := intBoundary_over hrows (by omega) (div_mul_lt hrows (by omega))
      (ih (by omega)) (not_lt.mp hover)
    have hmem := exists_neg_of_over hmultiplier (div_mul_lt hrows hj.le) hlow hneg
    have hrange := List.mem_map_of_mem (f := fun i =>
      (wrapInt (intBoundary rows (rows / totalThreads : ℕ) i + 1),
        intBoundary rows (rows / totalThreads : ℕ) (i + 1))) (List.mem_range.mpr hj)
    rw [scheduleValidatePhase_eq, wrapInt_natCast hint] at h
    have hwithin : 1 ≤ intBoundary rows (rows / totalThreads : ℕ) (k + 2) + 1 :=
      (h.within _ hrange hmem).1
    omega

/-- The pairs are those of unbounded indices in front of the last one. -/
theorem scheduleValidatePhase_of_pred {k : ℕ} (hrows : rows < 2 ^ 31)
    (hmul : 1 ≤ rows / (k + 2)) (hlt : boundary rows (rows / (k + 2) : ℕ) (k + 1) < 2 ^ 31) :
    scheduleValidatePhase rows (k + 2) =
      ((List.range (k + 1)).map fun i => (boundary rows (rows / (k + 2) : ℕ) i + 1,
        boundary rows (rows / (k + 2) : ℕ) (i + 1))) ++
      [(wrapInt (boundary rows (rows / (k + 2) : ℕ) (k + 1) + 1),
        intBoundary rows (rows / (k + 2) : ℕ) (k + 2))] := by
  have hint : rows / (k + 2) < 2 ^ 31 := (Nat.div_le_self ..).trans_lt hrows
  have hmultiplier : (1 : ℤ) ≤ (rows / (k + 2) : ℕ) := by exact_mod_cast hmul
  have hmono := boundary_mono rows (show (0 : ℤ) ≤ (rows / (k + 2) : ℕ) by omega)
  have hends : ∀ i ≤ k + 1,
      intBoundary rows (rows / (k + 2) : ℕ) i = boundary rows (rows / (k + 2) : ℕ) i :=
    fun i hi => intBoundary_eq hrows (by positivity) ((hmono hi).trans_lt hlt)
  rw [scheduleValidatePhase_eq, wrapInt_natCast hint, List.range_succ, List.map_append,
    List.map_singleton, hends (k + 1) le_rfl]
  congr 1
  apply List.map_congr_left
  intro i hi
  have hi : i < k + 1 := List.mem_range.mp hi
  have hnonneg := boundary_nonneg rows (show (0 : ℤ) ≤ (rows / (k + 2) : ℕ) by omega) i
  have hnext := boundary_lt_succ rows hmultiplier i
  have hle := hmono (show i + 1 ≤ k + 1 by omega)
  rw [hends i (by omega), hends (i + 1) (by omega), wrapInt_eq_self (by omega) (by omega)]

/-- When only the last end index is no `int`, the ranges partition the rows exactly when
those in front of the last one end with the last row. -/
theorem partitionsRows_over_iff {k : ℕ} (hrows : rows < 2 ^ 31) (hmul : 1 ≤ rows / (k + 2))
    (hover : 2 ^ 31 ≤ boundary rows (rows / (k + 2) : ℕ) (k + 2)) :
    PartitionsRows rows (scheduleValidatePhase rows (k + 2)) ↔
      boundary rows (rows / (k + 2) : ℕ) (k + 1) = rows := by
  have hmultiplier : (1 : ℤ) ≤ (rows / (k + 2) : ℕ) := by exact_mod_cast hmul
  have hzero : (0 : ℤ) ≤ (rows / (k + 2) : ℕ) := by positivity
  have hmono := boundary_mono rows hzero
  have hneg : boundary rows (rows / (k + 2) : ℕ) (k + 1) < 2 ^ 31 →
      intBoundary rows (rows / (k + 2) : ℕ) (k + 2) < -1 := fun hlt =>
    (intBoundary_over hrows hzero (div_mul_lt hrows (by omega)) hlt hover).2
  constructor
  · intro h
    have hlt := boundary_lt_of_partitionsRows hrows hmul h (k + 1) (by omega)
    have hlast := hneg hlt
    rw [scheduleValidatePhase_of_pred hrows hmul hlt] at h
    have hmem := exists_mem_rowsOf_iff hmono rfl (k + 1)
    have hpos := boundary_nonneg rows hzero k
    have hgrow := boundary_lt_succ rows hmultiplier k
    apply le_antisymm
    · obtain ⟨range, hrange, hr⟩ := (hmem _).mpr ⟨by omega, le_rfl⟩
      exact (h.within range (List.mem_append_left _ hrange) hr).2
    · by_contra hless
      obtain ⟨range, hrange, hr⟩ := h.covers rows ⟨by omega, le_rfl⟩
      rcases List.mem_append.mp hrange with hrange | hrange
      · exact hless ((hmem rows).mp ⟨range, hrange, hr⟩).2
      · rw [List.mem_singleton.mp hrange] at hr
        have hend := hr.2
        dsimp only at hend
        omega
  · intro heq
    have hlt : boundary rows (rows / (k + 2) : ℕ) (k + 1) < 2 ^ 31 := by omega
    have hlast := hneg hlt
    have hfew : k + 2 ≤ rows := (Nat.div_pos_iff.mp hmul).2
    obtain ⟨-, hmod⟩ := (boundary_pred_eq_iff hfew hover hrows).mp heq
    rw [scheduleValidatePhase_of_pred hrows hmul hlt]
    apply ((partitionsRows_map_iff hmono rfl rows (k + 1)).mpr heq).concat
    rw [heq, wrapInt_eq_self (by omega) (by omega), rowsOf]
    exact Set.Icc_eq_empty (by dsimp only; omega)

/-- The pairs of `schedule_validate_phase` partition the rows exactly when `int`s name
all rows and there are fewer rows than threads, or at most two threads, or three threads
and five rows, or four threads whose first three splits have all the rows while the end
of the last one is no `int`. -/
theorem partitionsRows_iff (hT : 1 ≤ totalThreads) (hint : totalThreads < 2 ^ 31) :
    PartitionsRows rows (scheduleValidatePhase rows totalThreads) ↔
      rows < 2 ^ 31 ∧ (rows < totalThreads ∨ totalThreads ≤ 2 ∨
        (totalThreads = 3 ∧ rows = 5) ∨
        (totalThreads = 4 ∧ (rows % 4 = 1 ∨ rows % 4 = 2) ∧
          2 ^ 31 ≤ rows + 3 * (rows / 4))) := by
  rcases lt_or_ge rows (2 ^ 31) with hrows | hlarge
  · rcases lt_or_ge (boundary rows (rows / totalThreads : ℕ) totalThreads) (2 ^ 31) with
      hfits | hover
    · rw [scheduleValidatePhase_eq_validateRanges hrows hint hfits,
        partitionsRows_validateRanges_iff hT]
      have hfour : totalThreads = 4 → ¬ 2 ^ 31 ≤ rows + 3 * (rows / 4) ∨
          ¬ (rows % 4 = 1 ∨ rows % 4 = 2) := by
        rintro rfl
        by_contra hnot
        simp only [boundary, nextEnd] at hfits
        push_cast at hfits
        split_ifs at hfits <;> omega
      tauto
    · obtain ⟨k, rfl⟩ : ∃ k, totalThreads = k + 2 := by
        refine ⟨totalThreads - 2, ?_⟩
        by_contra hone
        obtain rfl : totalThreads = 1 := by omega
        rw [boundary_of_le_two le_rfl (by decide)] at hover
        omega
      have hmul : 1 ≤ rows / (k + 2) := by
        refine Nat.pos_of_ne_zero fun hzero => ?_
        rw [hzero, Nat.cast_zero, boundary_of_few] at hover
        omega
      have hfew : k + 2 ≤ rows := (Nat.div_pos_iff.mp hmul).2
      rw [partitionsRows_over_iff hrows hmul hover, boundary_pred_eq_iff hfew hover hrows]
      constructor
      · rintro ⟨rfl, hmod⟩
        refine ⟨hrows, .inr (.inr (.inr ⟨rfl, hmod, ?_⟩))⟩
        simp only [boundary, nextEnd] at hover
        push_cast at hover
        split_ifs at hover <;> omega
      · rintro ⟨-, hless | htwo | ⟨hthree, rfl⟩ | ⟨hfour, hmod, -⟩⟩
        · omega
        · rw [boundary_of_le_two hT htwo] at hover
          omega
        · obtain rfl : k = 1 := by omega
          rw [boundary_three_iff.mpr (.inr rfl)] at hover
          omega
        · exact ⟨by omega, hmod⟩
  · refine iff_of_false (fun h => ?_) (by omega)
    obtain ⟨range, hrange, hr⟩ := h.covers rows ⟨by omega, le_rfl⟩
    rw [scheduleValidatePhase_eq] at hrange
    obtain ⟨i, -, rfl⟩ := List.mem_map.mp hrange
    have hend := hr.2
    have hlt := intBoundary_lt rows (wrapInt_lt (rows / totalThreads : ℕ)) (i + 1)
    dsimp only at hend
    omega

/-- Two splits, the second with the odd row. -/
theorem partitionsRows_twoSplits : PartitionsRows 5 (scheduleValidatePhase 5 2) :=
  (partitionsRows_iff (by decide) (by decide)).mpr (by decide)

/-- Three splits of three rows: the third has the rows four and five. -/
theorem not_partitionsRows_threeSplits :
    ¬ ∀ rows totalThreads : ℕ, 1 ≤ totalThreads → totalThreads < 2 ^ 31 →
      PartitionsRows rows (scheduleValidatePhase rows totalThreads) := by
  intro h
  have hwithin := (h 3 3 (by decide) (by decide)).within (4, 5) (by decide)
  have hle : (4 : ℤ) ≤ (3 : ℕ) := (hwithin (show (4 : ℤ) ∈ rowsOf (4, 5) by simp [rowsOf])).2
  omega

end WorkerUnit
