import WorkerUnit.Algorithm.AlgorithmScheduler
import WorkerUnit.Algorithm.CandidateElimination
import WorkerUnit.Library.Unanimous

/-!
# Aggregating the results of the splits

`algorithm/ce_finalize.cpp`. The results come in the order of the splits. Until
a result whose `s` has been set has been taken over, each result replaces the
one before it; from then on `s` and `g` are merged entry by entry.
-/

namespace WorkerUnit

open Unanimous

/-- Before the first result the vectors are empty. -/
structure CeFinalize (n : ℕ) where
  totalPositves : ℤ
  totalNegatives : ℤ
  s : Fin n → Text
  g : Fin n → Text
  deriving DecidableEq

namespace CeFinalize

variable {n : ℕ}

/-- The loop of `aggrigateResults`; `s[0]` of an empty vector is no value. -/
def aggrigateLoop (acc : CeFinalize n) (start : Bool) :
    List (CeResultExportObject n) → Option (CeFinalize n)
  | [] => some acc
  | res :: rest =>
    let acc := { acc with
      totalPositves := acc.totalPositves + res.totalPositives
      totalNegatives := acc.totalNegatives + res.totalNegatives }
    if start = false then
      if h : 0 < n then
        aggrigateLoop { acc with s := res.s, g := res.g } (decide (res.s ⟨0, h⟩ ≠ star)) rest
      else none
    else
      aggrigateLoop
        { acc with
          s := fun j => if res.s j ≠ acc.s j then quest else acc.s j
          g := fun j => if res.g j ≠ acc.g j then quest else acc.g j } true rest

def aggrigateResults (results : List (CeResultExportObject n)) : Option (CeFinalize n) :=
  aggrigateLoop ⟨0, 0, fun _ => [], fun _ => []⟩ false results

/-- Two results are the same up to letter case. -/
structure SameResult [BoostIequals] (a b : CeFinalize n) : Prop where
  s : ∀ j, iequals (a.s j) (b.s j) = true
  g : ∀ j, iequals (a.g j) (b.g j) = true
  totalPositves : a.totalPositves = b.totalPositves
  totalNegatives : a.totalNegatives = b.totalNegatives

variable {acc result : CeFinalize n} {res : CeResultExportObject n}
  {results rest : List (CeResultExportObject n)}

/-- Whatever the vectors do, the totals are sums. -/
theorem aggrigateLoop_totals {start : Bool} (h : aggrigateLoop acc start results = some result) :
    result.totalPositves = acc.totalPositves + (results.map (·.totalPositives)).sum ∧
      result.totalNegatives = acc.totalNegatives + (results.map (·.totalNegatives)).sum := by
  induction results generalizing acc start with
  | nil =>
    cases h
    simp
  | cons res rest ih =>
    unfold aggrigateLoop at h
    dsimp only at h
    split_ifs at h with hstart hn
    · obtain ⟨hp, hneg⟩ := ih h
      simp only [List.map_cons, List.sum_cons, hp, hneg]
      omega
    · obtain ⟨hp, hneg⟩ := ih h
      simp only [List.map_cons, List.sum_cons, hp, hneg]
      omega

/-- With an attribute there is a first entry to look at in every result. -/
theorem aggrigateLoop_isSome (hn : 0 < n) (acc : CeFinalize n) (start : Bool)
    (results : List (CeResultExportObject n)) :
    ∃ result, aggrigateLoop acc start results = some result := by
  induction results generalizing acc start with
  | nil => exact ⟨acc, rfl⟩
  | cons res rest ih =>
    unfold aggrigateLoop
    dsimp only
    split_ifs
    · exact ih _ _
    · exact ih _ _

/-- After the latch the vectors are merged entry by entry. -/
theorem aggrigateLoop_true (acc : CeFinalize n) (results : List (CeResultExportObject n)) :
    aggrigateLoop acc true results = some
      { totalPositves := acc.totalPositves + (results.map (·.totalPositives)).sum
        totalNegatives := acc.totalNegatives + (results.map (·.totalNegatives)).sum
        s := fun j => merge quest (acc.s j) (results.map (·.s j))
        g := fun j => merge quest (acc.g j) (results.map (·.g j)) } := by
  induction results generalizing acc with
  | nil => simp [aggrigateLoop, merge]
  | cons res rest ih =>
    rw [aggrigateLoop]
    simp only [Bool.true_eq_false, if_false]
    rw [ih]
    simp only [List.map_cons, List.sum_cons, add_assoc]
    rfl

theorem aggrigateResults_cons (hn : 0 < n) (hs : res.s ⟨0, hn⟩ ≠ star) :
    aggrigateResults (res :: rest) = some
      { totalPositves := res.totalPositives + (rest.map (·.totalPositives)).sum
        totalNegatives := res.totalNegatives + (rest.map (·.totalNegatives)).sum
        s := fun j => merge quest (res.s j) (rest.map (·.s j))
        g := fun j => merge quest (res.g j) (rest.map (·.g j)) } := by
  rw [aggrigateResults, aggrigateLoop]
  simp only [if_true, hn, dif_pos, hs, ne_eq, not_false_eq_true, decide_true]
  rw [aggrigateLoop_true]
  simp

theorem aggrigateResults_singleton (hn : 0 < n) (res : CeResultExportObject n) :
    aggrigateResults [res] =
      some ⟨res.totalPositives, res.totalNegatives, res.s, res.g⟩ := by
  simp [aggrigateResults, aggrigateLoop, hn]

/-- Without attributes there is no first entry to look at. -/
theorem pos_of_aggrigateResults (h : aggrigateResults (res :: rest) = some result) : 0 < n := by
  by_contra hn
  simp [aggrigateResults, aggrigateLoop, hn] at h

theorem SameResult.refl [BoostIequals] (a : CeFinalize n) : a.SameResult a :=
  ⟨fun _ => iequals_refl _, fun _ => iequals_refl _, rfl, rfl⟩

end CeFinalize

end WorkerUnit
