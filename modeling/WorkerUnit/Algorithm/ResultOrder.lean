import WorkerUnit.Algorithm.ParallelSplits

/-!
# The order of the results

`update_algo_result` collects the results in the order in which the splits
finish. `aggrigateResults` forgets the results in front of the first one that
sets its `start`, and merges every result behind it, also those that do not.
-/

namespace WorkerUnit

open Unanimous CandidateElimination CeFinalize

variable {n : ℕ}

/-- The result sets `start` in the loop of `aggrigateResults`. -/
def Starts (hn : 0 < n) (res : CeResultExportObject n) : Prop := res.s ⟨0, hn⟩ ≠ star

instance (hn : 0 < n) (res : CeResultExportObject n) : Decidable (Starts hn res) :=
  inferInstanceAs (Decidable (_ ≠ _))

/-- Every order of the results is aggregated alike. -/
def OrderIrrelevant (results : List (CeResultExportObject n)) : Prop :=
  ∀ others, results.Perm others → aggrigateResults others = aggrigateResults results

/-- A proper value that the results with `start` have in common is the value of
the results without it, too. -/
def Follows (hn : 0 < n) (value : CeResultExportObject n → Text)
    (results : List (CeResultExportObject n)) : Prop :=
  ∀ a ∈ results, Starts hn a → value a ≠ quest →
    (∀ b ∈ results, Starts hn b → value b = value a) → ∀ b ∈ results, value b = value a

instance (hn : 0 < n) (value : CeResultExportObject n → Text)
    (results : List (CeResultExportObject n)) : Decidable (Follows hn value results) :=
  inferInstanceAs (Decidable (∀ a ∈ results, Starts hn a → value a ≠ quest →
    (∀ b ∈ results, Starts hn b → value b = value a) → ∀ b ∈ results, value b = value a))

/-- No result sets `start` and all have the same vectors, or the results that do
not set it follow those that do. -/
def OrderSafe (hn : 0 < n) (results : List (CeResultExportObject n)) : Prop :=
  if ∃ res ∈ results, Starts hn res then
    ∀ j, Follows hn (·.s j) results ∧ Follows hn (·.g j) results
  else ∀ a ∈ results, ∀ b ∈ results, a.s = b.s ∧ a.g = b.g

instance (hn : 0 < n) (results : List (CeResultExportObject n)) :
    Decidable (OrderSafe hn results) :=
  inferInstanceAs (Decidable (if ∃ res ∈ results, Starts hn res then
    ∀ j, Follows hn (·.s j) results ∧ Follows hn (·.g j) results
  else ∀ a ∈ results, ∀ b ∈ results, a.s = b.s ∧ a.g = b.g))

variable {hn : 0 < n} {acc : CeFinalize n} {res : CeResultExportObject n}
  {results front rest : List (CeResultExportObject n)}

/-- A result that does not set `start` only adds its totals, once one that does
comes behind it. -/
theorem aggrigateLoop_front (hfront : ∀ r ∈ front, ¬ Starts hn r) (hres : Starts hn res) :
    aggrigateLoop acc false (front ++ res :: rest) = some
      { totalPositves := acc.totalPositves +
          ((front ++ res :: rest).map (·.totalPositives)).sum
        totalNegatives := acc.totalNegatives +
          ((front ++ res :: rest).map (·.totalNegatives)).sum
        s := fun j => merge quest (res.s j) (rest.map (·.s j))
        g := fun j => merge quest (res.g j) (rest.map (·.g j)) } := by
  induction front generalizing acc with
  | nil =>
    have hset : res.s ⟨0, hn⟩ ≠ star := hres
    simp [aggrigateLoop, hn, hset, aggrigateLoop_true, add_assoc]
  | cons r front ih =>
    have hunset : r.s ⟨0, hn⟩ = star := not_not.mp (hfront r (List.mem_cons_self ..))
    rw [List.cons_append, aggrigateLoop]
    simp only [if_true, hn, dif_pos, hunset, ne_eq, not_true_eq_false, decide_false]
    rw [ih fun r hr => hfront r (List.mem_cons_of_mem _ hr)]
    simp [add_assoc]

/-- Without a result that sets `start` the last one is left. -/
theorem aggrigateLoop_unset (hunset : ∀ r ∈ results ++ [res], ¬ Starts hn r) :
    aggrigateLoop acc false (results ++ [res]) = some
      { totalPositves := acc.totalPositves + ((results ++ [res]).map (·.totalPositives)).sum
        totalNegatives := acc.totalNegatives + ((results ++ [res]).map (·.totalNegatives)).sum
        s := res.s
        g := res.g } := by
  induction results generalizing acc with
  | nil => simp [aggrigateLoop, hn]
  | cons r results ih =>
    have hr : r.s ⟨0, hn⟩ = star := not_not.mp (hunset r (List.mem_cons_self ..))
    rw [List.cons_append, aggrigateLoop]
    simp only [if_true, hn, dif_pos, hr, ne_eq, not_true_eq_false, decide_false]
    rw [ih fun r hr => hunset r (List.mem_cons_of_mem _ hr)]
    simp [add_assoc]

/-- The results in front of the first one that sets `start`, that one, and those behind it. -/
structure Splits (hn : 0 < n) (results front : List (CeResultExportObject n))
    (res : CeResultExportObject n) (rest : List (CeResultExportObject n)) : Prop where
  perm : results.Perm (front ++ res :: rest)
  front : ∀ r ∈ front, ¬ Starts hn r
  starts : Starts hn res

theorem exists_splits (h : ∃ res ∈ results, Starts hn res) :
    ∃ front res rest, results = front ++ res :: rest ∧ Splits hn results front res rest := by
  have hfind : (results.find? (Starts hn ·)).isSome := by
    rw [List.find?_isSome]
    simpa using h
  obtain ⟨res, hres⟩ := Option.isSome_iff_exists.mp hfind
  obtain ⟨hstarts, front, rest, heq, hfront⟩ := List.find?_eq_some_iff_append.mp hres
  exact ⟨front, res, rest, heq, .of_eq heq, by simpa using hfront, by simpa using hstarts⟩

/-- The order does not matter for the merge of a value. -/
def MergesAlike (hn : 0 < n) (value : CeResultExportObject n → Text)
    (results : List (CeResultExportObject n)) : Prop :=
  ∃ c, ∀ front res rest, Splits hn results front res rest →
    merge quest (value res) (rest.map value) = c

variable {value : CeResultExportObject n → Text}

/-- Results that follow do not change what the others have in common. -/
theorem Follows.merge_eq_iff (h : Follows hn value results) {w : Text} (hw : w ≠ quest)
    (hsplits : Splits hn results front res rest) :
    merge quest (value res) (rest.map value) = w ↔
      ∀ r ∈ results, Starts hn r → value r = w := by
  rw [merge_map_eq_iff value res rest hw]
  constructor
  · intro hall r hr hstarts
    rcases List.mem_append.mp (hsplits.perm.mem_iff.mp hr) with hfront | hr
    · exact absurd hstarts (hsplits.front r hfront)
    · exact hall r hr
  · intro hstarted r hr
    have hres := hsplits.perm.mem_iff.mpr (List.mem_append_right front (List.mem_cons_self ..))
    have hvalue : value res = w := hstarted res hres hsplits.starts
    subst hvalue
    exact h res hres hsplits.starts hw hstarted r
      (hsplits.perm.mem_iff.mpr (List.mem_append_right front hr))

theorem Follows.mergesAlike (h : Follows hn value results) : MergesAlike hn value results := by
  by_cases hsplits : ∃ front res rest, Splits hn results front res rest
  · obtain ⟨front, res, rest, hsplits⟩ := hsplits
    refine ⟨merge quest (value res) (rest.map value), fun front' res' rest' hsplits' => ?_⟩
    apply eq_of_proper_iff
    intro w hw
    rw [h.merge_eq_iff hw hsplits', h.merge_eq_iff hw hsplits]
  · exact ⟨quest, fun front res rest h => absurd ⟨front, res, rest, h⟩ hsplits⟩

/-- The results that do not set `start` in front of the others. -/
theorem exists_splits_unset_first (h : ∃ res ∈ results, Starts hn res) :
    ∃ front res rest, Splits hn results front res rest ∧ ∀ r ∈ res :: rest, Starts hn r := by
  have hsome : results.filter (Starts hn ·) ≠ [] := by
    obtain ⟨res, hres, hstarts⟩ := h
    exact List.ne_nil_of_mem (List.mem_filter.mpr ⟨hres, by simpa using hstarts⟩)
  obtain ⟨res, rest, hfilter⟩ := List.exists_cons_of_ne_nil hsome
  have hstarts : ∀ r ∈ res :: rest, Starts hn r := by
    intro r hr
    rw [← hfilter] at hr
    simpa using (List.mem_filter.mp hr).2
  refine ⟨results.filter (! Starts hn ·), res, rest, ⟨?_, ?_, hstarts res (by simp)⟩, hstarts⟩
  · rw [← hfilter]
    exact (List.perm_append_comm.trans (List.filter_append_perm _ _)).symm
  · intro r hr
    simpa using (List.mem_filter.mp hr).2

/-- The results in another order with the given one last. -/
theorem perm_erase_append {a : CeResultExportObject n} (ha : a ∈ results) :
    results.Perm (results.erase a ++ [a]) :=
  (List.perm_cons_erase ha).trans (List.perm_append_singleton ..).symm

/-- A result that does not set `start` behind all others. -/
theorem exists_splits_last (h : ∃ res ∈ results, Starts hn res) (hres : res ∈ results)
    (hunset : ¬ Starts hn res) :
    ∃ front first rest, Splits hn results front first (rest ++ [res]) := by
  obtain ⟨other, hother, hstarts⟩ := h
  have hne : other ≠ res := fun he => hunset (he ▸ hstarts)
  obtain ⟨front, first, rest, heq, hsplits⟩ :=
    exists_splits ⟨other, (List.mem_erase_of_ne hne).mpr hother, hstarts⟩
  refine ⟨front, first, rest, ?_, hsplits.front, hsplits.starts⟩
  have hperm := perm_erase_append hres
  rwa [heq, List.append_assoc, List.cons_append] at hperm

/-- The merge is the same in both orders only if the result at the end follows. -/
theorem MergesAlike.follows (h : MergesAlike hn value results)
    (hstart : ∃ res ∈ results, Starts hn res) : Follows hn value results := by
  obtain ⟨c, hc⟩ := h
  intro a _ _ hw hall u hu
  by_cases hstarts : Starts hn u
  · exact hall u hu hstarts
  obtain ⟨front, res, rest, hsplits, hset⟩ := exists_splits_unset_first hstart
  have hcommon : merge quest (value res) (rest.map value) = value a := by
    apply (merge_map_eq_iff value res rest hw).mpr
    intro r hr
    exact hall r (hsplits.perm.mem_iff.mpr (List.mem_append_right front hr)) (hset r hr)
  obtain ⟨front', first, rest', hsplits'⟩ := exists_splits_last hstart hu hstarts
  have hlast : merge quest (value first) ((rest' ++ [u]).map value) = value a :=
    (hc _ _ _ hsplits').trans ((hc _ _ _ hsplits).symm.trans hcommon)
  exact (merge_map_eq_iff value first (rest' ++ [u]) hw).mp hlast u (by simp)

theorem Splits.aggrigateResults_eq (h : Splits hn results front res rest) :
    aggrigateResults (front ++ res :: rest) = some
      { totalPositves := (results.map (·.totalPositives)).sum
        totalNegatives := (results.map (·.totalNegatives)).sum
        s := fun j => merge quest (res.s j) (rest.map (·.s j))
        g := fun j => merge quest (res.g j) (rest.map (·.g j)) } := by
  rw [aggrigateResults, aggrigateLoop_front h.front h.starts,
    (h.perm.map (·.totalPositives)).sum_eq, (h.perm.map (·.totalNegatives)).sum_eq]
  simp only [zero_add]

/-- With a result that sets `start`, the order is irrelevant exactly when it is
for the merge of each entry. -/
theorem orderIrrelevant_iff_mergesAlike (hn : 0 < n) (hstart : ∃ res ∈ results, Starts hn res) :
    OrderIrrelevant results ↔
      ∀ j, MergesAlike hn (·.s j) results ∧ MergesAlike hn (·.g j) results := by
  obtain ⟨front, res, rest, heq, hsplits⟩ := exists_splits hstart
  have hresults := hsplits.aggrigateResults_eq
  rw [← heq] at hresults
  constructor
  · intro h j
    have hsame : ∀ front' res' rest', Splits hn results front' res' rest' →
        merge quest (res'.s j) (rest'.map (·.s j)) = merge quest (res.s j) (rest.map (·.s j)) ∧
          merge quest (res'.g j) (rest'.map (·.g j)) =
            merge quest (res.g j) (rest.map (·.g j)) := by
      intro front' res' rest' hsplits'
      have hother := h _ hsplits'.perm
      rw [hsplits'.aggrigateResults_eq, hresults] at hother
      have hrecord := Option.some.inj hother
      exact ⟨congrFun (congrArg CeFinalize.s hrecord) j, congrFun (congrArg CeFinalize.g hrecord) j⟩
    exact ⟨⟨_, fun _ _ _ hsplits' => (hsame _ _ _ hsplits').1⟩,
      ⟨_, fun _ _ _ hsplits' => (hsame _ _ _ hsplits').2⟩⟩
  · intro h others hperm
    obtain ⟨r, hr, hstarts⟩ := hstart
    obtain ⟨front', res', rest', heq', hsplits'⟩ :=
      exists_splits ⟨r, hperm.mem_iff.mp hr, hstarts⟩
    have hother : Splits hn results front' res' rest' :=
      ⟨hperm.trans hsplits'.perm, hsplits'.front, hsplits'.starts⟩
    rw [heq', hother.aggrigateResults_eq, hresults]
    congr 2
    · funext j
      obtain ⟨c, hc⟩ := (h j).1
      exact (hc _ _ _ hother).trans (hc _ _ _ hsplits).symm
    · funext j
      obtain ⟨c, hc⟩ := (h j).2
      exact (hc _ _ _ hother).trans (hc _ _ _ hsplits).symm

/-- Without one, the aggregation has the vectors of the last result. -/
theorem aggrigateResults_unset {others : List (CeResultExportObject n)} (hn : 0 < n)
    (hperm : results.Perm (others ++ [res])) (hunset : ∀ r ∈ results, ¬ Starts hn r) :
    aggrigateResults (others ++ [res]) = some
      { totalPositves := (results.map (·.totalPositives)).sum
        totalNegatives := (results.map (·.totalNegatives)).sum
        s := res.s
        g := res.g } := by
  have hunset' : ∀ r ∈ others ++ [res], ¬ Starts hn r :=
    fun r hr => hunset r (hperm.mem_iff.mpr hr)
  rw [aggrigateResults, aggrigateLoop_unset hunset', (hperm.map (·.totalPositives)).sum_eq,
    (hperm.map (·.totalNegatives)).sum_eq]
  simp only [zero_add]

/-- Then the order is irrelevant exactly when all results have the same vectors. -/
theorem orderIrrelevant_iff_of_unset (hn : 0 < n) (hunset : ∀ res ∈ results, ¬ Starts hn res) :
    OrderIrrelevant results ↔ ∀ a ∈ results, ∀ b ∈ results, a.s = b.s ∧ a.g = b.g := by
  constructor
  · intro h a ha b hb
    have hlast := (h _ (perm_erase_append ha)).trans (h _ (perm_erase_append hb)).symm
    rw [aggrigateResults_unset hn (perm_erase_append ha) hunset,
      aggrigateResults_unset hn (perm_erase_append hb) hunset] at hlast
    have hrecord := Option.some.inj hlast
    exact ⟨congrArg CeFinalize.s hrecord, congrArg CeFinalize.g hrecord⟩
  · intro h others hperm
    rcases List.eq_nil_or_concat' results with rfl | ⟨front, a, rfl⟩
    · rw [hperm.nil_eq]
    rcases List.eq_nil_or_concat' others with rfl | ⟨front', b, rfl⟩
    · exact absurd hperm.length_eq (by simp)
    have hb : b ∈ front ++ [a] := hperm.mem_iff.mpr (by simp)
    rw [aggrigateResults_unset hn hperm hunset, aggrigateResults_unset hn (.refl _) hunset]
    obtain ⟨hs, hg⟩ := h b hb a (by simp)
    rw [hs, hg]

/-- The order of the results is irrelevant exactly when none of them sets `start`
and they are alike, or those that do not set it follow those that do. -/
theorem orderIrrelevant_iff (hn : 0 < n) (results : List (CeResultExportObject n)) :
    OrderIrrelevant results ↔ OrderSafe hn results := by
  unfold OrderSafe
  split_ifs with hstart
  · rw [orderIrrelevant_iff_mergesAlike hn hstart]
    refine forall_congr' fun j => and_congr ?_ ?_
    · exact ⟨fun h => h.follows hstart, Follows.mergesAlike⟩
    · exact ⟨fun h => h.follows hstart, Follows.mergesAlike⟩
  · exact orderIrrelevant_iff_of_unset hn fun res hres hstarts => hstart ⟨res, hres, hstarts⟩

/-- A result without positive rows between two that have nothing in common. -/
theorem orderIrrelevant_nothingCommon :
    OrderIrrelevant (n := 1) [⟨1, 1, fun _ => ['a'], fun _ => ['a']⟩,
      ⟨-1, 0, fun _ => star, fun _ => star⟩, ⟨1, 1, fun _ => ['b'], fun _ => ['b']⟩] :=
  (orderIrrelevant_iff (by decide) _).mpr (by decide)

/-- The second of two splits has no positive row: in front of the first one its
result is forgotten, behind it each entry becomes general. -/
theorem not_orderIrrelevant_splits :
    ¬ ∀ finals : List (CandidateElimination 1),
      List.Forall₂ (fun range final => (CandidateElimination.new 1
          (diskOf ['t'] [['h', ',', 't'], ['a', ',', 'y'], ['b', ',', 'n']])
          ['t'] ['y'] range).RunsTo final) (splitRanges 2 2) finals →
        OrderIrrelevant (finals.map (·.candidateEliminationEnd)) := by
  intro h
  have hconcrete : ∀ p ∈ positives ['y'] (readRows 1 (fileLines
      (diskOf ['t'] [['h', ',', 't'], ['a', ',', 'y'], ['b', ',', 'n']]) ['t']) 1 2),
      p.Concrete := by decide
  have hruns : ∀ b ∈ splitBlocks 2 2, _ := fun b hb => split_runs (by decide) hconcrete hb
  rw [splitRanges_eq] at h
  simp only [List.forall₂_map_left_iff] at h
  obtain ⟨finals, hfinals⟩ := Loop.exists_ends hruns
  have horder := h finals hfinals
  rw [Loop.map_ends hruns hfinals] at horder
  exact absurd (horder _ (List.reverse_perm _).symm) (by decide)

end WorkerUnit
