import WorkerUnit.Algorithm.AlgorithmScheduler

/-!
# Every table is aggregated once

As long as no two tables in flight share an id, the entry of a table collects
exactly the results of its own splits, and the last of them settles it.
-/

namespace WorkerUnit

open StepSystem

namespace AlgoState

/-- What a run of trackable tables keeps true. -/
structure Tracks (totalThreads : ℕ) (s : AlgoState) : Prop where
  fault : s.fault = false
  fresh : ∀ k, s.calls ≤ k → s.call k = none
  linked : ∀ k c, s.call k = some c → c.tData.tableID ≠ [] ∧ c.algoIndex = 1 ∧
    s.linkedAlgorithm c.tData = 1 ∧ c.handed ≤ totalThreads
  accepted : ∀ x, x ∈ s.accepted ↔ ∃ c, s.call x.table = some c ∧ x.index < c.handed
  nodup : s.returned.Nodup
  returned : ∀ x ∈ s.returned, x ∈ s.accepted
  entry : ∀ id package, s.algorithmResultMap id = some package →
    (s.results package.tableData).length < totalThreads ∧
      ∃ c, s.call package.tableData = some c ∧ c.tData.tableID = id
  waiting : ∀ k c, s.call k = some c → (s.results k).length < totalThreads →
    s.finalizeTasksOf k = [] ∧ s.releasesOf k = [] ∧
      s.algorithmResultMap c.tData.tableID = some ⟨k, s.results k⟩
  complete : ∀ k c, s.call k = some c → totalThreads ≤ (s.results k).length →
    s.finalizeTasksOf k = [⟨k, s.results k, c.tData.tableID, c.tData.priority⟩] ∧
      s.releasesOf k = [⟨k, c.tData.tableID⟩]
  ended : ∀ k c, s.call k = some c → totalThreads ≤ (s.results k).length → c.ended = true
  unknown : ∀ k, s.call k = none → s.finalizeTasksOf k = [] ∧ s.releasesOf k = []

/-- The state after a result that is not the last of its table. -/
def collected (s : AlgoState) (result : Split) (tData : TableData) : AlgoState :=
  { s with
    returned := s.returned ++ [result]
    algorithmResultMap := Function.update s.algorithmResultMap tData.tableID
      (some ⟨result.table, s.results result.table ++ [result]⟩) }

/-- The state after the last result of a table. -/
def settled (s : AlgoState) (result : Split) (tData : TableData) : AlgoState :=
  { s with
    returned := s.returned ++ [result]
    finalizeTasks := s.finalizeTasks ++ [⟨result.table, s.results result.table ++ [result],
      tData.tableID, tData.priority⟩]
    releases := s.releases ++ [⟨result.table, tData.tableID⟩]
    algorithmResultMap := Function.update s.algorithmResultMap tData.tableID none }

variable {totalThreads : ℕ} {instances : InstanceList} {s t : AlgoState}

theorem isReleased_eq_false {table : ℕ} (h : s.releasesOf table = []) :
    s.isReleased table = false := by
  simpa [isReleased, releasesOf] using h

theorem mem_results {table : ℕ} {x : Split} :
    x ∈ s.results table ↔ x ∈ s.returned ∧ x.table = table := by
  simp [results]

theorem subset_of_index_lt {table n : ℕ} {xs : List Split}
    (hx : ∀ x ∈ xs, x.table = table ∧ x.index < n) :
    xs ⊆ (List.range n).map (Split.mk table) := by
  intro x hmem
  obtain ⟨rfl, hlt⟩ := hx x hmem
  exact List.mem_map.mpr ⟨x.index, List.mem_range.mpr hlt, rfl⟩

/-- Distinct splits of one table with indices below `n` are at most `n`. -/
theorem length_le_of_index_lt (table n : ℕ) {xs : List Split} (hnd : xs.Nodup)
    (hx : ∀ x ∈ xs, x.table = table ∧ x.index < n) : xs.length ≤ n := by
  simpa using (List.subperm_of_subset hnd (subset_of_index_lt hx)).length_le

/-- The calls known after `sched_algo` are the new one and those before it. -/
theorem call_schedAlgo_cases {tData : TableData} {k : ℕ} {c : SchedCall}
    (hc : (s.schedAlgo tData).call k = some c) :
    (k = s.calls ∧ c = ⟨tData, s.linkedAlgorithm tData, 0, false⟩) ∨ s.call k = some c := by
  by_cases hk : k = s.calls
  · left
    subst hk
    simp only [AlgoState.schedAlgo, Function.update_self, Option.some.injEq] at hc
    exact ⟨rfl, hc.symm⟩
  · right
    simpa [AlgoState.schedAlgo, hk] using hc

theorem algorithmResultMap_schedAlgo {tData : TableData}
    (hfree : s.algorithmResultMap tData.tableID = none) (id : Text) :
    (s.schedAlgo tData).algorithmResultMap id =
      if id = tData.tableID then some ⟨s.calls, []⟩ else s.algorithmResultMap id := by
  simp [AlgoState.schedAlgo, hfree, Function.update_apply]

/-- The entries of other tables stay. -/
theorem algorithmResultMap_schedAlgo_of_some {tData : TableData}
    (hfree : s.algorithmResultMap tData.tableID = none) {id : Text} {package : AlgorithmPackage}
    (hentry : s.algorithmResultMap id = some package) :
    (s.schedAlgo tData).algorithmResultMap id = s.algorithmResultMap id := by
  have hne : id ≠ tData.tableID := by
    rintro rfl
    rw [hfree] at hentry
    cases hentry
  rw [algorithmResultMap_schedAlgo hfree, if_neg hne]

/-- One split more is handed out for the table, and nothing else changes. -/
theorem call_handOut_cases {table k : ℕ} {c c' : SchedCall} (hc : s.call table = some c)
    (hc' : Function.update s.call table (some { c with handed := c.handed + 1 }) k = some c') :
    ∃ c₀, s.call k = some c₀ ∧ c'.tData = c₀.tData ∧ c'.algoIndex = c₀.algoIndex ∧
      c'.ended = c₀.ended ∧ c'.handed = if k = table then c₀.handed + 1 else c₀.handed := by
  rw [Function.update_apply] at hc'
  split_ifs at hc' with hk
  · cases hc'
    exact ⟨c, hk ▸ hc, rfl, rfl, rfl, by simp [hk]⟩
  · exact ⟨c', hc', rfl, rfl, rfl, by simp [hk]⟩

theorem exists_call_handOut {table k : ℕ} {c c₀ : SchedCall} (hc : s.call table = some c)
    (hc₀ : s.call k = some c₀) :
    ∃ c', Function.update s.call table (some { c with handed := c.handed + 1 }) k = some c' ∧
      c'.tData = c₀.tData ∧ c₀.handed ≤ c'.handed := by
  rw [Function.update_apply]
  split_ifs with hk
  · subst hk
    cases hc.symm.trans hc₀
    exact ⟨_, rfl, rfl, Nat.le_succ _⟩
  · exact ⟨c₀, hc₀, rfl, le_rfl⟩

/-- The call of the table ends, and nothing else changes. -/
theorem call_end_iff {table k : ℕ} {c c' : SchedCall} (hc : s.call table = some c) :
    Function.update s.call table (some { c with ended := true }) k = some c' ↔
      ∃ c₀, s.call k = some c₀ ∧ c' = { c₀ with ended := c₀.ended || decide (k = table) } := by
  rw [Function.update_apply]
  split_ifs with hk
  · subst hk
    simp [hc, eq_comm]
  · simp [hk]

namespace Tracks

theorem results_bound (h : Tracks totalThreads s) {table : ℕ} {c : SchedCall}
    (hc : s.call table = some c) {x : Split} (hx : x ∈ s.results table) :
    x.table = table ∧ x.index < c.handed := by
  obtain ⟨hret, rfl⟩ := mem_results.mp hx
  obtain ⟨c', hc', hlt⟩ := (h.accepted x).mp (h.returned x hret)
  cases hc.symm.trans hc'
  exact ⟨rfl, hlt⟩

theorem length_results_le (h : Tracks totalThreads s) {table : ℕ} {c : SchedCall}
    (hc : s.call table = some c) : (s.results table).length ≤ c.handed :=
  length_le_of_index_lt _ _ (h.nodup.filter _) fun _ hx => h.results_bound hc hx

theorem results_eq_nil (h : Tracks totalThreads s) {table : ℕ} (hc : s.call table = none) :
    s.results table = [] := by
  apply List.eq_nil_iff_forall_not_mem.mpr
  intro x hx
  obtain ⟨hret, rfl⟩ := mem_results.mp hx
  obtain ⟨c, hc', _⟩ := (h.accepted x).mp (h.returned x hret)
  rw [hc] at hc'
  cases hc'

/-- A split that has not reported leaves room for its result. -/
theorem length_results_lt (h : Tracks totalThreads s) {x : Split} {c : SchedCall}
    (hc : s.call x.table = some c) (hacc : x ∈ s.accepted) (hnot : x ∉ s.returned) :
    (s.results x.table).length < c.handed := by
  obtain ⟨c', hc', hlt⟩ := (h.accepted x).mp hacc
  cases hc.symm.trans hc'
  have hnd : (x :: s.results x.table).Nodup :=
    List.nodup_cons.mpr ⟨fun hx => hnot (mem_results.mp hx).1, h.nodup.filter _⟩
  have hle := length_le_of_index_lt x.table c.handed hnd ?_
  · simpa [Nat.succ_le_iff] using hle
  · intro y hy
    rcases List.mem_cons.mp hy with rfl | hy
    · exact ⟨rfl, hlt⟩
    · exact h.results_bound hc hy

theorem addInstance (h : Tracks totalThreads s) (inst : Instance) :
    Tracks totalThreads { s with instances := s.instances.addInstance inst } where
  fault := h.fault
  fresh := h.fresh
  linked := by
    intro k c hc
    obtain ⟨hid, hindex, hlinked, hle⟩ := h.linked k c hc
    refine ⟨hid, hindex, ?_, hle⟩
    have hne : s.instances.getInstanceFromId c.tData.instanceType ≠ .empty := by
      intro he
      simp [linkedAlgorithm, he, Instance.empty] at hlinked
    unfold linkedAlgorithm at *
    rw [InstanceList.getInstanceFromId_addInstance hne inst]
    exact hlinked
  accepted := h.accepted
  nodup := h.nodup
  returned := h.returned
  entry := h.entry
  waiting := h.waiting
  complete := h.complete
  ended := h.ended
  unknown := h.unknown

theorem call_schedAlgo (h : Tracks totalThreads s) (tData : TableData) {k : ℕ} {c : SchedCall}
    (hc : s.call k = some c) : (s.schedAlgo tData).call k = some c := by
  have hk : k ≠ s.calls := by
    rintro rfl
    rw [h.fresh _ le_rfl] at hc
    cases hc
  simpa [AlgoState.schedAlgo, hk] using hc

theorem schedAlgo (hT : 1 ≤ totalThreads) (h : Tracks totalThreads s) {tData : TableData}
    (hid : tData.tableID ≠ []) (hlinked : s.linkedAlgorithm tData = 1)
    (hfree : s.algorithmResultMap tData.tableID = none) :
    Tracks totalThreads (s.schedAlgo tData) := by
  have hnew : s.call s.calls = none := h.fresh _ le_rfl
  have hnil := h.results_eq_nil hnew
  refine ⟨h.fault, ?_, ?_, ?_, h.nodup, h.returned, ?_, ?_, ?_, ?_, ?_⟩
  · intro k hk
    have hk' : s.calls + 1 ≤ k := hk
    have hne : k ≠ s.calls := by omega
    simpa [AlgoState.schedAlgo, hne] using h.fresh k (by omega)
  · intro k c hc
    rcases call_schedAlgo_cases hc with ⟨rfl, rfl⟩ | hc
    · exact ⟨hid, hlinked, hlinked, Nat.zero_le _⟩
    · exact h.linked k c hc
  · intro x
    constructor
    · intro hx
      obtain ⟨c, hc, hlt⟩ := (h.accepted x).mp hx
      exact ⟨c, h.call_schedAlgo tData hc, hlt⟩
    · rintro ⟨c, hc, hlt⟩
      rcases call_schedAlgo_cases hc with ⟨_, rfl⟩ | hc
      · exact absurd hlt (Nat.not_lt_zero _)
      · exact (h.accepted x).mpr ⟨c, hc, hlt⟩
  · intro id package hp
    rw [algorithmResultMap_schedAlgo hfree] at hp
    split_ifs at hp with hidt
    · cases hp
      refine ⟨?_, _, Function.update_self .., hidt.symm⟩
      change (s.results s.calls).length < totalThreads
      rw [hnil]
      exact hT
    · obtain ⟨hlt, c, hc, hcid⟩ := h.entry id package hp
      exact ⟨hlt, c, h.call_schedAlgo tData hc, hcid⟩
  · intro k c hc hlt
    rcases call_schedAlgo_cases hc with ⟨rfl, rfl⟩ | hc
    · obtain ⟨hfinal, hrelease⟩ := h.unknown _ hnew
      refine ⟨hfinal, hrelease, ?_⟩
      rw [algorithmResultMap_schedAlgo hfree, if_pos rfl]
      change some _ = some (AlgorithmPackage.mk s.calls (s.results s.calls))
      rw [hnil]
    · obtain ⟨hfinal, hrelease, hentry⟩ := h.waiting k c hc hlt
      exact ⟨hfinal, hrelease, (algorithmResultMap_schedAlgo_of_some hfree hentry).trans hentry⟩
  · intro k c hc hle
    rcases call_schedAlgo_cases hc with ⟨rfl, rfl⟩ | hc
    · change totalThreads ≤ (s.results s.calls).length at hle
      rw [hnil] at hle
      exact absurd hT (Nat.not_le.mpr (Nat.lt_succ_of_le hle))
    · exact h.complete k c hc hle
  · intro k c hc hle
    rcases call_schedAlgo_cases hc with ⟨rfl, rfl⟩ | hc
    · change totalThreads ≤ (s.results s.calls).length at hle
      rw [hnil] at hle
      exact absurd hT (Nat.not_le.mpr (Nat.lt_succ_of_le hle))
    · exact h.ended k c hc hle
  · intro k hk
    apply h.unknown
    by_cases hk' : k = s.calls
    · exact hk' ▸ hnew
    · simpa [AlgoState.schedAlgo, hk'] using hk

/-- A split that is still to be scheduled is accepted. -/
theorem scheduleSplit_eq (hT : 1 ≤ totalThreads) (h : Tracks totalThreads s) {table : ℕ}
    (ht : s.scheduleSplit totalThreads table = some t) :
    ∃ c, s.call table = some c ∧ c.handed < totalThreads ∧ t = { s with
      call := Function.update s.call table (some { c with handed := c.handed + 1 })
      accepted := s.accepted ++ [⟨table, c.handed⟩] } := by
  unfold AlgoState.scheduleSplit at ht
  split at ht
  · cases ht
  rename_i c hc
  split at ht
  · cases ht
  rename_i startRow endRow hrange
  have hlt : c.handed < totalThreads := by
    rw [← length_splitRanges c.tData.metadata.rows hT]
    exact (List.getElem?_eq_some_iff.mp hrange).1
  have hopen := h.waiting table c hc ((h.length_results_le hc).trans_lt hlt)
  have halgo : avialAlgo[c.algoIndex]? = some initCeAlgorithm := by
    rw [(h.linked table c hc).2.1]
    rfl
  rw [isReleased_eq_false hopen.2.1] at ht
  simp only [halgo, Bool.false_eq_true, ↓reduceIte, Option.some.injEq] at ht
  exact ⟨c, hc, hlt, ht.symm⟩

/-- The split that is handed out joins the accepted ones. -/
theorem accepted_handOut (h : Tracks totalThreads s) {table : ℕ} {c : SchedCall}
    (hc : s.call table = some c) (x : Split) :
    x ∈ s.accepted ++ [⟨table, c.handed⟩] ↔
      ∃ c', Function.update s.call table (some { c with handed := c.handed + 1 }) x.table =
        some c' ∧ x.index < c'.handed := by
  rw [List.mem_append, List.mem_singleton, h.accepted]
  constructor
  · rintro (⟨c₀, hc₀, hx⟩ | rfl)
    · obtain ⟨c', hc', _, hle⟩ := exists_call_handOut hc hc₀
      exact ⟨c', hc', hx.trans_le hle⟩
    · exact ⟨_, Function.update_self .., Nat.lt_succ_self _⟩
  · rintro ⟨c', hc', hx⟩
    obtain ⟨c₀, hc₀, _, _, _, hhanded⟩ := call_handOut_cases hc hc'
    rw [hhanded] at hx
    split_ifs at hx with hk
    · rcases Nat.lt_succ_iff_lt_or_eq.mp hx with hx | hx
      · exact .inl ⟨c₀, hc₀, hx⟩
      · right
        rw [hk] at hc₀
        cases hc.symm.trans hc₀
        exact congrArg₂ Split.mk hk hx
    · exact .inl ⟨c₀, hc₀, hx⟩

theorem scheduleSplit (hT : 1 ≤ totalThreads) (h : Tracks totalThreads s) {table : ℕ}
    (ht : s.scheduleSplit totalThreads table = some t) : Tracks totalThreads t := by
  obtain ⟨c, hc, hlt, rfl⟩ := h.scheduleSplit_eq hT ht
  refine ⟨h.fault, ?_, ?_, ?_, h.nodup, ?_, ?_, ?_, ?_, ?_, ?_⟩
  · intro k hk
    have hne : k ≠ table := by
      rintro rfl
      rw [h.fresh k hk] at hc
      cases hc
    simpa [hne] using h.fresh k hk
  · intro k c' hc'
    obtain ⟨c₀, hc₀, htd, hix, -, hhanded⟩ := call_handOut_cases hc hc'
    obtain ⟨hid, hindex, hlinked, hle⟩ := h.linked k c₀ hc₀
    rw [htd, hix, hhanded]
    refine ⟨hid, hindex, hlinked, ?_⟩
    split_ifs with hk
    · subst hk
      cases hc.symm.trans hc₀
      exact hlt
    · exact hle
  · exact h.accepted_handOut hc
  · intro x hx
    exact List.mem_append_left _ (h.returned x hx)
  · intro id package hp
    obtain ⟨hlen, c₀, hc₀, hid⟩ := h.entry id package hp
    obtain ⟨c', hc', htd, _⟩ := exists_call_handOut hc hc₀
    exact ⟨hlen, c', hc', htd ▸ hid⟩
  · intro k c' hc'
    obtain ⟨c₀, hc₀, htd, _⟩ := call_handOut_cases hc hc'
    rw [htd]
    exact h.waiting k c₀ hc₀
  · intro k c' hc'
    obtain ⟨c₀, hc₀, htd, _⟩ := call_handOut_cases hc hc'
    rw [htd]
    exact h.complete k c₀ hc₀
  · intro k c' hc'
    obtain ⟨c₀, hc₀, -, -, hended, -⟩ := call_handOut_cases hc hc'
    rw [hended]
    exact h.ended k c₀ hc₀
  · intro k hk
    apply h.unknown
    by_contra hne
    obtain ⟨c₀, hc₀⟩ := Option.ne_none_iff_exists'.mp hne
    obtain ⟨c', hc', _⟩ := exists_call_handOut hc hc₀
    cases hk.symm.trans hc'

/-- A call that still reads its table has no complete results, so the table is there. -/
theorem schedAlgoReturns (h : Tracks totalThreads s) {table : ℕ}
    (ht : s.schedAlgoReturns totalThreads table = some t) : Tracks totalThreads t := by
  unfold AlgoState.schedAlgoReturns at ht
  split at ht
  · cases ht
  rename_i c hc
  split_ifs at ht with hopen hreleased
  · have hended : ¬ c.ended = true := fun hended => hopen (.inr hended)
    have hlt : (s.results table).length < totalThreads := by
      by_contra hlen
      exact hended (h.ended table c hc (not_lt.mp hlen))
    rw [isReleased_eq_false (h.waiting table c hc hlt).2.1] at hreleased
    cases hreleased
  · cases ht
    refine ⟨h.fault, ?_, ?_, ?_, h.nodup, h.returned, ?_, ?_, ?_, ?_, ?_⟩
    · intro k hk
      have hne : k ≠ table := by
        rintro rfl
        rw [h.fresh k hk] at hc
        cases hc
      simpa [hne] using h.fresh k hk
    · intro k c' hc'
      obtain ⟨c₀, hc₀, rfl⟩ := (call_end_iff hc).mp hc'
      exact h.linked k c₀ hc₀
    · intro x
      rw [h.accepted]
      constructor
      · rintro ⟨c₀, hc₀, hlt⟩
        exact ⟨_, (call_end_iff hc).mpr ⟨c₀, hc₀, rfl⟩, hlt⟩
      · rintro ⟨c', hc', hlt⟩
        obtain ⟨c₀, hc₀, rfl⟩ := (call_end_iff hc).mp hc'
        exact ⟨c₀, hc₀, hlt⟩
    · intro id package hp
      obtain ⟨hlen, c₀, hc₀, hid⟩ := h.entry id package hp
      exact ⟨hlen, _, (call_end_iff hc).mpr ⟨c₀, hc₀, rfl⟩, hid⟩
    · intro k c' hc'
      obtain ⟨c₀, hc₀, rfl⟩ := (call_end_iff hc).mp hc'
      exact h.waiting k c₀ hc₀
    · intro k c' hc'
      obtain ⟨c₀, hc₀, rfl⟩ := (call_end_iff hc).mp hc'
      exact h.complete k c₀ hc₀
    · intro k c' hc' hlen
      obtain ⟨c₀, hc₀, rfl⟩ := (call_end_iff hc).mp hc'
      simp [h.ended k c₀ hc₀ hlen]
    · intro k hk
      apply h.unknown
      by_contra hne
      obtain ⟨c₀, hc₀⟩ := Option.ne_none_iff_exists'.mp hne
      cases hk.symm.trans ((call_end_iff hc).mpr ⟨c₀, hc₀, rfl⟩)

theorem results_returned (result : Split) (table : ℕ) :
    results { s with returned := s.returned ++ [result] } table =
      if result.table = table then s.results table ++ [result] else s.results table := by
  unfold results
  rw [List.filter_append]
  split_ifs with hk <;> simp [hk]

theorem finalizeTasksOf_settled (result : Split) (tData : TableData) (k : ℕ) :
    (s.settled result tData).finalizeTasksOf k =
      s.finalizeTasksOf k ++ if result.table = k then
        [⟨result.table, s.results result.table ++ [result], tData.tableID, tData.priority⟩]
        else [] := by
  unfold finalizeTasksOf AlgoState.settled
  rw [List.filter_append]
  split_ifs with hk <;> simp [hk]

theorem releasesOf_settled (result : Split) (tData : TableData) (k : ℕ) :
    (s.settled result tData).releasesOf k =
      s.releasesOf k ++ if result.table = k then [⟨result.table, tData.tableID⟩] else [] := by
  unfold releasesOf AlgoState.settled
  rw [List.filter_append]
  split_ifs with hk <;> simp [hk]

/-- A result joins the vector of its table, and the last one settles the table. -/
theorem updateAlgoResult_eq (h : Tracks totalThreads s) {result : Split} {c : SchedCall}
    (hc : s.call result.table = some c) (hacc : result ∈ s.accepted)
    (hnot : result ∉ s.returned) :
    AlgoState.updateAlgoResult totalThreads { s with returned := s.returned ++ [result] }
        c.tData.tableID result =
      if (s.results result.table).length + 1 = totalThreads then s.settled result c.tData
      else s.collected result c.tData := by
  obtain ⟨hid, hindex, hlinked, hle⟩ := h.linked _ c hc
  have hlt := (h.length_results_lt hc hacc hnot).trans_le hle
  obtain ⟨hfinal, hrelease, hentry⟩ := h.waiting _ c hc hlt
  have hid' : c.tData.tableID.isEmpty = false := by simpa using hid
  have hfree : isReleased { s with returned := s.returned ++ [result] } result.table = false :=
    isReleased_eq_false (s := s) hrelease
  have halgo : (avialableFinalizeAlgo (α := Split))[linkedAlgorithm
      { s with returned := s.returned ++ [result] } c.tData]? = some initCeFinalize := by
    change avialableFinalizeAlgo[s.linkedAlgorithm c.tData]? = _
    rw [hlinked]
    rfl
  unfold AlgoState.updateAlgoResult
  simp only [hid', Bool.false_eq_true, ↓reduceIte, hentry, List.length_append,
    List.length_singleton]
  split_ifs with hlast
  · unfold finalize
    simp only [hc, hfree, halgo, Bool.false_eq_true, ↓reduceIte]
    rfl
  · rfl

theorem nodup_returned (h : Tracks totalThreads s) {result : Split} (hnot : result ∉ s.returned) :
    (s.returned ++ [result]).Nodup := by
  rw [List.nodup_append]
  refine ⟨h.nodup, List.nodup_singleton _, ?_⟩
  rintro x hx y hy rfl
  exact hnot (List.mem_singleton.mp hy ▸ hx)

theorem returned_append (h : Tracks totalThreads s) {result : Split} (hacc : result ∈ s.accepted) :
    ∀ x ∈ s.returned ++ [result], x ∈ s.accepted := by
  intro x hx
  rcases List.mem_append.mp hx with hx | hx
  · exact h.returned x hx
  · exact List.mem_singleton.mp hx ▸ hacc

/-- Tables in flight have different ids. -/
theorem id_ne (h : Tracks totalThreads s) {k k' : ℕ} {c c' : SchedCall} (hc : s.call k = some c)
    (hc' : s.call k' = some c') (hne : k ≠ k') (hlt : (s.results k).length < totalThreads)
    (hlt' : (s.results k').length < totalThreads) : c.tData.tableID ≠ c'.tData.tableID := by
  intro he
  have hentry := (h.waiting k c hc hlt).2.2
  rw [he, (h.waiting k' c' hc' hlt').2.2] at hentry
  simp only [Option.some.injEq, AlgorithmPackage.mk.injEq] at hentry
  exact hne hentry.1.symm

/-- The entry under another id is that of another table. -/
theorem table_ne (h : Tracks totalThreads s) {result : Split} {c : SchedCall}
    (hc : s.call result.table = some c) {id : Text} {package : AlgorithmPackage}
    (hp : s.algorithmResultMap id = some package) (hid : id ≠ c.tData.tableID) :
    result.table ≠ package.tableData := by
  obtain ⟨-, c', hc', hid'⟩ := h.entry id package hp
  intro he
  rw [← he] at hc'
  cases hc.symm.trans hc'
  exact hid hid'.symm

theorem collected (h : Tracks totalThreads s) {result : Split} {c : SchedCall}
    (hc : s.call result.table = some c) (hacc : result ∈ s.accepted) (hnot : result ∉ s.returned)
    (hlt : (s.results result.table).length + 1 < totalThreads) :
    Tracks totalThreads (s.collected result c.tData) := by
  have hres : ∀ k, (s.collected result c.tData).results k =
      if result.table = k then s.results k ++ [result] else s.results k :=
    results_returned result
  refine ⟨h.fault, h.fresh, h.linked, h.accepted, h.nodup_returned hnot,
    h.returned_append hacc, ?_, ?_, ?_, ?_, h.unknown⟩
  · intro id package hp
    simp only [AlgoState.collected, Function.update_apply] at hp
    split_ifs at hp with hid
    · cases hp
      rw [hres, if_pos rfl, List.length_append]
      exact ⟨hlt, c, hc, hid.symm⟩
    · rw [hres, if_neg (h.table_ne hc hp hid)]
      exact h.entry id package hp
  · intro k c' hc' hlen
    rw [hres] at hlen ⊢
    by_cases hk : result.table = k
    · subst hk
      cases hc.symm.trans hc'
      obtain ⟨hfinal, hrelease, _⟩ := h.waiting _ c hc (by omega)
      exact ⟨hfinal, hrelease, by simp [AlgoState.collected]⟩
    · rw [if_neg hk] at hlen ⊢
      obtain ⟨hfinal, hrelease, hentry⟩ := h.waiting k c' hc' hlen
      have hne := h.id_ne hc' hc (Ne.symm hk) hlen (by omega)
      exact ⟨hfinal, hrelease, (Function.update_of_ne hne ..).trans hentry⟩
  · intro k c' hc' hlen
    rw [hres] at hlen ⊢
    by_cases hk : result.table = k
    · subst hk
      rw [if_pos rfl, List.length_append, List.length_singleton] at hlen
      omega
    · rw [if_neg hk] at hlen ⊢
      exact h.complete k c' hc' hlen
  · intro k c' hc' hlen
    rw [hres] at hlen
    by_cases hk : result.table = k
    · subst hk
      rw [if_pos rfl, List.length_append, List.length_singleton] at hlen
      omega
    · rw [if_neg hk] at hlen
      exact h.ended k c' hc' hlen

theorem settled (h : Tracks totalThreads s) {result : Split} {c : SchedCall}
    (hc : s.call result.table = some c) (hacc : result ∈ s.accepted) (hnot : result ∉ s.returned)
    (hlast : (s.results result.table).length + 1 = totalThreads) (hended : c.ended = true) :
    Tracks totalThreads (s.settled result c.tData) := by
  have hres : ∀ k, (s.settled result c.tData).results k =
      if result.table = k then s.results k ++ [result] else s.results k :=
    results_returned result
  obtain ⟨hfinal, hrelease, _⟩ := h.waiting _ c hc (by omega)
  refine ⟨h.fault, h.fresh, h.linked, h.accepted, h.nodup_returned hnot,
    h.returned_append hacc, ?_, ?_, ?_, ?_, ?_⟩
  · intro id package hp
    simp only [AlgoState.settled, Function.update_apply] at hp
    split_ifs at hp with hid
    rw [hres, if_neg (h.table_ne hc hp hid)]
    exact h.entry id package hp
  · intro k c' hc' hlen
    rw [hres] at hlen ⊢
    by_cases hk : result.table = k
    · subst hk
      rw [if_pos rfl, List.length_append, List.length_singleton] at hlen
      omega
    · rw [finalizeTasksOf_settled, releasesOf_settled]
      simp only [if_neg hk, List.append_nil] at hlen ⊢
      obtain ⟨hfinal', hrelease', hentry⟩ := h.waiting k c' hc' hlen
      have hne := h.id_ne hc' hc (Ne.symm hk) hlen (by omega)
      exact ⟨hfinal', hrelease', (Function.update_of_ne hne ..).trans hentry⟩
  · intro k c' hc' hlen
    rw [hres] at hlen ⊢
    rw [finalizeTasksOf_settled, releasesOf_settled]
    by_cases hk : result.table = k
    · subst hk
      cases hc.symm.trans hc'
      simp [hfinal, hrelease]
    · simp only [if_neg hk, List.append_nil] at hlen ⊢
      exact h.complete k c' hc' hlen
  · intro k c' hc' hlen
    rw [hres] at hlen
    by_cases hk : result.table = k
    · subst hk
      cases hc.symm.trans hc'
      exact hended
    · rw [if_neg hk] at hlen
      exact h.ended k c' hc' hlen
  · intro k hk
    have hne : result.table ≠ k := by
      rintro rfl
      cases hc.symm.trans hk
    rw [finalizeTasksOf_settled, releasesOf_settled]
    simp only [if_neg hne, List.append_nil]
    exact h.unknown k hk

theorem step (hT : 1 ≤ totalThreads) (h : Tracks totalThreads s) {e : AlgoEvent}
    (he : Trackable totalThreads s e) (ht : algoStep totalThreads s e = some t) :
    Tracks totalThreads t := by
  have hok : ¬ s.fault = true := by simp [h.fault]
  unfold algoStep at ht
  rw [if_neg hok] at ht
  cases e with
  | addInstance inst =>
    cases ht
    exact h.addInstance inst
  | schedAlgo tData =>
    cases ht
    obtain ⟨hid, hlinked, hfree⟩ := he
    exact h.schedAlgo hT hid hlinked hfree
  | scheduleSplit table => exact h.scheduleSplit hT ht
  | schedAlgoReturns table => exact h.schedAlgoReturns ht
  | updateAlgoResult result =>
    dsimp only at ht
    split at ht
    · cases ht
    rename_i c hc
    split_ifs at ht with hx
    obtain ⟨hacc, hnot⟩ := hx
    rw [h.updateAlgoResult_eq hc hacc hnot] at ht
    have hlt := (h.length_results_lt hc hacc hnot).trans_le (h.linked _ c hc).2.2.2
    split_ifs at ht with hlast
    · cases ht
      exact h.settled hc hacc hnot hlast (he hlast c hc)
    · cases ht
      exact h.collected hc hacc hnot (by omega)

end Tracks

end AlgoState

end WorkerUnit
