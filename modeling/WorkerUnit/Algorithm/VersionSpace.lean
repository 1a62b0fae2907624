import WorkerUnit.Algorithm.ClosedForm
import WorkerUnit.Algorithm.ResultOrder
import WorkerUnit.Algorithm.SplitTotals
import WorkerUnit.Library.ConceptLearning

/-!
# What the computation says about the rows

The vectors `s` and `g` as hypotheses about the attributes of a row, up to letter
case. The `s` of a split is the least general hypothesis that covers its positive
rows, and each value of `g` tells the positive rows from the negative ones by
itself. A merged `s` still covers every positive row of the table.
-/

namespace WorkerUnit

open CandidateElimination CeFinalize ConceptLearning ConceptLearning.Hypothesis Unanimous

/-- The attributes as `iequals` compares them in the classic locale. -/
def Row.folded {n : ℕ} (row : Row n) : Fin n → Text := fun j => (row.attribute j).map Char.toUpper

/-- An entry `?` leaves its attribute free. -/
def hypothesis {n : ℕ} (vector : Fin n → Text) : Hypothesis (Fin n) Text :=
  ⟨fun j => if vector j = quest then none else some ((vector j).map Char.toUpper)⟩

variable {n : ℕ}

def positiveExamples (confirmValue : Text) (rows : List (Row n)) : Set (Fin n → Text) :=
  {x | ∃ row ∈ positives confirmValue rows, row.folded = x}

def negativeExamples (confirmValue : Text) (rows : List (Row n)) : Set (Fin n → Text) :=
  {x | ∃ row ∈ negatives confirmValue rows, row.folded = x}

variable {confirmValue : Text} {rows : List (Row n)} {p : Row n} {j : Fin n} {v : Text}

theorem iequals_attribute_iff {p q : Row n} :
    iequals (p.attribute j) (q.attribute j) = true ↔ p.folded j = q.folded j := iequals_iff

theorem forall_positiveExamples {P : (Fin n → Text) → Prop} :
    (∀ x ∈ positiveExamples confirmValue rows, P x) ↔
      ∀ row ∈ positives confirmValue rows, P row.folded := by
  simp [positiveExamples]

theorem forall_negativeExamples {P : (Fin n → Text) → Prop} :
    (∀ x ∈ negativeExamples confirmValue rows, P x) ↔
      ∀ row ∈ negatives confirmValue rows, P row.folded := by
  simp [negativeExamples]

theorem mem_required_iff {vector : Fin n → Text} :
    v ∈ (hypothesis vector).required j ↔
      vector j ≠ quest ∧ (vector j).map Char.toUpper = v := by
  simp [hypothesis]

section Split

/-- The positive rows agree in an attribute when they have one value of it. -/
theorem agreeAt_iff_folded (hp : p ∈ positives confirmValue rows) :
    AgreeAt confirmValue rows j ↔
      ∀ row ∈ positives confirmValue rows, row.folded j = p.folded j := by
  rw [agreeAt_iff_fitsAt hp]
  exact forall₂_congr fun row _ => iequals_attribute_iff.trans eq_comm

/-- The learned `s` requires the values that the positive rows have in common. -/
theorem mem_required_learned_s (hp : p ∈ (positives confirmValue rows).head?)
    (hplain : p.Concrete) :
    v ∈ (hypothesis (learned confirmValue rows).s).required j ↔
      ∀ x ∈ positiveExamples confirmValue rows, x j = v := by
  obtain ⟨ps, hps⟩ := List.head?_eq_some_iff.mp hp
  have hmem : p ∈ positives confirmValue rows := List.mem_of_mem_head? hp
  rw [mem_required_iff, learned_s hps, forall_positiveExamples]
  by_cases hagree : AgreeAt confirmValue rows j
  · rw [if_pos hagree]
    have hcommon := (agreeAt_iff_folded hmem).mp hagree
    constructor
    · rintro ⟨_, rfl⟩
      exact hcommon
    · intro hall
      exact ⟨(hplain j).2, hall p hmem⟩
  · rw [if_neg hagree]
    constructor
    · rintro ⟨hquest, _⟩
      exact absurd rfl hquest
    · intro hall
      apply absurd _ hagree
      apply (agreeAt_iff_folded hmem).mpr
      intro row hrow
      exact (hall row hrow).trans (hall p hmem).symm

/-- The learned `g` requires the values that separate the rows by themselves. -/
theorem mem_required_learned_g (hp : p ∈ (positives confirmValue rows).head?) (hplain : p.Concrete)
    (hnegative : negatives confirmValue rows ≠ []) :
    v ∈ (hypothesis (learned confirmValue rows).g).required j ↔
      (literal j v).Consistent (positiveExamples confirmValue rows)
        (negativeExamples confirmValue rows) := by
  obtain ⟨ps, hps⟩ := List.head?_eq_some_iff.mp hp
  have hmem : p ∈ positives confirmValue rows := List.mem_of_mem_head? hp
  rw [mem_required_iff, learned_g hps, if_neg hnegative, literal_consistent_iff,
    forall_positiveExamples, forall_negativeExamples]
  have hrefuted : AgreeAt confirmValue rows j → (¬ RefutedAt confirmValue rows j ↔
      ∀ row ∈ negatives confirmValue rows, row.folded j ≠ p.folded j) := by
    intro hagree
    rw [refutedAt_iff_not_clearAt hmem hagree, not_not]
    exact forall₂_congr fun row _ => not_congr (iequals_attribute_iff.trans eq_comm)
  constructor
  · rintro ⟨hquest, hvalue⟩
    split_ifs at hquest hvalue with hlearned
    · subst hvalue
      exact ⟨(agreeAt_iff_folded hmem).mp hlearned.1, (hrefuted hlearned.1).mp hlearned.2⟩
    · exact absurd rfl hquest
  · rintro ⟨hall, hnone⟩
    obtain rfl : p.folded j = v := hall p hmem
    have hagree := (agreeAt_iff_folded hmem).mpr hall
    rw [if_pos ⟨hagree, (hrefuted hagree).mpr hnone⟩]
    exact ⟨(hplain j).2, rfl⟩

variable {disk : Disk} {tableId : Text} {a k : ℕ}

theorem PlainRange.exists_first (h : PlainRange disk tableId a k rows)
    (hpositive : positives confirmValue rows ≠ []) :
    ∃ p ∈ (positives confirmValue rows).head?, p.Concrete := by
  obtain ⟨p, ps, hps⟩ := List.exists_cons_of_ne_nil hpositive
  have hp : p ∈ positives confirmValue rows := hps ▸ List.mem_cons_self ..
  exact ⟨p, by rw [hps]; rfl, h.concrete p (List.mem_filter.mp hp).1⟩

theorem PlainRange.final_eq (h : PlainRange disk tableId a k rows)
    {final : CandidateElimination n}
    (hfinal : (CandidateElimination.new n disk tableId confirmValue (a, a + k - 1)).RunsTo final) :
    final.s = (learned confirmValue rows).s ∧ final.g = (learned confirmValue rows).g := by
  obtain ⟨other, hruns, hexport⟩ := h.runsTo confirmValue
  obtain rfl := (hruns final).mp hfinal
  exact ⟨congrArg CeResultExportObject.s hexport, congrArg CeResultExportObject.g hexport⟩

/-- A split of plain rows, one of them positive, learns the least general hypothesis
that covers its positive rows; some hypothesis separates its rows exactly when that
one does. -/
theorem split_leastGeneral (h : PlainRange disk tableId a k rows)
    (hpositive : positives confirmValue rows ≠ []) {final : CandidateElimination n}
    (hfinal : (CandidateElimination.new n disk tableId confirmValue (a, a + k - 1)).RunsTo final) :
    IsLeast (covering (positiveExamples confirmValue rows)) (hypothesis final.s) ∧
      ((∃ other : Hypothesis (Fin n) Text, other.Consistent (positiveExamples confirmValue rows)
          (negativeExamples confirmValue rows)) ↔
        (hypothesis final.s).Consistent (positiveExamples confirmValue rows)
          (negativeExamples confirmValue rows)) := by
  obtain ⟨p, hp, hplain⟩ := h.exists_first hpositive
  rw [(h.final_eq hfinal).1]
  have hleast : IsLeast (covering (positiveExamples confirmValue rows))
      (hypothesis (learned confirmValue rows).s) :=
    isLeast_covering fun _ _ => mem_required_learned_s hp hplain
  exact ⟨hleast, exists_consistent_iff hleast⟩

/-- Among plain rows of both kinds, the values that `g` keeps are exactly those
that separate the rows by themselves. -/
theorem split_separators (h : PlainRange disk tableId a k rows)
    (hpositive : positives confirmValue rows ≠ []) (hnegative : negatives confirmValue rows ≠ [])
    {final : CandidateElimination n}
    (hfinal : (CandidateElimination.new n disk tableId confirmValue (a, a + k - 1)).RunsTo final)
    (j : Fin n) (v : Text) :
    v ∈ (hypothesis final.g).required j ↔
      (literal j v).Consistent (positiveExamples confirmValue rows)
        (negativeExamples confirmValue rows) := by
  obtain ⟨p, hp, hplain⟩ := h.exists_first hpositive
  rw [(h.final_eq hfinal).2]
  exact mem_required_learned_g hp hplain hnegative

/-- Two positive rows in different letter cases, and a negative one. -/
def threeRows : List (Row 1) := [![['a'], ['y']], ![['b'], ['n']], ![['A'], ['Y']]]

def threeLines : Disk :=
  diskOf ['t'] [['h', ',', 't'], ['a', ',', 'y'], ['b', ',', 'n'], ['A', ',', 'Y']]

theorem plainRange_threeRows : PlainRange threeLines ['t'] 1 3 threeRows :=
  ⟨by decide, by decide, by decide⟩

theorem split_leastGeneral_threeRows :
    ∃ final : CandidateElimination 1,
      (CandidateElimination.new 1 threeLines ['t'] ['y'] (1, 3)).RunsTo final ∧
        IsLeast (covering (positiveExamples ['y'] threeRows)) (hypothesis final.s) := by
  obtain ⟨final, hruns, _⟩ := plainRange_threeRows.runsTo ['y']
  have hfinal := (hruns final).mpr rfl
  exact ⟨final, hfinal, (split_leastGeneral plainRange_threeRows (by decide) hfinal).1⟩

theorem split_separators_threeRows :
    ∃ final : CandidateElimination 1,
      (CandidateElimination.new 1 threeLines ['t'] ['y'] (1, 3)).RunsTo final ∧
        ['A'] ∈ (hypothesis final.g).required 0 := by
  obtain ⟨final, hruns, _⟩ := plainRange_threeRows.runsTo ['y']
  have hfinal := (hruns final).mpr rfl
  refine ⟨final, hfinal, (split_separators plainRange_threeRows (by decide) (by decide) hfinal 0
    ['A']).mpr ?_⟩
  rw [literal_consistent_iff, forall_positiveExamples, forall_negativeExamples]
  decide

end Split

section Merged

/-- The rows of the splits that have a positive row; the others are not compared. -/
def comparedRows (confirmValue : Text) (blocks : List (List (Row n))) : List (Row n) :=
  (blocks.filter fun b => positives confirmValue b ≠ []).flatten

variable {blocks : List (List (Row n))}

/-- A split exports an `s` that has been set exactly when it has a positive row. -/
theorem starts_learned_iff (hn : 0 < n) (hplain : ∀ row ∈ rows, row.Concrete) :
    Starts hn (learned confirmValue rows) ↔ positives confirmValue rows ≠ [] := by
  cases hps : positives confirmValue rows with
  | nil =>
    have hstar : (learned confirmValue rows).s ⟨0, hn⟩ = star := by rw [learned, hps]
    simp [Starts, hstar]
  | cons p ps =>
    have hp : p ∈ positives confirmValue rows := hps ▸ List.mem_cons_self ..
    have hconcrete := hplain p (List.mem_filter.mp hp).1
    simp only [Starts, learned_s hps, ne_eq, reduceCtorEq, not_false_eq_true, iff_true]
    split_ifs
    · exact (hconcrete _).1
    · decide

/-- An entry of the merged vectors that is a value is the one of every split with
a positive row. -/
theorem merged_value {results : List (CeResultExportObject n)} {result : CeFinalize n}
    (hplain : ∀ b ∈ blocks, ∀ row ∈ b, row.Concrete)
    (hresults : results.Perm (blocks.map (learned confirmValue)))
    (h : aggrigateResults results = some result) {b : List (Row n)} (hb : b ∈ blocks)
    (hpositive : positives confirmValue b ≠ []) (j : Fin n) :
    (result.s j ≠ quest → (learned confirmValue b).s j = result.s j) ∧
      (result.g j ≠ quest → (learned confirmValue b).g j = result.g j) := by
  have hmem : learned confirmValue b ∈ results := hresults.mem_iff.mpr (List.mem_map_of_mem hb)
  have hn : 0 < n := by
    cases results with
    | nil => exact absurd hmem List.not_mem_nil
    | cons r rest => exact pos_of_aggrigateResults h
  have hstarts : Starts hn (learned confirmValue b) :=
    (starts_learned_iff hn (hplain b hb)).mpr hpositive
  obtain ⟨front, res, rest, heq, hsplits⟩ := exists_splits ⟨_, hmem, hstarts⟩
  have hlater : learned confirmValue b ∈ res :: rest := by
    rcases List.mem_append.mp (heq ▸ hmem) with hfront | hlater
    · exact absurd hstarts (hsplits.front _ hfront)
    · exact hlater
  rw [heq, hsplits.aggrigateResults_eq] at h
  cases h
  constructor
  · intro hs
    exact (merge_map_eq_iff (·.s j) res rest hs).mp rfl _ hlater
  · intro hg
    exact (merge_map_eq_iff (·.g j) res rest hg).mp rfl _ hlater

/-- The values of the merged vectors hold in each split with a positive row: those of
`s` are common to its positive rows, and those of `g` separate its rows. -/
theorem merged_block {results : List (CeResultExportObject n)} {result : CeFinalize n}
    (hplain : ∀ b ∈ blocks, ∀ row ∈ b, row.Concrete)
    (hresults : results.Perm (blocks.map (learned confirmValue)))
    (h : aggrigateResults results = some result) {b : List (Row n)} (hb : b ∈ blocks)
    (hpositive : positives confirmValue b ≠ []) :
    (∀ x ∈ positiveExamples confirmValue b, (hypothesis result.s).Covers x) ∧
      ∀ j, result.g j ≠ quest → result.g j ≠ star →
        (literal j ((result.g j).map Char.toUpper)).Consistent (positiveExamples confirmValue b)
          (negativeExamples confirmValue b) := by
  obtain ⟨p, ps, hps⟩ := List.exists_cons_of_ne_nil hpositive
  have hp : p ∈ (positives confirmValue b).head? := by rw [hps]; rfl
  have hconcrete : p.Concrete := hplain b hb p (List.mem_filter.mp (List.mem_of_mem_head? hp)).1
  have hvalue := merged_value hplain hresults h hb hpositive
  constructor
  · intro x hx i v hv
    obtain ⟨hquest, hupper⟩ := mem_required_iff.mp hv
    have hs := (hvalue i).1 hquest
    have hlearned : v ∈ (hypothesis (learned confirmValue b).s).required i := by
      rw [mem_required_iff, hs]
      exact ⟨hquest, hupper⟩
    exact (mem_required_learned_s hp hconcrete).mp hlearned x hx
  · intro j hquest hstar
    have hg := (hvalue j).2 hquest
    have hnegative : negatives confirmValue b ≠ [] := by
      intro hnone
      rw [← hg, learned_g hps, if_pos hnone] at hquest hstar
      split_ifs at hquest hstar
      · exact hstar rfl
      · exact hquest rfl
    have hlearned : (result.g j).map Char.toUpper ∈
        (hypothesis (learned confirmValue b).g).required j := by
      rw [mem_required_iff, hg]
      exact ⟨hquest, rfl⟩
    exact (mem_required_learned_g hp hconcrete hnegative).mp hlearned

variable {disk : Disk} {tableId : Text} {totalRows totalThreads : ℕ}

/-- Whatever the order in which the splits of a table finish, the merged `s` covers
every positive row, and each value of the merged `g` tells the positive rows from
the negative rows that were compared. -/
theorem merged_sound (hpresent : totalRows < (fileLines disk tableId).length)
    (hcells : PlainCells disk tableId totalRows) {finals : List (CandidateElimination n)}
    (hfinals : List.Forall₂ (fun range final =>
        (CandidateElimination.new n disk tableId confirmValue range).RunsTo final)
      (splitRanges totalRows totalThreads) finals)
    {results : List (CeResultExportObject n)}
    (hresults : results.Perm (finals.map (·.candidateEliminationEnd))) {result : CeFinalize n}
    (h : aggrigateResults results = some result) :
    (∀ x ∈ positiveExamples confirmValue (readRows n (fileLines disk tableId) 1 totalRows),
        (hypothesis result.s).Covers x) ∧
      ∀ j, result.g j ≠ quest → result.g j ≠ star →
        (literal j ((result.g j).map Char.toUpper)).Consistent
          (positiveExamples confirmValue (readRows n (fileLines disk tableId) 1 totalRows))
          (negativeExamples confirmValue (comparedRows confirmValue
            (splits n (fileLines disk tableId) totalRows totalThreads))) := by
  set blocks := splits n (fileLines disk tableId) totalRows totalThreads with hblocks
  have hrows : blocks.flatten = readRows n (fileLines disk tableId) 1 totalRows :=
    flatten_splits ..
  have hplain : ∀ b ∈ blocks, ∀ row ∈ b, row.Concrete := fun b hb row hrow =>
    hcells.concrete (hrows ▸ List.mem_flatten_of_mem hb hrow)
  have hexports : finals.map (·.candidateEliminationEnd) = blocks.map (learned confirmValue) := by
    have hconcrete : ∀ p ∈ positives confirmValue
        (readRows n (fileLines disk tableId) 1 totalRows), p.Concrete :=
      fun p hp => hcells.concrete (List.mem_filter.mp hp).1
    have hruns : ∀ b ∈ splitBlocks totalRows totalThreads, _ := fun b hb =>
      split_runs hpresent hconcrete hb
    rw [splitRanges_eq, List.forall₂_map_left_iff] at hfinals
    rw [Loop.map_ends hruns hfinals, hblocks, splits_eq, List.map_map]
    rfl
  rw [hexports] at hresults
  have hcommon : ∀ b ∈ blocks, positives confirmValue b ≠ [] → _ := fun b hb hpositive =>
    merged_block hplain hresults h hb hpositive
  rw [← hrows]
  constructor
  · rintro x ⟨row, hrow, rfl⟩
    obtain ⟨b, hb, hrow⟩ := mem_positives_flatten.mp hrow
    exact (hcommon b hb (List.ne_nil_of_mem hrow)).1 _ ⟨row, hrow, rfl⟩
  · intro j hquest hstar
    constructor
    · rintro x ⟨row, hrow, rfl⟩
      obtain ⟨b, hb, hrow⟩ := mem_positives_flatten.mp hrow
      exact ((hcommon b hb (List.ne_nil_of_mem hrow)).2 j hquest hstar).covers _ ⟨row, hrow, rfl⟩
    · rintro x ⟨row, hrow, rfl⟩
      obtain ⟨b, hb, hrow⟩ := mem_negatives_flatten.mp hrow
      obtain ⟨hb, hpositive⟩ := List.mem_filter.mp hb
      exact ((hcommon b hb (of_decide_eq_true hpositive)).2 j hquest hstar).rejects _
        ⟨row, hrow, rfl⟩

/-- Two splits that finish in reverse order. -/
theorem merged_sound_reversed :
    ∃ (finals : List (CandidateElimination 1)) (result : CeFinalize 1),
      aggrigateResults (finals.map (·.candidateEliminationEnd)).reverse = some result ∧
        ∀ x ∈ positiveExamples ['y'] (readRows 1 (fileLines threeLines ['t']) 1 3),
          (hypothesis result.s).Covers x := by
  have hpresent : 3 < (fileLines threeLines ['t']).length := by decide
  obtain ⟨finals, hfinals⟩ := exists_split_runs 1 ['y'] 2 hpresent
  obtain ⟨result, hresult⟩ := aggrigateLoop_isSome (n := 1) (by decide)
    ⟨0, 0, fun _ => [], fun _ => []⟩ false (finals.map (·.candidateEliminationEnd)).reverse
  exact ⟨finals, result, hresult,
    (merged_sound hpresent (by decide) hfinals (List.reverse_perm _) hresult).1⟩

end Merged

end WorkerUnit
