import WorkerUnit.Library.Loop
import WorkerUnit.Scheduler.Job
import WorkerUnit.Services.FileDataBaseAccess

/-!
# Candidate elimination on one split

`algorithm/candidate_elemination.cpp`. A table of `n + 1` columns has `n`
attributes and a target column behind them, so the vectors `s` and `g` have `n`
entries. A row is used when it has `n + 1` cells; a result `none` stands for a
row past the end of the file. The row cursor is a plain number: with `R + 1 < 2 ^ 31`
rows it is an `int` at every call of a split (`wrapInt_start_of_visited`).
-/

namespace WorkerUnit

open FileDataBaseAccess

def star : Text := ['*']

def quest : Text := ['?']

abbrev Row (n : ℕ) := Fin (n + 1) → Text

/-- The target column of a row. -/
def Row.target {n : ℕ} (row : Row n) : Text := row (Fin.last n)

/-- The attribute columns of a row. -/
def Row.attribute {n : ℕ} (row : Row n) (i : Fin n) : Text := row i.castSucc

/-- The row that a list of cells is, when its size is right. -/
def sizedRow (n : ℕ) (feild : List Text) : Option (Row n) :=
  if h : feild.length = n + 1 then some fun i => feild.get (i.cast h.symm) else none

/-- A row has the cells of its list. -/
theorem sizedRow_eq_some {n : ℕ} {feild : List Text} {row : Row n}
    (h : sizedRow n feild = some row) (i : Fin (n + 1)) : feild[i.val]? = some (row i) := by
  unfold sizedRow at h
  split_ifs at h with hlength
  cases h
  have hi : i.val < feild.length := by omega
  rw [List.getElem?_eq_getElem hi]
  rfl

structure CandidateElimination (n : ℕ) where
  totalPositives : ℤ
  totalNegatives : ℤ
  s : Fin n → Text
  g : Fin n → Text
  confirmValue : Text
  start : ℤ
  endRow : ℤ
  startSet : Bool
  fileDataBaseAccess : FileDataBaseAccess
  deriving DecidableEq

structure CeResultExportObject (n : ℕ) where
  totalPositives : ℤ
  totalNegatives : ℤ
  s : Fin n → Text
  g : Fin n → Text
  deriving DecidableEq

namespace CandidateElimination

variable {n : ℕ} [BoostIequals]

/-- The constructor, with the confirm value it has looked up. -/
def new (n : ℕ) (disk : Disk) (tableId confirmValue : Text) (range : ℤ × ℤ) :
    CandidateElimination n :=
  ⟨0, 0, fun _ => star, fun _ => star, confirmValue, range.1, range.2, false,
    openFile disk tableId .readFile⟩

def compare (ce : CandidateElimination n) (valueList : Row n) : CandidateElimination n :=
  if iequals valueList.target ce.confirmValue then
    { ce with
      totalPositives := ce.totalPositives + 1
      s := fun i =>
        if ce.s i = star then valueList.attribute i
        else if iequals (ce.s i) (valueList.attribute i) then ce.s i else quest
      g := fun i =>
        if ce.s i = star then ce.g i
        else if iequals (ce.s i) (valueList.attribute i) then ce.g i else quest }
  else
    { ce with
      totalNegatives := ce.totalNegatives + 1
      g := fun i =>
        if ¬ iequals (ce.s i) (valueList.attribute i) ∧ ¬ iequals (ce.g i) quest then ce.s i
        else quest }

def getNextRow (ce : CandidateElimination n) : ℤ × CandidateElimination n :=
  if ce.start ≤ ce.endRow then (ce.start, { ce with start := ce.start + 1 }) else (-1, ce)

/-- The loop of `getFirstPostive` over the next rows. -/
def firstPostiveFrom (ce : CandidateElimination n) (startRow : ℤ) : ℕ → Option (Option (Row n))
  | 0 => some none
  | k + 1 =>
    match ce.fileDataBaseAccess.getRowValueList startRow with
    | none => none
    | some feild =>
      match sizedRow n feild with
      | some row =>
        if iequals row.target ce.confirmValue then some (some row)
        else firstPostiveFrom ce (startRow + 1) k
      | none => firstPostiveFrom ce (startRow + 1) k

def getFirstPostive (ce : CandidateElimination n) : Option (Option (Row n)) :=
  ce.firstPostiveFrom ce.start (ce.endRow + 1 - ce.start).toNat

def candidateEliminationStart (ce : CandidateElimination n) :
    Option (JobStatus × CandidateElimination n) :=
  if ¬ ce.startSet then
    match ce.getFirstPostive with
    | none => none
    | some none => some (.done, ce)
    | some (some feild) => some (.pending, { ce.compare feild with startSet := true })
  else
    let (rowIndex, ce) := ce.getNextRow
    if rowIndex < 0 then some (.done, ce)
    else match ce.fileDataBaseAccess.getRowValueList rowIndex with
      | none => none
      | some feild =>
        match sizedRow n feild with
        | some row => some (.pending, ce.compare row)
        | none => some (.pending, ce)

def candidateEliminationEnd (ce : CandidateElimination n) : CeResultExportObject n :=
  ⟨ce.totalPositives - 1, ce.totalNegatives, ce.s, ce.g⟩

/-- The calls of `candidate_elimination_start` up to `JOB_DONE`. -/
def RunsTo (ce final : CandidateElimination n) : Prop :=
  Loop.Ends candidateEliminationStart (· = .done) ce final

end CandidateElimination

/-! The purpose of the computation, in terms of the rows alone. -/

section Rows

/-- The row in a line, when the line is there and has the right size. -/
def rowAt (n : ℕ) (lines : List Text) (r : ℕ) : Option (Row n) :=
  lines[r]?.bind fun line => sizedRow n (advTokenizer line ',')

/-- The rows of the right size among `k` lines from line `a` on. -/
def readRows (n : ℕ) (lines : List Text) (a k : ℕ) : List (Row n) :=
  (List.range' a k).filterMap (rowAt n lines)

theorem readRows_succ (n : ℕ) (lines : List Text) (a k : ℕ) :
    readRows n lines a (k + 1) = (rowAt n lines a).toList ++ readRows n lines (a + 1) k := by
  rw [readRows, List.range'_succ, List.filterMap_cons, readRows]
  cases rowAt n lines a <;> rfl

/-- Adjoining stretches of lines. -/
theorem readRows_append (n : ℕ) (lines : List Text) (a k m : ℕ) :
    readRows n lines a k ++ readRows n lines (a + k) m = readRows n lines a (k + m) := by
  simp only [readRows, ← List.filterMap_append]
  rw [← List.range'_append_1]

variable {n : ℕ} [BoostIequals] (confirmValue : Text)

def positives (rows : List (Row n)) : List (Row n) :=
  rows.filter fun row => iequals row.target confirmValue

def negatives (rows : List (Row n)) : List (Row n) :=
  rows.filter fun row => !iequals row.target confirmValue

/-- The positive rows have one value of attribute `j`, up to case. -/
def AgreeAt (rows : List (Row n)) (j : Fin n) : Prop :=
  ∀ p ∈ positives confirmValue rows, ∀ q ∈ positives confirmValue rows,
    iequals (p.attribute j) (q.attribute j)

/-- A negative row has the value of a positive row in attribute `j`, up to case. -/
def RefutedAt (rows : List (Row n)) (j : Fin n) : Prop :=
  ∃ p ∈ positives confirmValue rows, ∃ x ∈ negatives confirmValue rows,
    iequals (p.attribute j) (x.attribute j)

instance (rows : List (Row n)) (j : Fin n) : Decidable (AgreeAt confirmValue rows j) :=
  inferInstanceAs (Decidable (∀ p ∈ _, ∀ q ∈ _, _))

instance (rows : List (Row n)) (j : Fin n) : Decidable (RefutedAt confirmValue rows j) :=
  inferInstanceAs (Decidable (∃ p ∈ _, ∃ x ∈ _, _))

/-- The positive rows have the value of `p` in attribute `j`, up to case. -/
def FitsAt (p : Row n) (rows : List (Row n)) (j : Fin n) : Prop :=
  ∀ q ∈ positives confirmValue rows, iequals (p.attribute j) (q.attribute j)

/-- No negative row has the value of `p` in attribute `j`, up to case. -/
def ClearAt (p : Row n) (rows : List (Row n)) (j : Fin n) : Prop :=
  ∀ x ∈ negatives confirmValue rows, ¬ iequals (p.attribute j) (x.attribute j)

instance (p : Row n) (rows : List (Row n)) (j : Fin n) : Decidable (FitsAt confirmValue p rows j) :=
  inferInstanceAs (Decidable (∀ q ∈ _, _))

instance (p : Row n) (rows : List (Row n)) (j : Fin n) :
    Decidable (ClearAt confirmValue p rows j) :=
  inferInstanceAs (Decidable (∀ x ∈ _, _))

/-- What `s` is after the rows, when `p` is the first positive row. -/
def learnedS (p : Row n) (rows : List (Row n)) (j : Fin n) : Text :=
  if FitsAt confirmValue p rows j then p.attribute j else quest

/-- What `g` is after the rows, when `p` is the first positive row. -/
def learnedG (p : Row n) (rows : List (Row n)) (j : Fin n) : Text :=
  if FitsAt confirmValue p rows j ∧ ClearAt confirmValue p rows j then
    if negatives confirmValue rows = [] then star else p.attribute j
  else quest

/-- No attribute of the row is spelled like an unset or a general value. -/
def Row.Concrete (row : Row n) : Prop := ∀ j, row.attribute j ≠ star ∧ row.attribute j ≠ quest

instance (row : Row n) : Decidable row.Concrete :=
  inferInstanceAs (Decidable (∀ _, _ ∧ _))

variable {confirmValue}

theorem positives_snoc_of_positive {x : Row n} (hx : iequals x.target confirmValue = true)
    (rows : List (Row n)) :
    positives confirmValue (rows ++ [x]) = positives confirmValue rows ++ [x] := by
  simp [positives, hx]

theorem positives_snoc_of_negative {x : Row n} (hx : iequals x.target confirmValue = false)
    (rows : List (Row n)) :
    positives confirmValue (rows ++ [x]) = positives confirmValue rows := by
  simp [positives, hx]

theorem negatives_snoc_of_positive {x : Row n} (hx : iequals x.target confirmValue = true)
    (rows : List (Row n)) :
    negatives confirmValue (rows ++ [x]) = negatives confirmValue rows := by
  simp [negatives, hx]

theorem negatives_snoc_of_negative {x : Row n} (hx : iequals x.target confirmValue = false)
    (rows : List (Row n)) :
    negatives confirmValue (rows ++ [x]) = negatives confirmValue rows ++ [x] := by
  simp [negatives, hx]

theorem fitsAt_snoc_of_positive {x : Row n} (hx : iequals x.target confirmValue = true)
    (p : Row n) (rows : List (Row n)) (j : Fin n) :
    FitsAt confirmValue p (rows ++ [x]) j ↔
      FitsAt confirmValue p rows j ∧ iequals (p.attribute j) (x.attribute j) = true := by
  simp only [FitsAt, positives_snoc_of_positive hx, List.forall_mem_append,
    List.forall_mem_singleton]

theorem clearAt_snoc_of_negative {x : Row n} (hx : iequals x.target confirmValue = false)
    (p : Row n) (rows : List (Row n)) (j : Fin n) :
    ClearAt confirmValue p (rows ++ [x]) j ↔
      ClearAt confirmValue p rows j ∧ ¬ iequals (p.attribute j) (x.attribute j) = true := by
  simp only [ClearAt, negatives_snoc_of_negative hx, List.forall_mem_append,
    List.forall_mem_singleton]

theorem clearAt_snoc_of_positive {x : Row n} (hx : iequals x.target confirmValue = true)
    (p : Row n) (rows : List (Row n)) (j : Fin n) :
    ClearAt confirmValue p (rows ++ [x]) j ↔ ClearAt confirmValue p rows j := by
  rw [ClearAt, negatives_snoc_of_positive hx, ClearAt]

theorem fitsAt_snoc_of_negative {x : Row n} (hx : iequals x.target confirmValue = false)
    (p : Row n) (rows : List (Row n)) (j : Fin n) :
    FitsAt confirmValue p (rows ++ [x]) j ↔ FitsAt confirmValue p rows j := by
  rw [FitsAt, positives_snoc_of_negative hx, FitsAt]

end Rows

namespace CandidateElimination

/-- The cursor moves on to the row behind the split at most, and nothing else changes. -/
theorem getNextRow_frame {n : ℕ} (ce : CandidateElimination n) :
    ce.getNextRow.2.fileDataBaseAccess = ce.fileDataBaseAccess ∧
      ce.getNextRow.2.endRow = ce.endRow ∧ ce.start ≤ ce.getNextRow.2.start ∧
      ce.getNextRow.2.start ≤ max ce.start (ce.endRow + 1) := by
  unfold getNextRow
  split_ifs with hrow
  · exact ⟨rfl, rfl, by simp, by simp [hrow]⟩
  · exact ⟨rfl, rfl, le_rfl, le_max_left ..⟩

variable {n : ℕ} [BoostIequals] {ce : CandidateElimination n} {p : Row n}

theorem compare_of_positive {x : Row n} (h : iequals x.target ce.confirmValue = true) :
    ce.compare x =
      { ce with
        totalPositives := ce.totalPositives + 1
        s := fun i =>
          if ce.s i = star then x.attribute i
          else if iequals (ce.s i) (x.attribute i) then ce.s i else quest
        g := fun i =>
          if ce.s i = star then ce.g i
          else if iequals (ce.s i) (x.attribute i) then ce.g i else quest } := by
  simp [compare, h]

theorem compare_of_negative {x : Row n} (h : iequals x.target ce.confirmValue = false) :
    ce.compare x =
      { ce with
        totalNegatives := ce.totalNegatives + 1
        g := fun i =>
          if ¬ iequals (ce.s i) (x.attribute i) ∧ ¬ iequals (ce.g i) quest then ce.s i
          else quest } := by
  simp [compare, h]

/-- A row is counted once, as positive or as negative. -/
theorem compare_eq (ce : CandidateElimination n) (x : Row n) :
    ce.compare x =
      { ce with
        totalPositives := ce.totalPositives + (positives ce.confirmValue [x]).length
        totalNegatives := ce.totalNegatives + (negatives ce.confirmValue [x]).length
        s := (ce.compare x).s
        g := (ce.compare x).g } := by
  cases hx : iequals x.target ce.confirmValue with
  | true =>
    rw [compare_of_positive hx]
    simp [positives, negatives, hx]
  | false =>
    rw [compare_of_negative hx]
    simp [positives, negatives, hx]

/-- A positive row keeps the values of `s` that it agrees with. -/
theorem compare_learned_of_positive (ce : CandidateElimination n) (hp : p.Concrete)
    (rows : List (Row n)) {x : Row n} (hx : iequals x.target ce.confirmValue = true)
    (hs : ce.s = learnedS ce.confirmValue p rows) (hg : ce.g = learnedG ce.confirmValue p rows) :
    (ce.compare x).s = learnedS ce.confirmValue p (rows ++ [x]) ∧
      (ce.compare x).g = learnedG ce.confirmValue p (rows ++ [x]) := by
  have hstar : ∀ j, ce.s j ≠ star := by
    intro j
    rw [hs, learnedS]
    split_ifs
    · exact (hp j).1
    · decide
  rw [compare_of_positive hx]
  simp only [hstar, if_false]
  simp only [hs, hg]
  constructor
  · funext j
    simp only [learnedS, fitsAt_snoc_of_positive hx]
    by_cases hfits : FitsAt ce.confirmValue p rows j
    · simp [hfits]
    · simp [hfits]
  · funext j
    simp only [learnedS, learnedG, fitsAt_snoc_of_positive hx, clearAt_snoc_of_positive hx,
      negatives_snoc_of_positive hx]
    by_cases hfits : FitsAt ce.confirmValue p rows j
    · cases hxj : iequals (p.attribute j) (x.attribute j) <;> simp [hfits, hxj]
    · simp [hfits]

/-- A negative row leaves `s` alone and clears `g` where it agrees with `s`. -/
theorem compare_learned_of_negative (ce : CandidateElimination n) (hp : p.Concrete)
    (rows : List (Row n)) {x : Row n} (hx : iequals x.target ce.confirmValue = false)
    (hs : ce.s = learnedS ce.confirmValue p rows) (hg : ce.g = learnedG ce.confirmValue p rows) :
    (ce.compare x).s = learnedS ce.confirmValue p (rows ++ [x]) ∧
      (ce.compare x).g = learnedG ce.confirmValue p (rows ++ [x]) := by
  rw [compare_of_negative hx]
  simp only [hs, hg]
  constructor
  · funext j
    simp only [learnedS, fitsAt_snoc_of_negative hx]
  · funext j
    have hquest : iequals (p.attribute j) quest = false :=
      Bool.eq_false_iff.mpr fun h => (hp j).2 (iequals_quest.mp h)
    have hunset : iequals star quest = false :=
      Bool.eq_false_iff.mpr fun h => absurd (iequals_quest.mp h) (by decide)
    simp only [learnedS, learnedG, fitsAt_snoc_of_negative hx, clearAt_snoc_of_negative hx,
      negatives_snoc_of_negative hx]
    by_cases hfits : FitsAt ce.confirmValue p rows j
    · by_cases hclear : ClearAt ce.confirmValue p rows j
      · by_cases hnone : negatives ce.confirmValue rows = []
        · simp [hfits, hclear, hnone, hunset]
        · simp [hfits, hclear, hnone, hquest]
      · simp [hfits, hclear]
    · simp [hfits]

/-- One more row keeps `s` and `g` what the rows so far say. -/
theorem compare_learned (ce : CandidateElimination n) (hp : p.Concrete) (rows : List (Row n))
    (x : Row n) (hs : ce.s = learnedS ce.confirmValue p rows)
    (hg : ce.g = learnedG ce.confirmValue p rows) :
    (ce.compare x).s = learnedS ce.confirmValue p (rows ++ [x]) ∧
      (ce.compare x).g = learnedG ce.confirmValue p (rows ++ [x]) := by
  cases hx : iequals x.target ce.confirmValue with
  | true => exact ce.compare_learned_of_positive hp rows hx hs hg
  | false => exact ce.compare_learned_of_negative hp rows hx hs hg

/-- What the rows make of a split that has just learned its first positive row. -/
theorem foldl_compare (hp : p.Concrete) (hs : ce.s = p.attribute) (hg : ce.g = fun _ => star)
    (rows : List (Row n)) :
    rows.foldl compare ce =
      { ce with
        totalPositives := ce.totalPositives + (positives ce.confirmValue rows).length
        totalNegatives := ce.totalNegatives + (negatives ce.confirmValue rows).length
        s := learnedS ce.confirmValue p rows
        g := learnedG ce.confirmValue p rows } := by
  induction rows using List.reverseRecOn with
  | nil =>
    have hs' : learnedS ce.confirmValue p [] = ce.s := by
      rw [hs]
      funext j
      simp [learnedS, FitsAt, positives]
    have hg' : learnedG ce.confirmValue p [] = ce.g := by
      rw [hg]
      funext j
      simp [learnedG, FitsAt, ClearAt, positives, negatives]
    simp [positives, negatives, hs', hg']
  | append_singleton rows x ih =>
    rw [List.foldl_append, List.foldl_cons, List.foldl_nil, ih]
    set mid : CandidateElimination n := { ce with
      totalPositives := ce.totalPositives + (positives ce.confirmValue rows).length
      totalNegatives := ce.totalNegatives + (negatives ce.confirmValue rows).length
      s := learnedS ce.confirmValue p rows
      g := learnedG ce.confirmValue p rows } with hmid
    obtain ⟨hlearnedS, hlearnedG⟩ := compare_learned mid hp rows x rfl rfl
    rw [compare_eq, hlearnedS, hlearnedG]
    simp only [hmid, positives, negatives, List.filter_append, List.length_append, Nat.cast_add,
      add_assoc]

variable {disk : Disk} {tableId : Text}

theorem compare_frame (ce : CandidateElimination n) (x : Row n) :
    (ce.compare x).fileDataBaseAccess = ce.fileDataBaseAccess ∧
      (ce.compare x).startSet = ce.startSet ∧ (ce.compare x).start = ce.start ∧
      (ce.compare x).endRow = ce.endRow := by
  rw [compare_eq]
  exact ⟨rfl, rfl, rfl, rfl⟩

theorem compare_start (ce : CandidateElimination n) (x : Row n) (y : ℤ) :
    { ce with start := y }.compare x = { ce.compare x with start := y } := by
  unfold compare
  split_ifs <;> rfl

theorem foldl_compare_start (rows : List (Row n)) (ce : CandidateElimination n) (y : ℤ) :
    rows.foldl compare { ce with start := y } = { rows.foldl compare ce with start := y } := by
  induction rows generalizing ce with
  | nil => rfl
  | cons x rows ih => rw [List.foldl_cons, compare_start, ih, List.foldl_cons]

theorem foldl_compare_frame (rows : List (Row n)) (ce : CandidateElimination n) :
    (rows.foldl compare ce).fileDataBaseAccess = ce.fileDataBaseAccess ∧
      (rows.foldl compare ce).startSet = ce.startSet ∧
      (rows.foldl compare ce).start = ce.start ∧
      (rows.foldl compare ce).endRow = ce.endRow := by
  induction rows generalizing ce with
  | nil => exact ⟨rfl, rfl, rfl, rfl⟩
  | cons x rows ih =>
    obtain ⟨hfile, hset, hstart, hend⟩ := compare_frame ce x
    rw [List.foldl_cons, ← hfile, ← hset, ← hstart, ← hend]
    exact ih (ce.compare x)

/-- The first positive row among lines that are all in the file. -/
theorem firstPostiveFrom_eq (hfile : ce.fileDataBaseAccess = openFile disk tableId .readFile)
    (a k : ℕ) (hin : a + k ≤ (fileLines disk tableId).length) :
    ce.firstPostiveFrom a k =
      some (positives ce.confirmValue (readRows n (fileLines disk tableId) a k)).head? := by
  induction k generalizing a with
  | zero => rfl
  | succ k ih =>
    have hline : a < (fileLines disk tableId).length := by omega
    have hrest := ih (a + 1) (by omega)
    rw [Nat.cast_succ] at hrest
    rw [firstPostiveFrom, hfile, getRowValueList_readFile, List.getElem?_eq_getElem hline,
      readRows_succ, rowAt, List.getElem?_eq_getElem hline]
    simp only [Option.map_some, Option.bind_some]
    cases sizedRow n (advTokenizer (fileLines disk tableId)[a] ',') with
    | none => exact hrest
    | some row =>
      cases hrow : iequals row.target ce.confirmValue with
      | true => simp [positives, hrow]
      | false =>
        rw [positives] at hrest
        simpa [positives, hrow] using hrest

theorem candidateEliminationStart_of_no_positive (ce : CandidateElimination n)
    (hset : ce.startSet = false)
    (h : ce.getFirstPostive = some none) : ce.candidateEliminationStart = some (.done, ce) := by
  simp [candidateEliminationStart, hset, h]

theorem candidateEliminationStart_of_positive (hset : ce.startSet = false)
    (h : ce.getFirstPostive = some (some p)) :
    ce.candidateEliminationStart = some (.pending, { ce.compare p with startSet := true }) := by
  simp [candidateEliminationStart, hset, h]

/-- A call on a split that still has a row in the file compares it. -/
theorem candidateEliminationStart_row
    (hfile : ce.fileDataBaseAccess = openFile disk tableId .readFile) (hset : ce.startSet = true)
    (a : ℕ) (hstart : ce.start = a) (hend : (a : ℤ) ≤ ce.endRow)
    (hin : a < (fileLines disk tableId).length) :
    ce.candidateEliminationStart = some (.pending,
      (readRows n (fileLines disk tableId) a 1).foldl compare { ce with start := a + 1 }) := by
  have hnext : ¬ (a : ℤ) < 0 := by omega
  unfold candidateEliminationStart getNextRow
  simp only [hset, hstart, hend, hfile, if_true, hnext, if_false, not_true_eq_false]
  rw [getRowValueList_readFile, readRows_succ, rowAt, List.getElem?_eq_getElem hin]
  simp only [Option.map_some, Option.bind_some]
  cases sizedRow n (advTokenizer (fileLines disk tableId)[a] ',') with
  | none => rfl
  | some row => rfl

/-- A call keeps the file and the end of the split, and moves on to the row behind the
split at most. -/
theorem candidateEliminationStart_frame {status : JobStatus} {ce' : CandidateElimination n}
    (h : ce.candidateEliminationStart = some (status, ce')) :
    ce'.fileDataBaseAccess = ce.fileDataBaseAccess ∧ ce'.endRow = ce.endRow ∧
      ce.start ≤ ce'.start ∧ ce'.start ≤ max ce.start (ce.endRow + 1) := by
  cases hset : ce.startSet with
  | false =>
    cases hfirst : ce.getFirstPostive with
    | none => simp [candidateEliminationStart, hset, hfirst] at h
    | some first =>
      cases first with
      | none =>
        rw [candidateEliminationStart_of_no_positive ce hset hfirst] at h
        cases h
        exact ⟨rfl, rfl, le_rfl, le_max_left ..⟩
      | some p =>
        rw [candidateEliminationStart_of_positive hset hfirst] at h
        cases h
        obtain ⟨hfile, _, hstart, hend⟩ := compare_frame ce p
        exact ⟨hfile, hend, hstart.ge, hstart.le.trans (le_max_left ..)⟩
  | true =>
    have hnext := ce.getNextRow_frame
    unfold candidateEliminationStart at h
    simp only [hset, not_true_eq_false, if_false] at h
    split_ifs at h with hrow
    · cases h
      exact hnext
    · cases hfeild : ce.getNextRow.2.fileDataBaseAccess.getRowValueList ce.getNextRow.1 with
      | none => simp [hfeild] at h
      | some feild =>
        simp only [hfeild] at h
        cases hsized : sizedRow n feild with
        | none =>
          simp only [hsized] at h
          cases h
          exact hnext
        | some row =>
          simp only [hsized] at h
          cases h
          obtain ⟨hfile, _, hstart, hend⟩ := compare_frame ce.getNextRow.2 row
          exact ⟨hfile.trans hnext.1, hend.trans hnext.2.1, hnext.2.2.1.trans hstart.ge,
            hstart.le.trans hnext.2.2.2⟩

/-- A call on a split whose rows are in the file finds the rows it asks for. -/
theorem candidateEliminationStart_isSome
    (hfile : ce.fileDataBaseAccess = openFile disk tableId .readFile) (hstart : 0 ≤ ce.start)
    (hend : ce.endRow < (fileLines disk tableId).length) :
    ce.candidateEliminationStart.isSome := by
  obtain ⟨a, ha⟩ := Int.eq_ofNat_of_zero_le hstart
  cases hset : ce.startSet with
  | false =>
    have hfirst : ∃ first, ce.getFirstPostive = some first := by
      by_cases hle : ce.start ≤ ce.endRow
      · rw [getFirstPostive, ha]
        exact ⟨_, firstPostiveFrom_eq hfile a _ (by omega)⟩
      · have hnone : (ce.endRow + 1 - ce.start).toNat = 0 := by omega
        rw [getFirstPostive, hnone]
        exact ⟨none, rfl⟩
    obtain ⟨first, hfirst⟩ := hfirst
    cases first with
    | none => simp [candidateEliminationStart_of_no_positive ce hset hfirst]
    | some p => simp [candidateEliminationStart_of_positive hset hfirst]
  | true =>
    by_cases hle : (a : ℤ) ≤ ce.endRow
    · rw [candidateEliminationStart_row hfile hset a ha hle (by omega)]
      rfl
    · have hover : ¬ ce.start ≤ ce.endRow := by omega
      simp [candidateEliminationStart, getNextRow, hset, hover]

/-- The rows from the next one to the end of the split are compared in order. -/
theorem runsTo_rows (ce : CandidateElimination n) (k : ℕ)
    (hfile : ce.fileDataBaseAccess = openFile disk tableId .readFile)
    (hset : ce.startSet = true) (a : ℕ) (hstart : ce.start = a) (hend : ce.endRow = a + k - 1)
    (hin : a + k ≤ (fileLines disk tableId).length) :
    ce.RunsTo ((readRows n (fileLines disk tableId) a k).foldl compare
      { ce with start := (a : ℤ) + k }) := by
  induction k generalizing ce a with
  | zero =>
    have hdone : ce.candidateEliminationStart = some (.done, ce) := by
      have hover : ¬ ce.start ≤ ce.endRow := by omega
      simp [candidateEliminationStart, getNextRow, hset, hover]
    have hsame : { ce with start := (a : ℤ) + (0 : ℕ) } = ce := by
      rw [Nat.cast_zero, add_zero, ← hstart]
    rw [hsame]
    exact Loop.Ends.of_stop hdone (by rfl)
  | succ k ih =>
    have hrow := candidateEliminationStart_row hfile hset a hstart (by omega) (by omega)
    obtain ⟨hfile', hset', hstart', hend'⟩ := foldl_compare_frame
      (readRows n (fileLines disk tableId) a 1) { ce with start := (a : ℤ) + 1 }
    obtain ⟨fuel, hrun⟩ := ih _ (hfile'.trans hfile) (hset'.trans hset) (a + 1)
      (by rw [hstart', Nat.cast_succ]) (by rw [hend', hend]; push_cast; ring) (by omega)
    refine ⟨fuel + 1, (Loop.run_of_continue hrow (by rfl) fuel).trans ?_⟩
    rw [hrun, ← foldl_compare_start, ← List.foldl_append, add_comm k 1, readRows_append]
    congr 3
    push_cast
    ring

/-- The result of a split with these rows. -/
def learned (confirmValue : Text) (rows : List (Row n)) : CeResultExportObject n :=
  match positives confirmValue rows with
  | [] => ⟨-1, 0, fun _ => star, fun _ => star⟩
  | p :: _ =>
    ⟨(positives confirmValue rows).length, (negatives confirmValue rows).length,
      learnedS confirmValue p rows, learnedG confirmValue p rows⟩

/-- A new split after the first call, with its first positive row. -/
def started (ce : CandidateElimination n) (p : Row n) : CandidateElimination n :=
  { ce with totalPositives := 1, s := p.attribute, startSet := true }

/-- A split whose lines are in the file runs to `JOB_DONE`: at once without a
positive row, and otherwise after it has compared its rows with the first one. -/
theorem runsTo_compared (confirmValue : Text) (a k : ℕ)
    (hin : a + k ≤ (fileLines disk tableId).length) :
    ∃ final, (new n disk tableId confirmValue (a, a + k - 1)).RunsTo final ∧
      final.candidateEliminationEnd =
        match positives confirmValue (readRows n (fileLines disk tableId) a k) with
        | [] => ⟨-1, 0, fun _ => star, fun _ => star⟩
        | p :: _ => candidateEliminationEnd ((readRows n (fileLines disk tableId) a k).foldl
            compare ((new n disk tableId confirmValue (a, a + k - 1)).started p)) := by
  set ce := new n disk tableId confirmValue (a, a + k - 1) with hce
  have hfirst : ce.getFirstPostive =
      some (positives confirmValue (readRows n (fileLines disk tableId) a k)).head? := by
    have hk : (ce.endRow + 1 - ce.start).toNat = k := by
      simp only [hce, new]
      omega
    rw [getFirstPostive, hk]
    exact firstPostiveFrom_eq rfl a k hin
  cases hpositives : positives confirmValue (readRows n (fileLines disk tableId) a k) with
  | nil =>
    rw [hpositives] at hfirst
    have hdone := candidateEliminationStart_of_no_positive ce rfl hfirst
    exact ⟨ce, Loop.Ends.of_stop hdone (by rfl), rfl⟩
  | cons p ps =>
    rw [hpositives] at hfirst
    have hmem : p ∈ positives confirmValue (readRows n (fileLines disk tableId) a k) := by
      rw [hpositives]
      exact List.mem_cons_self ..
    have hp : iequals p.target ce.confirmValue = true := (List.mem_filter.mp hmem).2
    have hpending : ce.candidateEliminationStart = some (.pending, ce.started p) := by
      rw [candidateEliminationStart_of_positive rfl hfirst, compare_of_positive hp]
      rfl
    have hrows := runsTo_rows (ce.started p) k rfl rfl a rfl rfl hin
    refine ⟨_, Loop.Ends.of_continue hpending (by rfl) hrows, ?_⟩
    rw [foldl_compare_start]
    rfl

/-- A split whose lines are in the file runs to `JOB_DONE` and exports what its
rows say. -/
theorem runsTo_learned (confirmValue : Text) (a k : ℕ)
    (hin : a + k ≤ (fileLines disk tableId).length)
    (hconcrete : ∀ p ∈ positives confirmValue (readRows n (fileLines disk tableId) a k),
      p.Concrete) :
    ∃ final, (new n disk tableId confirmValue (a, a + k - 1)).RunsTo final ∧
      final.candidateEliminationEnd =
        learned confirmValue (readRows n (fileLines disk tableId) a k) := by
  obtain ⟨final, hrun, hfinal⟩ := runsTo_compared (n := n) confirmValue a k hin
  refine ⟨final, hrun, hfinal.trans ?_⟩
  cases hpositives : positives confirmValue (readRows n (fileLines disk tableId) a k) with
  | nil => rw [learned, hpositives]
  | cons p ps =>
    have hp : p.Concrete := hconcrete p (hpositives ▸ List.mem_cons_self ..)
    dsimp only
    rw [foldl_compare hp rfl rfl, learned, hpositives]
    simp only [candidateEliminationEnd, started, new, hpositives]
    congr 1 <;> ring

/-- Whatever the cells, a row is counted once. -/
theorem foldl_compare_totals (rows : List (Row n)) (ce : CandidateElimination n) :
    (rows.foldl compare ce).totalPositives =
        ce.totalPositives + (positives ce.confirmValue rows).length ∧
      (rows.foldl compare ce).totalNegatives =
        ce.totalNegatives + (negatives ce.confirmValue rows).length := by
  induction rows generalizing ce with
  | nil => simp [positives, negatives]
  | cons x rows ih =>
    obtain ⟨hpos, hneg⟩ := ih (ce.compare x)
    rw [List.foldl_cons, hpos, hneg, compare_eq ce x]
    cases hx : iequals x.target ce.confirmValue with
    | true => simp [positives, negatives, hx, add_assoc, add_comm]
    | false => simp [positives, negatives, hx, add_assoc, add_comm]

/-- The totals of a split do not depend on how its cells are spelled. -/
theorem runsTo_totals (confirmValue : Text) (a k : ℕ)
    (hin : a + k ≤ (fileLines disk tableId).length) :
    ∃ final, (new n disk tableId confirmValue (a, a + k - 1)).RunsTo final ∧
      (final.candidateEliminationEnd.totalPositives,
          final.candidateEliminationEnd.totalNegatives) =
        ((learned confirmValue (readRows n (fileLines disk tableId) a k)).totalPositives,
          (learned confirmValue (readRows n (fileLines disk tableId) a k)).totalNegatives) := by
  obtain ⟨final, hrun, hfinal⟩ := runsTo_compared (n := n) confirmValue a k hin
  refine ⟨final, hrun, ?_⟩
  rw [hfinal, learned]
  cases hpositives : positives confirmValue (readRows n (fileLines disk tableId) a k) with
  | nil => rfl
  | cons p ps =>
    obtain ⟨hpos, hneg⟩ := foldl_compare_totals (readRows n (fileLines disk tableId) a k)
      ((new n disk tableId confirmValue (a, a + k - 1)).started p)
    dsimp only [started, new] at hpos hneg
    simp only [candidateEliminationEnd, started, new, hpos, hneg, hpositives]
    congr 1 <;> ring

end CandidateElimination

end WorkerUnit
