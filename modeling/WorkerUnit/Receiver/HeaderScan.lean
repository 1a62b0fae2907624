import WorkerUnit.Receiver.InstanceRows
import WorkerUnit.Receiver.Rejection
import WorkerUnit.Receiver.TableMetadata

/-!
# Where the header of an instance ends

`countColumns` and `createSqlCmds` with the `int`s that they index the text with. The
first one starts in front of the text and goes on to a newline, wherever that is; the
second one stops at the end of the text.
-/

namespace WorkerUnit

open Loop

namespace InstanceDataParser

/-- What `data[i]` reads: `before` stands in front of the text and a null character
behind it, and no other place outside may be read. -/
def charAt (before : Char) (data : Text) (i : ℤ) : Option Char :=
  if i = -1 then some before
  else if i < 0 then none
  else (data ++ ['\x00'])[i.toNat]?

/-- The variables of `countColumns`, and the places it has read. -/
structure ColumnScan where
  i : ℤ
  cols : ℤ
  reads : List ℤ
  deriving DecidableEq, Repr

/-- One test of the loop, and the body when it goes on. -/
def countRound (before : Char) (data : Text) (s : ColumnScan) : Option (Bool × ColumnScan) := do
  let c ← charAt before data s.i
  let i ← checkedInt (s.i + 1)
  if c = '\n' then return (true, ⟨i, s.cols, s.reads ++ [s.i]⟩)
  else
    let d ← charAt before data i
    let cols ← (if d = ',' then checkedInt (s.cols + 1) else some s.cols)
    return (false, ⟨i, cols, s.reads ++ [s.i, i]⟩)

/-- The loop of `countColumns` ends with these values; `cols + 1` is returned. -/
def CountsColumns (before : Char) (data : Text) (scan : ColumnScan) : Prop :=
  Ends (countRound before data) id ⟨-1, 0, []⟩ scan

/-- One test of the loop over a cell. -/
def cellRound (body : Text) (i : ℤ) : Option (Bool × ℤ) :=
  match body[toSizeT i]? with
  | none => some (true, i)
  | some c => if isSeparator c then some (true, i) else (checkedInt (i + 1)).map fun i => (false, i)

/-- The place of the separator, or the length of the text. Each round but the last
goes on by one place. -/
def scanCell (body : Text) (i : ℤ) : Option ℤ := run (cellRound body) id (body.length + 1) i

/-- `substr` throws at a position behind the end. -/
def substr (body : Text) (start count : ℤ) : Option Text :=
  if toSizeT start ≤ body.length then some ((body.drop (toSizeT start)).take (toSizeT count))
  else none

/-- The loop of `createSqlCmds` from a place on, where `start` and `end` are equal: the
cells, the positions that `substr` was given, and `end`. -/
def cellsInt (body : Text) : ℕ → ℤ → Option (List Text × List ℤ × ℤ)
  | 0, start => some ([], [], start)
  | cols + 1, start => do
    let stop ← scanCell body start
    let colFeild ← substr body start (stop - start)
    let next ← checkedInt (stop + 1)
    let (cells, positions, last) ← cellsInt body cols next
    return (colFeild :: cells, start :: positions, last)

def createSqlCmdsInt (cols : ℤ) (body : Text) : Option (List Text × List ℤ × ℤ) :=
  cellsInt body cols.toNat 0

/-- The columns are counted without a read outside the text, but for places from
`lowest` on; with a newline they are those of the first line, which is taken apart at
positions inside the text, and without one the body is rejected. -/
structure HeaderLaw (lowest : ℤ) (before : Char) (body : Text) : Prop where
  reads : ∃ scan, CountsColumns before body scan ∧
    ∀ i ∈ scan.reads, lowest ≤ i ∧ i < body.length
  header : '\n' ∈ body → ∃ scan positions, CountsColumns before body scan ∧
    checkedInt (scan.cols + 1) = some (((firstLine body).count ',' : ℤ) + 1) ∧
    createSqlCmdsInt (scan.cols + 1) body =
      some (advTokenizer (firstLine body) ',', positions, ((firstLine body).length : ℤ) + 1) ∧
    ∀ i ∈ positions, 0 ≤ i ∧ i < body.length
  rejects : '\n' ∉ body → ∀ rc rand store instanceid algoType tableID, ∃ tableId store',
    processInstancePacket rc rand before store ⟨some instanceid, some body, some algoType⟩
      tableID = some (.error, tableId, store')

variable {before : Char} {body : Text} {scan : ColumnScan}

theorem charAt_append (before : Char) (text : Text) (c : Char) (rest : Text) :
    charAt before (text ++ c :: rest) text.length = some c := by
  have hlow : ¬ (text.length : ℤ) = -1 ∧ ¬ (text.length : ℤ) < 0 := by omega
  rw [charAt, if_neg hlow.1, if_neg hlow.2, Int.toNat_natCast]
  simp

theorem le_of_charAt {i : ℤ} {c : Char} (h : charAt before body i = some c) : -1 ≤ i := by
  unfold charAt at h
  split_ifs at h <;> omega

/-- What a round reads and where it goes. -/
theorem countRound_eq_some {s t : ColumnScan} {stopped : Bool}
    (h : countRound before body s = some (stopped, t)) :
    -1 ≤ s.i ∧ t.i = s.i + 1 ∧
      (t.reads = s.reads ++ [s.i] ∨ t.reads = s.reads ++ [s.i, s.i + 1]) := by
  simp only [countRound, Option.bind_eq_bind, Option.bind_eq_some_iff] at h
  obtain ⟨c, hc, i, hi, h⟩ := h
  obtain ⟨_, rfl⟩ := checkedInt_eq_some_iff.mp hi
  split_ifs at h
  · cases h
    exact ⟨le_of_charAt hc, rfl, .inl rfl⟩
  · simp only [Option.bind_eq_some_iff] at h
    obtain ⟨d, _, cols, _, h⟩ := h
    cases h
    exact ⟨le_of_charAt hc, rfl, .inr rfl⟩

/-- A round adds places to those that were read, among them the one it starts from. -/
theorem mem_reads_countRound {s t : ColumnScan} {stopped : Bool}
    (h : countRound before body s = some (stopped, t)) :
    s.i ∈ t.reads ∧ s.reads ⊆ t.reads ∧ ∀ k ∈ t.reads, k ∈ s.reads ∨ -1 ≤ k := by
  obtain ⟨hlow, _, hreads⟩ := countRound_eq_some h
  rcases hreads with hreads | hreads
  · rw [hreads]
    refine ⟨by simp, by simp, fun k hk => (List.mem_append.mp hk).imp_right fun hk => ?_⟩
    rwa [List.mem_singleton.mp hk]
  · rw [hreads]
    refine ⟨by simp, by simp, fun k hk => (List.mem_append.mp hk).imp_right fun hk => ?_⟩
    rcases List.mem_pair.mp hk with rfl | rfl <;> omega

/-- At a newline the loop stops. -/
theorem countRound_stop {i : ℤ} (hi : charAt before body i = some '\n')
    (hbound : i + 1 < 2 ^ 31) (cols : ℤ) (reads : List ℤ) :
    countRound before body ⟨i, cols, reads⟩ = some (true, ⟨i + 1, cols, reads ++ [i]⟩) := by
  have hnext : checkedInt (i + 1) = some (i + 1) := by
    have hlow := le_of_charAt hi
    rw [checkedInt_eq_some_iff]
    omega
  simp only [countRound, hi, hnext, Option.bind_eq_bind, Option.bind_some, if_true]
  rfl

/-- Behind another character the next one is looked at. -/
theorem countRound_continue {i : ℤ} {cols : ℕ} {c d : Char} (hi : charAt before body i = some c)
    (hc : c ≠ '\n') (hd : charAt before body (i + 1) = some d) (hbound : i + 2 < 2 ^ 31)
    (hcols : cols ≤ i + 1) (reads : List ℤ) :
    countRound before body ⟨i, cols, reads⟩ =
      some (false, ⟨i + 1, (cols + [d].count ',' : ℕ), reads ++ [i, i + 1]⟩) := by
  have hnext : checkedInt (i + 1) = some (i + 1) := by
    have hlow := le_of_charAt hi
    rw [checkedInt_eq_some_iff]
    omega
  have hmore : checkedInt ((cols : ℤ) + 1) = some ((cols : ℤ) + 1) := by
    rw [checkedInt_eq_some_iff]
    omega
  simp only [countRound, hi, hnext, hd, Option.bind_eq_bind, Option.bind_some, if_neg hc]
  by_cases hcomma : d = ','
  · rw [if_pos hcomma, hmore, hcomma]
    rfl
  · rw [if_neg hcomma, List.count_cons_of_ne hcomma]
    rfl

/-- The character in front of the text is always read. -/
theorem CountsColumns.reads_before (h : CountsColumns before body scan) : -1 ∈ scan.reads := by
  obtain ⟨fuel, hrun⟩ := h
  have hround : ∀ (s : ColumnScan) stopped t, (s.i = -1 ∨ -1 ∈ s.reads) →
      countRound before body s = some (stopped, t) → (t.i = -1 ∨ -1 ∈ t.reads) := by
    intro s stopped t hs ht
    obtain ⟨hread, hkept, _⟩ := mem_reads_countRound ht
    rcases hs with hs | hs
    · exact .inr (hs ▸ hread)
    · exact .inr (hkept hs)
  obtain ⟨hfinal, s, stopped, hlast, _⟩ := run_invariant hround (.inl rfl) hrun
  obtain ⟨hlow, hplace, _⟩ := countRound_eq_some hlast
  rcases hfinal with hi | hread
  · omega
  · exact hread

/-- Nothing in front of that character is read. -/
theorem CountsColumns.le_reads (h : CountsColumns before body scan) :
    ∀ i ∈ scan.reads, -1 ≤ i := by
  obtain ⟨fuel, hrun⟩ := h
  have hround : ∀ (s : ColumnScan) stopped t, (∀ i ∈ s.reads, -1 ≤ i) →
      countRound before body s = some (stopped, t) → ∀ i ∈ t.reads, -1 ≤ i := by
    intro s stopped t hs ht i hi
    exact ((mem_reads_countRound ht).2.2 i hi).elim (hs i) id
  exact (run_invariant hround (fun i hi => absurd hi List.not_mem_nil) hrun).1

/-- With a newline in front of the text nothing else is read. -/
theorem countsColumns_newline_iff : CountsColumns '\n' body scan ↔ scan = ⟨0, 0, [-1]⟩ := by
  have hround : countRound '\n' body ⟨-1, 0, []⟩ = some (true, ⟨0, 0, [-1]⟩) := by
    simp [countRound, charAt, checkedInt]
  constructor
  · intro h
    exact h.unique (.of_stop hround rfl)
  · rintro rfl
    exact .of_stop hround rfl

/-- The loop stands at the last character of `text`, which is no newline, and has counted
the commas up to there; the first newline comes behind `rest`. -/
structure AtPlace (before : Char) (body text rest : Text) (s : ColumnScan) : Prop where
  split : ∃ after, body = text ++ rest ++ '\n' :: after
  place : s.i + 1 = text.length
  read : ∃ c, charAt before body s.i = some c ∧ c ≠ '\n'
  counted : s.cols = text.count ','
  reads : ∀ k ∈ s.reads, k ≤ s.i

/-- The next character is read, and counted when it is a comma. -/
theorem AtPlace.round {text rest : Text} {s : ColumnScan} (h : AtPlace before body text rest s)
    (hbound : text.length + 1 < 2 ^ 31) {d : Char} (hd : charAt before body text.length = some d) :
    countRound before body s = some (false,
      ⟨text.length, (text ++ [d]).count ',', s.reads ++ [s.i, (text.length : ℤ)]⟩) ∧
    ∀ k ∈ s.reads ++ [s.i, (text.length : ℤ)], k ≤ text.length := by
  obtain ⟨i, cols, reads⟩ := s
  obtain ⟨_, hplace, ⟨c, hi, hc⟩, hcols, hreads⟩ := h
  dsimp only at hplace hi hcols hreads ⊢
  have hcount : text.count ',' ≤ text.length := List.count_le_length
  have hfits : ((text.count ',' : ℕ) : ℤ) ≤ i + 1 := by omega
  rw [← hplace] at hd ⊢
  rw [hcols, countRound_continue hi hc hd (by omega) hfits reads, List.count_append]
  refine ⟨rfl, fun k hk => ?_⟩
  rcases List.mem_append.mp hk with hk | hk
  · exact (hreads k hk).trans (by omega)
  · rcases List.mem_pair.mp hk with rfl | rfl <;> omega

/-- From a character that is no newline the loop counts the commas up to the next
newline, and reads nothing behind it. -/
theorem AtPlace.ends {text rest : Text} {s : ColumnScan} (h : AtPlace before body text rest s)
    (hrest : '\n' ∉ rest) (hbound : text.length + rest.length + 1 < 2 ^ 31) :
    ∃ scan, Ends (countRound before body) id s scan ∧
      scan.cols = (text ++ rest).count ',' ∧
      ∀ k ∈ scan.reads, k ≤ text.length + rest.length := by
  induction rest generalizing text s with
  | nil =>
    obtain ⟨after, hbody⟩ := h.split
    rw [List.append_nil] at hbody ⊢
    have hnewline : charAt before body text.length = some '\n' :=
      hbody ▸ charAt_append before text '\n' after
    obtain ⟨hround, hreads⟩ := h.round hbound hnewline
    have hstop := countRound_stop hnewline (by exact_mod_cast hbound)
      ((text ++ ['\n']).count ',') (s.reads ++ [s.i, (text.length : ℤ)])
    refine ⟨_, .of_continue hround rfl (.of_stop hstop rfl), ?_, fun k hk => ?_⟩
    · rw [List.count_append]
      rfl
    · rw [List.length_nil, Nat.cast_zero, add_zero]
      rcases List.mem_append.mp hk with hk | hk
      · exact hreads k hk
      · exact (List.mem_singleton.mp hk).le
  | cons d rest ih =>
    rw [List.mem_cons, not_or] at hrest
    rw [List.length_cons] at hbound ⊢
    obtain ⟨after, hbody⟩ := h.split
    have hd : charAt before body text.length = some d := by
      rw [hbody, List.append_assoc, List.cons_append]
      exact charAt_append before text d _
    obtain ⟨hround, hreads⟩ := h.round (by omega) hd
    -- the character just read joins the text behind
    have hnext : AtPlace before body (text ++ [d]) rest
        ⟨text.length, (text ++ [d]).count ',', s.reads ++ [s.i, (text.length : ℤ)]⟩ :=
      ⟨⟨after, by simp [hbody]⟩, by simp, ⟨d, hd, Ne.symm hrest.1⟩, rfl, hreads⟩
    obtain ⟨scan, hends, hcount, hbelow⟩ := ih hnext hrest.2 (by simp; omega)
    refine ⟨scan, .of_continue hround rfl hends, ?_, fun k hk => ?_⟩
    · rw [hcount, List.append_assoc, List.singleton_append]
    · have hle := hbelow k hk
      rw [List.length_append, List.length_singleton] at hle
      omega

theorem cellRound_append (text : Text) (c : Char) (rest : Text) :
    cellRound (text ++ c :: rest) text.length =
      if isSeparator c then some (true, (text.length : ℤ))
      else (checkedInt ((text.length : ℤ) + 1)).map fun i => (false, i) := by
  simp [cellRound]

/-- The loop over a cell stops at the separator behind it. -/
theorem run_cellRound {cell : Text} (hcell : ∀ c ∈ cell, isSeparator c = false) {sep : Char}
    (hsep : isSeparator sep = true) (text after : Text)
    (hbound : text.length + cell.length < 2 ^ 31) {fuel : ℕ} (hfuel : cell.length < fuel) :
    run (cellRound (text ++ cell ++ sep :: after)) id fuel text.length =
      some ((text.length + cell.length : ℕ) : ℤ) := by
  obtain ⟨fuel, rfl⟩ := Nat.exists_eq_add_one_of_ne_zero (Nat.ne_of_gt (Nat.zero_lt_of_lt hfuel))
  induction cell generalizing text fuel with
  | nil =>
    simp only [List.append_nil, List.length_nil, add_zero]
    exact run_of_stop (by rw [cellRound_append, if_pos hsep]) rfl fuel
  | cons c cell ih =>
    rw [List.forall_mem_cons] at hcell
    rw [List.length_cons] at hbound hfuel
    obtain ⟨fuel, rfl⟩ := Nat.exists_eq_add_one_of_ne_zero (show fuel ≠ 0 by omega)
    have hnext : checkedInt ((text.length : ℤ) + 1) = some ((text ++ [c]).length : ℤ) := by
      rw [checkedInt_eq_some_iff, List.length_append, List.length_singleton, Nat.cast_succ]
      omega
    have hround : cellRound (text ++ c :: cell ++ sep :: after) text.length =
        some (false, ((text ++ [c]).length : ℤ)) := by
      rw [List.append_assoc, List.cons_append, cellRound_append, hcell.1, if_neg Bool.false_ne_true,
        hnext, Option.map_some]
    have hrest := ih hcell.2 (text ++ [c]) (by simp; omega) fuel (by omega)
    rw [run_of_continue hround rfl]
    simpa [Nat.add_assoc, Nat.add_comm 1] using hrest

theorem nextCells_none {cols : ℕ} {cells : List Text} {after : Text} :
    nextCells cols none ≠ some (cells, some after) := by
  cases cols <;> simp [nextCells, nextCell]

/-- A cell with something behind it ends at a separator. -/
theorem nextCell_eq_some {rest cell after : Text}
    (h : nextCell (some rest) = some (cell, some after)) :
    ∃ sep, isSeparator sep = true ∧ (∀ c ∈ cell, isSeparator c = false) ∧
      rest = cell ++ sep :: after := by
  have hsplit := List.takeWhile_append_dropWhile (p := fun c => !isSeparator c) (l := rest)
  simp only [nextCell] at h
  split at h
  · cases h
  · rename_i sep more hdrop
    cases h
    refine ⟨sep, ?_, fun c hc => ?_, by rw [← hdrop, hsplit]⟩
    · have hhead := List.head?_dropWhile_not (fun c => !isSeparator c) rest
      simpa [hdrop] using hhead
    · simpa using List.mem_takeWhile_imp hc

/-- One cell of the loop over places. -/
theorem cellsInt_cell {text cell more : Text} (hcell : ∀ c ∈ cell, isSeparator c = false)
    {sep : Char} (hsep : isSeparator sep = true)
    (hbound : text.length + cell.length + 1 < 2 ^ 31) (cols : ℕ) :
    cellsInt (text ++ cell ++ sep :: more) (cols + 1) text.length =
      (cellsInt (text ++ cell ++ sep :: more) cols ((text.length + cell.length + 1 : ℕ) : ℤ)).map
        fun (cells, positions, last) => (cell :: cells, (text.length : ℤ) :: positions, last) := by
  have hscan : scanCell (text ++ cell ++ sep :: more) text.length =
      some ((text.length + cell.length : ℕ) : ℤ) :=
    run_cellRound hcell hsep text more (by omega) (by simp; omega)
  have hsub : substr (text ++ cell ++ sep :: more) text.length
      (((text.length + cell.length : ℕ) : ℤ) - text.length) = some cell := by
    rw [substr, toSizeT_natCast, if_pos (by simp), Nat.cast_add, add_sub_cancel_left,
      toSizeT_natCast]
    simp
  have hnext : checkedInt (((text.length + cell.length : ℕ) : ℤ) + 1) =
      some ((text.length + cell.length + 1 : ℕ) : ℤ) := by
    rw [checkedInt_eq_some_iff]
    omega
  rw [cellsInt, hscan]
  simp only [Option.bind_eq_bind, Option.bind_some, hsub, hnext, Option.map_eq_bind]
  rfl

/-- Where the cells are read off the rest of the text, the loop over places reads the
same ones, at positions inside the text, and ends at the same place. -/
theorem cellsInt_of_nextCells {text rest after : Text} {cols : ℕ} {cells : List Text}
    (h : nextCells cols (some rest) = some (cells, some after)) {last : ℕ}
    (hlast : last + after.length = text.length + rest.length) (hbound : last < 2 ^ 31) :
    ∃ positions, cellsInt (text ++ rest) cols text.length = some (cells, positions, (last : ℤ)) ∧
      text.length ≤ last ∧ ∀ i ∈ positions, 0 ≤ i ∧ i < ((text ++ rest).length : ℤ) := by
  induction cols generalizing text rest cells with
  | zero =>
    cases h
    have hsame : last = text.length := by omega
    exact ⟨[], by rw [cellsInt, hsame], hsame.ge, nofun⟩
  | succ cols ih =>
    simp only [nextCells, Option.bind_eq_bind, Option.bind_eq_some_iff] at h
    obtain ⟨⟨cell, place⟩, hcell, ⟨cells, place'⟩, hcells, h⟩ := h
    cases h
    cases place with
    | none => exact absurd hcells nextCells_none
    | some more =>
      obtain ⟨sep, hsep, hplain, rfl⟩ := nextCell_eq_some hcell
      have hlength : (text ++ cell ++ [sep]).length = text.length + cell.length + 1 := by
        simp [Nat.add_assoc]
      have hlast' : last + after.length = (text ++ cell ++ [sep]).length + more.length := by
        rw [hlast, hlength, List.length_append, List.length_cons]
        omega
      obtain ⟨positions, hrest, hle, hinside⟩ := ih hcells hlast'
      rw [hlength] at hrest hle
      have hbody : text ++ cell ++ [sep] ++ more = text ++ cell ++ sep :: more := by simp
      rw [hbody] at hrest hinside
      rw [← List.append_assoc, cellsInt_cell hplain hsep (by omega), hrest]
      refine ⟨text.length :: positions, rfl, by omega, ?_⟩
      rw [List.forall_mem_cons]
      refine ⟨⟨Int.natCast_nonneg _, ?_⟩, hinside⟩
      simp only [List.length_append, List.length_cons]
      omega

theorem cellsInt_lt {cols : ℕ} {start last : ℤ} {cells : List Text} {positions : List ℤ}
    (h : cellsInt body cols start = some (cells, positions, last)) (hstart : start < 2 ^ 31) :
    last < 2 ^ 31 := by
  induction cols generalizing start cells positions with
  | zero =>
    cases h
    exact hstart
  | succ cols ih =>
    simp only [cellsInt, Option.bind_eq_bind, Option.bind_eq_some_iff] at h
    obtain ⟨stop, _, colFeild, _, next, hnext, ⟨cells, positions, last⟩, hrest, h⟩ := h
    cases h
    obtain ⟨⟨_, hbound⟩, rfl⟩ := checkedInt_eq_some_iff.mp hnext
    exact ih hrest hbound

/-- The header is taken apart at positions inside the text. -/
theorem createSqlCmdsInt_header {header : Text} (hheader : '\n' ∉ header) (text : Text)
    (hbound : header.length + 1 < 2 ^ 31) :
    ∃ positions, createSqlCmdsInt ((header.count ',' : ℤ) + 1) (header ++ '\n' :: text) =
        some (advTokenizer header ',', positions, (header.length : ℤ) + 1) ∧
      ∀ i ∈ positions, 0 ≤ i ∧ i < ((header ++ '\n' :: text).length : ℤ) := by
  have hcells := nextCells_line hheader text
  rw [FileDataBaseAccess.length_advTokenizer] at hcells
  have hlast : header.length + 1 + text.length =
      ([] : Text).length + (header ++ '\n' :: text).length := by
    simp only [List.length_nil, List.length_append, List.length_cons]
    omega
  obtain ⟨positions, hpositions, _, hinside⟩ := cellsInt_of_nextCells hcells hlast hbound
  exact ⟨positions, hpositions, hinside⟩

/-- The loop stops at a newline. -/
theorem charAt_of_stop {s t : ColumnScan} (h : countRound before body s = some (true, t)) :
    charAt before body s.i = some '\n' ∧ s.i + 1 < 2 ^ 31 := by
  simp only [countRound, Option.bind_eq_bind, Option.bind_eq_some_iff] at h
  obtain ⟨c, hc, i, hi, h⟩ := h
  split_ifs at h with hnewline
  · exact ⟨hnewline ▸ hc, (checkedInt_eq_some_iff.mp hi).1.2⟩
  · simp only [Option.bind_eq_some_iff] at h
    obtain ⟨d, _, cols, _, h⟩ := h
    cases h

/-- A newline that is read stands in the text, behind its first line. -/
theorem newline_of_charAt {i : ℤ} (hbefore : before ≠ '\n')
    (h : charAt before body i = some '\n') : '\n' ∈ body ∧ (firstLine body).length ≤ i := by
  rw [charAt] at h
  split_ifs at h with hfront hneg
  · exact absurd (Option.some.inj h) hbefore
  · by_cases hlt : i.toNat < body.length
    · rw [List.getElem?_append_left hlt] at h
      refine ⟨List.mem_of_getElem? h, ?_⟩
      by_contra hless
      have hindex : i.toNat < (firstLine body).length := by omega
      have hline : body[i.toNat]? = some (firstLine body)[i.toNat] :=
        List.prefix_iff_getElem?.mp (List.takeWhile_prefix _) _ hindex
      have hplain := List.mem_takeWhile_imp (List.getElem_mem hindex)
      rw [← Option.some.inj (h.symm.trans hline)] at hplain
      simp at hplain
    · rw [List.getElem?_append_right (not_lt.mp hlt), List.getElem?_singleton] at h
      split_ifs at h with hzero
      cases h

/-- A loop that ends has found a newline, at a place that is an `int`. -/
theorem CountsColumns.newline_mem (hbefore : before ≠ '\n') (h : CountsColumns before body scan) :
    '\n' ∈ body ∧ (firstLine body).length + 1 < 2 ^ 31 := by
  obtain ⟨fuel, hrun⟩ := h
  obtain ⟨-, s, stopped, hlast, hstopped⟩ := run_invariant (P := fun _ => True)
    (fun _ _ _ _ _ => trivial) trivial hrun
  obtain rfl : stopped = true := hstopped
  obtain ⟨hread, hbound⟩ := charAt_of_stop hlast
  obtain ⟨hmem, hle⟩ := newline_of_charAt hbefore hread
  exact ⟨hmem, by omega⟩

/-- The columns of the first line are counted. -/
theorem countsColumns_header (hbefore : before ≠ '\n') {header : Text} (hheader : '\n' ∉ header)
    (text : Text) (hbound : header.length + 1 < 2 ^ 31) :
    ∃ scan, CountsColumns before (header ++ '\n' :: text) scan ∧ scan.cols = header.count ',' ∧
      ∀ i ∈ scan.reads, i ≤ header.length := by
  have hstart : AtPlace before (header ++ '\n' :: text) [] header ⟨-1, 0, []⟩ :=
    ⟨⟨text, rfl⟩, rfl, ⟨before, rfl, hbefore⟩, rfl, fun k hk => absurd hk List.not_mem_nil⟩
  obtain ⟨scan, hends, hcols, hreads⟩ := hstart.ends hheader (by simpa using hbound)
  exact ⟨scan, hends, hcols, by simpa using hreads⟩

/-- What the loop over places counts is what is counted over the text. -/
theorem CountsColumns.countColumns_eq (h : CountsColumns before body scan) :
    countColumns before body = some (scan.cols + 1).toNat := by
  by_cases hbefore : before = '\n'
  · subst hbefore
    rw [countsColumns_newline_iff.mp h]
    rfl
  · obtain ⟨hmem, hbound⟩ := h.newline_mem hbefore
    obtain ⟨header, text, rfl, hheader⟩ := List.eq_append_cons_of_mem hmem
    rw [firstLine_append hheader] at hbound
    obtain ⟨scan', hscan, hcols, _⟩ := countsColumns_header hbefore hheader text hbound
    rw [h.unique hscan, hcols, countColumns_header hbefore hheader,
      FileDataBaseAccess.length_advTokenizer]
    rfl

/-- Where every statement is accepted, no packet with all its fields is rejected. -/
theorem processInstancePacket_ne_error {rc : SqliteCalls} (hrc : ∀ k, rc k = true) (rand : ℕ → ℕ)
    (store store' : InstanceStore) (instanceid tableID tableId : Text) (algoType : ℤ) :
    processInstancePacket rc rand before store ⟨some instanceid, some body, some algoType⟩
      tableID ≠ some (.error, tableId, store') := by
  intro h
  obtain ⟨columns, colHeaders, place, result, db, _, _, hinsert, _, _, hresult⟩ :=
    processInstancePacket_eq_some h
  have hready : (createTable rc (store.addInstance rc instanceid rand).2.database
      (newAlias instanceid rand) colHeaders).1 = true :=
    (createTable_fst_iff _ _).mpr (.inr (hrc _))
  rw [insertIntoTable_eq, if_pos hready, Option.map_eq_some_iff] at hinsert
  obtain ⟨_, _, hrows⟩ := hinsert
  cases hrows
  rcases hresult with ⟨hnone, _⟩ | ⟨_, hstatus, _⟩
  · cases hnone
  · cases hstatus

/-- A header whose columns are counted is scanned as it should be. -/
theorem headerLaw_of_counts {header text : Text} (hheader : '\n' ∉ header)
    (hbound : header.length + 1 < 2 ^ 31)
    (hscan : CountsColumns before (header ++ '\n' :: text) scan)
    (hcols : scan.cols = header.count ',') (hreads : ∀ i ∈ scan.reads, i ≤ header.length) :
    HeaderLaw (-1) before (header ++ '\n' :: text) := by
  obtain ⟨positions, hcells, hinside⟩ := createSqlCmdsInt_header hheader text hbound
  constructor
  · refine ⟨scan, hscan, fun i hi => ⟨hscan.le_reads i hi, (hreads i hi).trans_lt ?_⟩⟩
    rw [List.length_append, List.length_cons]
    omega
  · intro _
    have hcount : header.count ',' ≤ header.length := List.count_le_length
    refine ⟨scan, positions, hscan, ?_, ?_, hinside⟩
    · rw [checkedInt_eq_some_iff, hcols, firstLine_append hheader]
      omega
    · rw [hcols, firstLine_append hheader]
      exact hcells
  · intro hmem
    exact absurd (by simp) hmem

/-- No body is scanned inside the text. But for the read in front of it the scan is
right exactly when there is a newline, at a place whose successor is an `int`, and no
newline in front of a text whose first line has a comma. -/
theorem headerLaw_iff (before : Char) (body : Text) :
    ¬ HeaderLaw 0 before body ∧
      (HeaderLaw (-1) before body ↔ '\n' ∈ body ∧ (firstLine body).length + 1 < 2 ^ 31 ∧
        (before = '\n' → ',' ∉ firstLine body)) := by
  constructor
  · intro law
    obtain ⟨scan, hscan, hreads⟩ := law.reads
    exact absurd (hreads (-1) hscan.reads_before).1 (by decide)
  constructor
  · intro law
    have hmem : '\n' ∈ body := by
      by_contra hmem
      obtain ⟨tableId, store', herror⟩ :=
        law.rejects hmem (.plain fun _ => true) (fun _ => 0) emptyStore [] 0 []
      exact processInstancePacket_ne_error (fun _ => rfl) _ _ _ _ _ _ _ herror
    obtain ⟨scan, positions, hscan, hcolumns, hcells, _⟩ := law.header hmem
    have hbound := cellsInt_lt hcells (by decide)
    refine ⟨hmem, by exact_mod_cast hbound, ?_⟩
    rintro rfl
    rw [countsColumns_newline_iff.mp hscan] at hcolumns
    obtain ⟨_, hcount⟩ := checkedInt_eq_some_iff.mp hcolumns
    rw [← List.count_eq_zero]
    have hzero : ((firstLine body).count ',' : ℤ) = 0 := by simpa using hcount.symm
    exact_mod_cast hzero
  · rintro ⟨hmem, hbound, hbefore⟩
    obtain ⟨header, text, rfl, hheader⟩ := List.eq_append_cons_of_mem hmem
    rw [firstLine_append hheader] at hbound hbefore
    by_cases hnewline : before = '\n'
    · subst hnewline
      have hcount := List.count_eq_zero.mpr (hbefore rfl)
      refine headerLaw_of_counts hheader hbound (countsColumns_newline_iff.mpr rfl)
        (by rw [hcount]; rfl) (fun i hi => ?_)
      rw [List.mem_singleton.mp hi]
      omega
    · obtain ⟨scan, hscan, hcols, hreads⟩ := countsColumns_header hnewline hheader text hbound
      exact headerLaw_of_counts hheader hbound hscan hcols hreads

/-- A header of two columns is counted, from the character in front of the text on. -/
theorem not_headerLaw_twoColumns :
    CountsColumns 'x' "a,b\n1,2\n".toList ⟨4, 1, [-1, 0, 0, 1, 1, 2, 2, 3, 3]⟩ ∧
      ¬ HeaderLaw 0 'x' "a,b\n1,2\n".toList := by
  refine ⟨⟨5, rfl⟩, fun law => ?_⟩
  obtain ⟨scan, hscan, hreads⟩ := law.reads
  exact absurd (hreads (-1) hscan.reads_before).1 (by decide)

end InstanceDataParser

end WorkerUnit
