import WorkerUnit.Receiver.InstanceDataParser

/-!
# The rows of an instance

`insertIntoTable` takes one cell after the other, at commas and newlines alike,
and makes a row of as many cells as the header has. It never asks where a line
ends, so a line of another length shifts the rows behind it.
-/

namespace WorkerUnit

open Records

/-- The text of a value inside its literal: a quote is written twice. -/
def quoted (value : Text) : Text :=
  value.flatMap fun c => if c = '\'' then ['\'', '\''] else [c]

/-- The statement that stores the cells of a line: an `INSERT` of their literals. -/
def literalInsert (tableId : Text) (colHeaders : List Text) (line : Text) : SqlStatement :=
  .insertInto tableId colHeaders ((advTokenizer line ',').map quoted)

namespace InstanceDataParser

/-- The table is created, or else verified. -/
def createTable (rc : SqliteCalls) (db : SqliteDatabaseAccess) (tableId : Text)
    (colHeaders : List Text) : Bool × SqliteDatabaseAccess :=
  let (created, db) := db.writeValue rc (.createTable tableId colHeaders)
  if created then (true, db) else db.readValue rc (.desc tableId)

/-- The loop of `insertRows` with the statement of each row and whether it was
inserted. -/
def issueRows (rc : SqliteCalls) (tableId : Text) (colHeaders : List Text) (columns : ℕ) :
    ℕ → SqliteDatabaseAccess → Option Text →
      Option (List (SqlStatement × Bool) × SqliteDatabaseAccess)
  | 0, db, _ => some ([], db)
  | _, db, none => some ([], db)
  | _, db, some [] => some ([], db)
  | fuel + 1, db, some (c :: rest) => do
    let (values, place) ← nextCells columns (some (c :: rest))
    let tempInsert := SqlStatement.insertInto tableId colHeaders values
    let (inserted, db) := insertRow rc db tempInsert
    let (issued, db) ← issueRows rc tableId colHeaders columns fuel db place
    return ((tempInsert, inserted) :: issued, db)

/-- The rows that `insertIntoTable` issues behind a header. -/
def issued (rc : SqliteCalls) (db : SqliteDatabaseAccess) (tableId : Text) (colHeaders : List Text)
    (columns : ℕ) (data : Text) (place : Option Text) : Option (List (SqlStatement × Bool)) :=
  (issueRows rc tableId colHeaders columns data.length
    (createTable rc db tableId colHeaders).2 place).map (·.1)

/-- There is one statement for each line, in order, that stores its cells and that
`c_str()` passes whole, and the rows are those that were inserted; or the insertion
fails, and a line has not as many cells as the header. -/
def StoresLines (rc : SqliteCalls) (db : SqliteDatabaseAccess) (tableId : Text) (columns : ℕ)
    (body : Text) (lines : List Text) : Prop :=
  ∃ colHeaders place result db', createSqlCmds columns body = some (colHeaders, place) ∧
    insertIntoTable rc db tableId colHeaders columns body place = some (result, db') ∧
    match result with
    | some rows => ∃ statements,
        issued rc db tableId colHeaders columns body place = some statements ∧
        statements.map (·.1) = lines.map (literalInsert tableId colHeaders) ∧
        (∀ statement ∈ statements, cStr statement.1.text = statement.1.text) ∧
        rows = statements.countP (·.2) ∧ ((∀ k, rc k = true) → rows = lines.length)
    | none => ∃ line ∈ lines, (advTokenizer line ',').length ≠ columns

/-- `SQLite` accepts the `CREATE TABLE`, or else the `DESC` after it. -/
def TableReady (rc : SqliteCalls) (db : SqliteDatabaseAccess) : Prop :=
  rc db.calls = true ∨ rc (db.calls + 1) = true

/-- The line has as many cells as the header, no quotes, and its statement no null
character. -/
structure LineFits (tableId : Text) (colHeaders : List Text) (line : Text) : Prop where
  cells : (advTokenizer line ',').length = colHeaders.length
  quotes : '\'' ∉ line
  nulls : '\x00' ∉ tableId ∧ (∀ header ∈ colHeaders, '\x00' ∉ header) ∧ '\x00' ∉ line

variable {rc : SqliteCalls} {db db' : SqliteDatabaseAccess} {tableId : Text}
  {colHeaders : List Text} {columns fuel : ℕ} {place next : Option Text}

/-- `insertRows` executes the statements of `issueRows`. -/
theorem insertRows_eq_issueRows (rows : ℕ) :
    insertRows rc tableId colHeaders columns fuel db rows place =
      (issueRows rc tableId colHeaders columns fuel db place).map fun (statements, db) =>
        (rows + statements.countP (·.2), db) := by
  induction fuel generalizing db rows place with
  | zero => rfl
  | succ fuel ih =>
    match place with
    | none => rfl
    | some [] => rfl
    | some (c :: rest) =>
      simp only [insertRows, issueRows]
      cases nextCells columns (some (c :: rest)) with
      | none => rfl
      | some read =>
        obtain ⟨values, next⟩ := read
        simp only [Option.bind_eq_bind, Option.bind_some, ih]
        obtain ⟨inserted, db₁⟩ := insertRow rc db (.insertInto tableId colHeaders values)
        dsimp only
        cases issueRows rc tableId colHeaders columns fuel db₁ next with
        | none => rfl
        | some result =>
          cases inserted <;> simp [Nat.add_assoc, Nat.add_comm 1]

/-- `insertIntoTable` inserts the issued rows when the table is there. -/
theorem insertIntoTable_eq (data : Text) :
    insertIntoTable rc db tableId colHeaders columns data place =
      if (createTable rc db tableId colHeaders).1 then
        (issueRows rc tableId colHeaders columns data.length
          (createTable rc db tableId colHeaders).2 place).map fun (statements, db) =>
            (some (statements.countP (·.2)), db)
      else some (none, (createTable rc db tableId colHeaders).2) := by
  unfold insertIntoTable createTable
  obtain ⟨created, db₁⟩ := db.writeValue rc (.createTable tableId colHeaders)
  simp only [insertRows_eq_issueRows, Option.map_map, Function.comp_def, zero_add]

/-- The rows are inserted when the table is there. -/
theorem createTable_fst_iff (tableId : Text) (colHeaders : List Text) :
    (createTable rc db tableId colHeaders).1 = true ↔ TableReady rc db := by
  rw [TableReady,
    ← SqliteDatabaseAccess.exec_fst (s := SqlStatement.createTable tableId colHeaders)]
  unfold createTable SqliteDatabaseAccess.writeValue SqliteDatabaseAccess.readValue
  cases hcreated : (db.exec rc (.createTable tableId colHeaders)).1 with
  | true => simp [hcreated]
  | false =>
    simp [hcreated, SqliteDatabaseAccess.exec_fst, SqliteDatabaseAccess.exec_calls]

section Cells

theorem nextCell_of_separator {cell : Text} (hcell : ∀ c ∈ cell, isSeparator c = false)
    (sep : Char) (hsep : isSeparator sep = true) (after : Text) :
    nextCell (some (cell ++ sep :: after)) = some (cell, some after) := by
  have hplain : ∀ c ∈ cell, (!isSeparator c) = true := by
    intro c hc
    rw [hcell c hc]
    rfl
  have hdrop : (cell ++ sep :: after).dropWhile (fun c => !isSeparator c) = sep :: after := by
    rw [List.dropWhile_append_of_pos hplain]
    simp [hsep]
  have htake : (cell ++ sep :: after).takeWhile (fun c => !isSeparator c) = cell := by
    rw [List.takeWhile_append_of_pos hplain]
    simp [hsep]
  simp only [nextCell, hdrop, htake]

theorem nextCell_of_last {cell : Text} (hcell : ∀ c ∈ cell, isSeparator c = false) :
    nextCell (some cell) = some (cell, none) := by
  have hdrop : cell.dropWhile (fun c => !isSeparator c) = [] := by
    rw [List.dropWhile_eq_nil_iff]
    intro c hc
    rw [hcell c hc]
    rfl
  simp only [nextCell, hdrop]

theorem isSeparator_eq_false {cell : Text} (hcomma : ',' ∉ cell) (hnewline : '\n' ∉ cell) :
    ∀ c ∈ cell, isSeparator c = false := by
  intro c hc
  have hne : c ≠ ',' ∧ c ≠ '\n' := ⟨fun he => hcomma (he ▸ hc), fun he => hnewline (he ▸ hc)⟩
  simp [isSeparator, hne]

theorem advTokenizer_of_notMem {cell : Text} (h : ',' ∉ cell) : advTokenizer cell ',' = [cell] :=
  List.splitOn_eq_singleton h

theorem advTokenizer_append {cell : Text} (h : ',' ∉ cell) (line : Text) :
    advTokenizer (cell ++ ',' :: line) ',' = cell :: advTokenizer line ',' :=
  List.splitOn_append_cons_self_of_not_mem h line

/-- As many cells as a line has are read off it, and the place behind them is the
one behind its newline. -/
theorem nextCells_line {line : Text} (hline : '\n' ∉ line) (text : Text) :
    nextCells (advTokenizer line ',').length (some (line ++ '\n' :: text)) =
      some (advTokenizer line ',', some text) := by
  induction line using induction_on_records ',' with
  | last cell hcell =>
    have hread := nextCell_of_separator (isSeparator_eq_false hcell hline) '\n' rfl text
    simp [advTokenizer_of_notMem hcell, nextCells, hread]
  | record cell line hcell ih =>
    simp only [List.mem_append, List.mem_cons, not_or] at hline
    have hread := nextCell_of_separator (isSeparator_eq_false hcell hline.1) ',' rfl
      (line ++ '\n' :: text)
    simp [advTokenizer_append hcell, nextCells, hread, ih hline.2.2]

/-- The last line may have no newline. -/
theorem nextCells_lastLine {line : Text} (hline : '\n' ∉ line) :
    nextCells (advTokenizer line ',').length (some line) = some (advTokenizer line ',', none) := by
  induction line using induction_on_records ',' with
  | last cell hcell =>
    have hread := nextCell_of_last (isSeparator_eq_false hcell hline)
    simp [advTokenizer_of_notMem hcell, nextCells, hread]
  | record cell line hcell ih =>
    simp only [List.mem_append, List.mem_cons, not_or] at hline
    have hread := nextCell_of_separator (isSeparator_eq_false hcell hline.1) ',' rfl line
    simp [advTokenizer_append hcell, nextCells, hread, ih hline.2.2]

theorem nextCells_length {cells : List Text} (h : nextCells columns place = some (cells, next)) :
    cells.length = columns := by
  induction columns generalizing place cells with
  | zero =>
    cases h
    rfl
  | succ columns ih =>
    simp only [nextCells, Option.bind_eq_bind, Option.bind_eq_some_iff] at h
    obtain ⟨⟨cell, place₁⟩, _, ⟨cells₁, next₁⟩, hrest, h⟩ := h
    cases h
    rw [List.length_cons, ih hrest]

/-- The header's cells are its fields. -/
theorem createSqlCmds_header {header : Text} (hheader : '\n' ∉ header) (text : Text) :
    createSqlCmds (advTokenizer header ',').length (header ++ '\n' :: text) =
      some (advTokenizer header ',', some text) := nextCells_line hheader text

/-- The columns that are counted are the fields of the header, unless the
character in front of the text is a newline. -/
theorem countColumns_header {before : Char} (hbefore : before ≠ '\n') {header : Text}
    (hheader : '\n' ∉ header) (text : Text) :
    countColumns before (header ++ '\n' :: text) = some (advTokenizer header ',').length := by
  have hplain : ∀ c ∈ header, (c != '\n') = true := by
    intro c hc
    exact bne_iff_ne.mpr fun he => hheader (he ▸ hc)
  have htake : (header ++ '\n' :: text).takeWhile (· != '\n') = header := by
    rw [List.takeWhile_append_of_pos hplain]
    simp
  rw [countColumns, if_neg hbefore, if_pos (by simp), htake,
    FileDataBaseAccess.length_advTokenizer]

end Cells

section Statements

variable {statements : List (SqlStatement × Bool)}

theorem issueRows_none (fuel : ℕ) (db : SqliteDatabaseAccess) :
    issueRows rc tableId colHeaders columns fuel db none = some ([], db) := by
  cases fuel <;> rfl

theorem issueRows_nil (fuel : ℕ) (db : SqliteDatabaseAccess) :
    issueRows rc tableId colHeaders columns fuel db (some []) = some ([], db) := by
  cases fuel <;> rfl

/-- One row of the loop. -/
theorem issueRows_row {text : Text} (htext : text ≠ []) {values : List Text}
    (hread : nextCells columns (some text) = some (values, next)) (fuel : ℕ)
    (db : SqliteDatabaseAccess) :
    issueRows rc tableId colHeaders columns (fuel + 1) db (some text) =
      (issueRows rc tableId colHeaders columns fuel
        (insertRow rc db (.insertInto tableId colHeaders values)).2 next).map
          fun (statements, db') => ((.insertInto tableId colHeaders values,
            (insertRow rc db (.insertInto tableId colHeaders values)).1) :: statements, db') := by
  obtain ⟨c, rest, rfl⟩ := List.exists_cons_of_ne_nil htext
  simp only [issueRows, hread, Option.bind_eq_bind, Option.bind_some, Option.map_eq_bind]
  rfl

/-- When every line has a cell for each column, each line is inserted. -/
theorem issueRows_of_lines {text : Text}
    (hcells : ∀ line ∈ records '\n' text, (advTokenizer line ',').length = columns)
    (hfuel : text.length ≤ fuel) (db : SqliteDatabaseAccess) :
    ∃ statements db', issueRows rc tableId colHeaders columns fuel db (some text) =
        some (statements, db') ∧
      statements.map (·.1) = (records '\n' text).map fun line =>
        .insertInto tableId colHeaders (advTokenizer line ',') := by
  induction text using induction_on_records '\n' generalizing fuel db with
  | last text htext =>
    rw [records_of_notMem htext] at hcells ⊢
    by_cases hempty : text = []
    · subst hempty
      exact ⟨[], db, issueRows_nil fuel db, rfl⟩
    · rw [if_neg hempty] at hcells ⊢
      obtain ⟨fuel, rfl⟩ := Nat.exists_eq_add_one_of_ne_zero
        (Nat.ne_of_gt ((List.length_pos_of_ne_nil hempty).trans_le hfuel))
      have hread := nextCells_lastLine htext
      rw [hcells text (List.mem_singleton_self text)] at hread
      rw [issueRows_row hempty hread, issueRows_none, Option.map_some]
      exact ⟨_, _, rfl, rfl⟩
  | record line text hline ih =>
    rw [records_append line text hline] at hcells ⊢
    rw [List.length_append, List.length_cons] at hfuel
    have hpos : fuel ≠ 0 := by omega
    obtain ⟨fuel, rfl⟩ := Nat.exists_eq_add_one_of_ne_zero hpos
    have hread := nextCells_line hline text
    rw [hcells line (List.mem_cons_self ..)] at hread
    obtain ⟨statements, db', hrest, hstatements⟩ := ih
      (fun other hother => hcells other (List.mem_cons_of_mem _ hother))
      (show text.length ≤ fuel by omega)
      (insertRow rc db (.insertInto tableId colHeaders (advTokenizer line ','))).2
    rw [issueRows_row (by simp) hread, hrest, Option.map_some]
    exact ⟨_, _, rfl, by rw [List.map_cons, List.map_cons, hstatements]⟩

/-- Each statement has a value for each column, and is inserted when `SQLite`
executes it. -/
theorem issueRows_statement
    (h : issueRows rc tableId colHeaders columns fuel db place = some (statements, db')) :
    ∀ statement ∈ statements, (∃ values, statement.1 = .insertInto tableId colHeaders values ∧
      values.length = columns) ∧ ((∀ k, rc k = true) → statement.2 = true) := by
  induction fuel generalizing db place statements with
  | zero =>
    cases h
    nofun
  | succ fuel ih =>
    match place with
    | none =>
      cases h
      nofun
    | some [] =>
      cases h
      nofun
    | some (c :: rest) =>
      cases hread : nextCells columns (some (c :: rest)) with
      | none => simp [issueRows, hread] at h
      | some read =>
        obtain ⟨values, next⟩ := read
        rw [issueRows_row (List.cons_ne_nil c rest) hread, Option.map_eq_some_iff] at h
        obtain ⟨⟨later, db₁⟩, hlater, h⟩ := h
        cases h
        rintro statement (_ | ⟨_, hmem⟩)
        · refine ⟨⟨values, rfl, nextCells_length hread⟩, fun hrc => ?_⟩
          have hfirst : (db.exec rc (.insertInto tableId colHeaders values)).1 = true := by
            rw [SqliteDatabaseAccess.exec_fst, hrc]
          simp [insertRow, SqliteDatabaseAccess.writeValue, hfirst]
        · exact ih hlater statement hmem

end Statements

section Literals

theorem length_quoted (value : Text) : (quoted value).length = value.length + value.count '\'' := by
  induction value with
  | nil => rfl
  | cons c value ih =>
    by_cases hc : c = '\''
    · subst hc
      simp only [quoted, List.flatMap_cons, ↓reduceIte, List.length_append, List.length_cons,
        List.length_nil, List.count_cons_self] at ih ⊢
      omega
    · simp only [quoted, List.flatMap_cons, hc, ↓reduceIte, List.length_append, List.length_cons,
        List.length_nil, List.count_cons_of_ne hc] at ih ⊢
      omega

/-- Only a value without quotes is its own literal. -/
theorem quoted_eq_self_iff {value : Text} : quoted value = value ↔ '\'' ∉ value := by
  constructor
  · intro h
    have hlength := length_quoted value
    rw [h] at hlength
    exact List.count_eq_zero.mp (by omega)
  · intro h
    induction value with
    | nil => rfl
    | cons c value ih =>
      rw [List.mem_cons, not_or] at h
      rw [quoted, List.flatMap_cons, if_neg (Ne.symm h.1), ← quoted, ih h.2, List.singleton_append]

theorem mem_line_iff {c : Char} (hc : c ≠ ',') (line : Text) :
    c ∈ line ↔ ∃ cell ∈ advTokenizer line ',', c ∈ cell := by
  rw [← mem_intercalate_iff hc, advTokenizer, List.intercalate_splitOn]

/-- The statement with the cells of a line is the one that stores them when they
have no quotes. -/
theorem literalInsert_eq_iff {line : Text} :
    literalInsert tableId colHeaders line =
      .insertInto tableId colHeaders (advTokenizer line ',') ↔ '\'' ∉ line := by
  have hself := List.map_inj_left (l := advTokenizer line ',') (f := quoted) (g := id)
  rw [List.map_id] at hself
  rw [literalInsert, SqlStatement.insertInto.injEq, mem_line_iff (by decide), hself]
  simp only [id_eq, quoted_eq_self_iff, not_exists, not_and, true_and]

theorem cStr_insertInto_iff {line : Text} :
    cStr (SqlStatement.insertInto tableId colHeaders (advTokenizer line ',')).text =
        (SqlStatement.insertInto tableId colHeaders (advTokenizer line ',')).text ↔
      '\x00' ∉ tableId ∧ (∀ header ∈ colHeaders, '\x00' ∉ header) ∧ '\x00' ∉ line := by
  rw [SqlStatement.cStr_text_iff, mem_line_iff (by decide) line]
  simp only [SqlStatement.tableId, SqlStatement.feilds, List.mem_append, or_imp, forall_and,
    not_exists, not_and]

end Literals

section Lines

variable {text header : Text} {statements : List (SqlStatement × Bool)}

/-- Statements that store the lines have the cells of the lines, so the lines fit. -/
theorem lineFits_of_stored
    (hrows : issueRows rc tableId colHeaders colHeaders.length fuel db (some text) =
      some (statements, db'))
    (hfuel : text.length ≤ fuel)
    (hlines : statements.map (·.1) =
      (records '\n' text).map (literalInsert tableId colHeaders))
    (hwhole : ∀ statement ∈ statements, cStr statement.1.text = statement.1.text) :
    ∀ line ∈ records '\n' text, LineFits tableId colHeaders line := by
  have hstatement : ∀ line ∈ records '\n' text, ∃ statement ∈ statements,
      statement.1 = literalInsert tableId colHeaders line := by
    intro line hline
    have hmem : literalInsert tableId colHeaders line ∈ statements.map (·.1) :=
      hlines ▸ List.mem_map_of_mem hline
    exact List.mem_map.mp hmem
  have hlength : ∀ line ∈ records '\n' text,
      (advTokenizer line ',').length = colHeaders.length := by
    intro line hline
    obtain ⟨statement, hmem, hstored⟩ := hstatement line hline
    obtain ⟨⟨values, hvalues, hcount⟩, _⟩ := issueRows_statement hrows statement hmem
    rw [hstored] at hvalues
    cases hvalues
    rwa [List.length_map] at hcount
  obtain ⟨statements', db₁, hrows', hcells⟩ := issueRows_of_lines hlength hfuel db
  cases hrows.symm.trans hrows'
  have hsame := List.map_inj_left.mp (hlines.symm.trans hcells)
  intro line hline
  obtain ⟨statement, hmem, hstored⟩ := hstatement line hline
  have hpassed := hwhole statement hmem
  rw [hstored, hsame line hline, cStr_insertInto_iff] at hpassed
  exact ⟨hlength line hline, literalInsert_eq_iff.mp (hsame line hline), hpassed⟩

variable (rc) in
/-- Lines that fit are stored. -/
theorem stored_of_lineFits (hfits : ∀ line ∈ records '\n' text, LineFits tableId colHeaders line)
    (hfuel : text.length ≤ fuel) (db : SqliteDatabaseAccess) :
    ∃ statements db', issueRows rc tableId colHeaders colHeaders.length fuel db (some text) =
        some (statements, db') ∧
      statements.map (·.1) = (records '\n' text).map (literalInsert tableId colHeaders) ∧
      ∀ statement ∈ statements, cStr statement.1.text = statement.1.text := by
  obtain ⟨statements, db', hrows, hcells⟩ :=
    issueRows_of_lines (fun line hline => (hfits line hline).cells) hfuel db
  refine ⟨statements, db', hrows, hcells.trans ?_, fun statement hmem => ?_⟩
  · exact List.map_congr_left fun line hline =>
      (literalInsert_eq_iff.mpr (hfits line hline).quotes).symm
  · have hstatement : statement.1 ∈ (records '\n' text).map fun line =>
        SqlStatement.insertInto tableId colHeaders (advTokenizer line ',') :=
      hcells ▸ List.mem_map_of_mem hmem
    obtain ⟨line, hline, heq⟩ := List.mem_map.mp hstatement
    rw [← heq]
    exact cStr_insertInto_iff.mpr (hfits line hline).nulls

/-- In a table that is there the lines are stored when all of them fit. -/
theorem storesLines_iff_of_ready (hheader : '\n' ∉ header)
    (hready : TableReady rc db) :
    StoresLines rc db tableId (advTokenizer header ',').length (header ++ '\n' :: text)
        (splitStringByNewline text) ↔
      ∀ line ∈ splitStringByNewline text, LineFits tableId (advTokenizer header ',') line := by
  have hfuel : text.length ≤ (header ++ '\n' :: text).length := by
    rw [List.length_append, List.length_cons]
    omega
  have hcreate := createSqlCmds_header hheader text
  have hcreated := (createTable_fst_iff tableId (advTokenizer header ',')).mpr hready
  constructor
  · rintro ⟨colHeaders, place, result, db', hcmds, hinsert, hresult⟩
    cases hcreate.symm.trans hcmds
    rw [insertIntoTable_eq, if_pos hcreated, Option.map_eq_some_iff] at hinsert
    obtain ⟨⟨statements, db₁⟩, hrows, heq⟩ := hinsert
    cases heq
    obtain ⟨statements', hissued, hlines, hwhole, _⟩ := hresult
    rw [issued, hrows, Option.map_some, Option.some.injEq] at hissued
    subst hissued
    exact lineFits_of_stored hrows hfuel hlines hwhole
  · intro hfits
    obtain ⟨statements, db', hrows, hlines, hwhole⟩ := stored_of_lineFits rc hfits hfuel
      (createTable rc db tableId (advTokenizer header ',')).2
    refine ⟨_, _, some (statements.countP (·.2)), db', hcreate, ?_, statements, ?_, hlines,
      hwhole, rfl, fun hrc => ?_⟩
    · rw [insertIntoTable_eq, if_pos hcreated, hrows]
      rfl
    · rw [issued, hrows]
      rfl
    · have hinserted : ∀ statement ∈ statements, statement.2 = true := fun statement hmem =>
        (issueRows_statement hrows statement hmem).2 hrc
      rw [List.countP_eq_length.mpr hinserted, ← List.length_map (f := (·.1)), hlines,
        List.length_map, splitStringByNewline]

/-- Without the table a line is owed that has not as many cells as the header. -/
theorem storesLines_iff_of_not_ready (hheader : '\n' ∉ header)
    (hready : ¬ TableReady rc db) :
    StoresLines rc db tableId (advTokenizer header ',').length (header ++ '\n' :: text)
        (splitStringByNewline text) ↔
      ∃ line ∈ splitStringByNewline text,
        (advTokenizer line ',').length ≠ (advTokenizer header ',').length := by
  have hcreate := createSqlCmds_header hheader text
  have hcreated := mt (createTable_fst_iff tableId (advTokenizer header ',')).mp hready
  constructor
  · rintro ⟨colHeaders, place, result, db', hcmds, hinsert, hresult⟩
    cases hcreate.symm.trans hcmds
    rw [insertIntoTable_eq, if_neg hcreated] at hinsert
    cases hinsert
    exact hresult
  · intro hline
    refine ⟨_, _, none, (createTable rc db tableId (advTokenizer header ',')).2, hcreate, ?_,
      hline⟩
    rw [insertIntoTable_eq, if_neg hcreated]

/-- When the table is there, its lines are stored if and only if all of them fit;
when it is not, what is owed is a line that has not as many cells as the header. -/
theorem storesLines_iff (hheader : '\n' ∉ header) :
    StoresLines rc db tableId (advTokenizer header ',').length (header ++ '\n' :: text)
        (splitStringByNewline text) ↔
      (TableReady rc db ∧
        ∀ line ∈ splitStringByNewline text, LineFits tableId (advTokenizer header ',') line) ∨
      (¬ TableReady rc db ∧
        ∃ line ∈ splitStringByNewline text,
          (advTokenizer line ',').length ≠ (advTokenizer header ',').length) := by
  by_cases hready : TableReady rc db
  · rw [storesLines_iff_of_ready hheader hready]
    simp only [hready, true_and, not_true_eq_false, false_and, or_false]
  · rw [storesLines_iff_of_not_ready hheader hready]
    simp only [hready, false_and, not_false_eq_true, true_and, false_or]

theorem storesLines_twoRows : StoresLines (.plain fun _ => true) ⟨∅, 0⟩ "t".toList 2
    "h,k\na,b\nc,d".toList ["a,b".toList, "c,d".toList] := by
  have hiff := @storesLines_iff (.plain fun _ => true) ⟨∅, 0⟩ "t".toList "a,b\nc,d".toList
    "h,k".toList (by decide)
  refine hiff.mpr (.inl ⟨.inr rfl, fun line hline => ?_⟩)
  rw [show splitStringByNewline "a,b\nc,d".toList = ["a,b".toList, "c,d".toList] by decide,
    List.mem_pair] at hline
  rcases hline with rfl | rfl
  · exact ⟨by decide, by decide, by decide⟩
  · exact ⟨by decide, by decide, by decide⟩

/-- The last line ends before its second cell, and `substr` throws. With a line more the
short line takes the first cell of the next one, and all statements are accepted. -/
theorem not_storesLines_shortLine :
    ¬ StoresLines (.plain fun _ => true) ⟨∅, 0⟩ "t".toList 2 "h,k\na".toList ["a".toList] ∧
      ¬ StoresLines (.plain fun _ => true) ⟨∅, 0⟩ "t".toList 2 "h,k\na\nb,c\nd".toList
        ["a".toList, "b,c".toList, "d".toList] := by
  constructor
  · rintro ⟨colHeaders, place, result, db', hcmds, hinsert, _⟩
    cases hcmds
    cases hinsert
  · rintro ⟨colHeaders, place, result, db', hcmds, hinsert, hresult⟩
    cases hcmds
    cases hinsert
    obtain ⟨statements, hissued, hlines, _⟩ := hresult
    have hcount := congrArg List.length hlines
    cases hissued
    cases hcount

end Lines

end InstanceDataParser

end WorkerUnit
