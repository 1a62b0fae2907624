import WorkerUnit.Include.Text

/-!
# The SQLite database

`services/sqlite_database_access.cpp`. Of the database only the names of its
tables are kept. Whether a call of `sqlite3_exec` succeeds is given from outside, and
so is what an accepted statement does to the tables: names and values are pasted into
its text, so it can be any other statement. A statement that fails changes nothing.
-/

namespace WorkerUnit

/-- A name that cannot end before its end in the statement around it. -/
def PlainName (name : Text) : Prop := ∀ c ∈ name, c.isAlphanum ∨ c = '_'

instance (name : Text) : Decidable (PlainName name) :=
  List.decidableBAll _ name

/-- A value that cannot end before its end in the literal around it. -/
def PlainValue (value : Text) : Prop := '\'' ∉ value ∧ '\x00' ∉ value

instance (value : Text) : Decidable (PlainValue value) :=
  inferInstanceAs (Decidable ('\'' ∉ value ∧ '\x00' ∉ value))

/-- The names of tables do not differ in their cases only. -/
def SameTable (name other : Text) : Prop := name.map Char.toLower = other.map Char.toLower

instance (name other : Text) : Decidable (SameTable name other) :=
  inferInstanceAs (Decidable (name.map Char.toLower = other.map Char.toLower))

inductive SqlStatement where
  | createTable (tableId : Text) (colHeaders : List Text)
  | dropTable (tableId : Text)
  | insertInto (tableId : Text) (colHeaders values : List Text)
  | desc (tableId : Text)
  deriving DecidableEq, Repr

namespace SqlStatement

/-- The texts that the callers put together. -/
def text : SqlStatement → Text
  | .createTable tableId colHeaders =>
    "CREATE TABLE ".toList ++ tableId ++ " (".toList ++
      colHeaders.flatMap (fun colFeild => colFeild ++ " varchar(30) NOT NULL,".toList) ++
      "ID INTEGER PRIMARY KEY AUTOINCREMENT);".toList
  | .dropTable tableId => "DROP TABLE ".toList ++ tableId ++ ";".toList
  | .insertInto tableId colHeaders values =>
    "INSERT INTO ".toList ++ tableId ++ " (".toList ++ [','].intercalate colHeaders ++
      ") VALUES (".toList ++
      [','].intercalate (values.map fun value => '\'' :: value ++ ['\'']) ++ ");".toList
  | .desc tableId => "DESC ".toList ++ tableId ++ ";".toList

def tableId : SqlStatement → Text
  | .createTable tableId _ => tableId
  | .dropTable tableId => tableId
  | .insertInto tableId _ _ => tableId
  | .desc tableId => tableId

/-- The other texts that the callers put in. -/
def feilds : SqlStatement → List Text
  | .createTable _ colHeaders => colHeaders
  | .dropTable _ => []
  | .insertInto _ colHeaders values => colHeaders ++ values
  | .desc _ => []

/-! A character of a statement that is in none of its fixed pieces. -/

theorem mem_frame {c : Char} {a b : Text} (ha : c ∉ a) (hb : c ∉ b) (x : Text) :
    c ∈ a ++ x ++ b ↔ c ∈ x := by
  simp [ha, hb]

theorem mem_frame₂ {c : Char} {a b d : Text} (ha : c ∉ a) (hb : c ∉ b) (hd : c ∉ d)
    (x y : Text) : c ∈ a ++ x ++ b ++ y ++ d ↔ c ∈ x ∨ c ∈ y := by
  simp [ha, hb, hd]

theorem mem_frame₃ {c : Char} {a b d e : Text} (ha : c ∉ a) (hb : c ∉ b) (hd : c ∉ d)
    (he : c ∉ e) (x y z : Text) : c ∈ a ++ x ++ b ++ y ++ d ++ z ++ e ↔ c ∈ x ∨ c ∈ y ∨ c ∈ z := by
  simp [ha, hb, hd, he]

theorem null_mem_text {s : SqlStatement} :
    '\x00' ∈ s.text ↔ '\x00' ∈ s.tableId ∨ ∃ feild ∈ s.feilds, '\x00' ∈ feild := by
  cases s with
  | createTable tableId colHeaders =>
    refine (mem_frame₂ (by decide) (by decide) (by decide) _ _).trans (or_congr_right ?_)
    have hcolumn : '\x00' ∉ " varchar(30) NOT NULL,".toList := by decide
    rw [List.mem_flatMap]
    exact exists_congr fun feild => and_congr_right fun _ =>
      List.mem_append.trans (or_iff_left hcolumn)
  | dropTable tableId =>
    apply (mem_frame (by decide) (by decide) _).trans
    simp only [SqlStatement.tableId, feilds, List.not_mem_nil, false_and, exists_false, or_false]
  | insertInto tableId colHeaders values =>
    refine (mem_frame₃ (by decide) (by decide) (by decide) (by decide) _ _ _).trans
      (or_congr_right ?_)
    have hcomma : '\x00' ≠ ',' := by decide
    have hquote : '\x00' ≠ '\'' := by decide
    rw [mem_intercalate_iff hcomma, mem_intercalate_iff hcomma]
    simp [feilds, hquote, or_and_right, exists_or]
  | desc tableId =>
    apply (mem_frame (by decide) (by decide) _).trans
    simp only [SqlStatement.tableId, feilds, List.not_mem_nil, false_and, exists_false, or_false]

/-- A statement made of texts without null characters is passed whole. -/
theorem cStr_text_iff {s : SqlStatement} :
    cStr s.text = s.text ↔ '\x00' ∉ s.tableId ∧ ∀ feild ∈ s.feilds, '\x00' ∉ feild := by
  rw [cStr_eq_self_iff, null_mem_text]
  simp

/-- The text is the one statement that it looks like. -/
def Plain : SqlStatement → Prop
  | .createTable tableId colHeaders =>
    PlainName tableId ∧ ∀ colFeild ∈ colHeaders, PlainName colFeild
  | .dropTable tableId | .desc tableId => PlainName tableId
  | .insertInto tableId colHeaders values => PlainName tableId ∧
      (∀ colFeild ∈ colHeaders, PlainName colFeild) ∧ ∀ value ∈ values, PlainValue value

instance : DecidablePred Plain
  | .createTable _ colHeaders =>
    inferInstanceAs (Decidable (_ ∧ ∀ colFeild ∈ colHeaders, PlainName colFeild))
  | .dropTable tableId | .desc tableId => inferInstanceAs (Decidable (PlainName tableId))
  | .insertInto _ colHeaders values =>
    inferInstanceAs (Decidable (_ ∧ (∀ colFeild ∈ colHeaders, PlainName colFeild) ∧
      ∀ value ∈ values, PlainValue value))

end SqlStatement

/-- What the calls of `sqlite3_exec` do: whether the code of each is `SQLITE_OK`, and
what a statement that is accepted makes of the tables. -/
structure SqliteCalls where
  ok : ℕ → Bool
  effect : SqlStatement → Finset Text → Finset Text

namespace SqliteCalls

instance : CoeFun SqliteCalls fun _ => ℕ → Bool := ⟨ok⟩

/-- What the statements are documented to do, when they are plain. -/
structure Documented (rc : SqliteCalls) : Prop where
  createTable : ∀ tableId colHeaders tables, (SqlStatement.createTable tableId colHeaders).Plain →
    tableId ∈ rc.effect (.createTable tableId colHeaders) tables
  dropTable : ∀ tableId name tables, PlainName tableId → PlainName name →
    (name ∈ rc.effect (.dropTable tableId) tables ↔
      name ∈ tables ∧ ¬ SameTable tableId name)
  insertInto : ∀ tableId colHeaders values tables,
    (SqlStatement.insertInto tableId colHeaders values).Plain →
      rc.effect (.insertInto tableId colHeaders values) tables = tables
  desc : ∀ tableId tables, PlainName tableId →
    rc.effect (.desc tableId) tables = tables

/-- Calls that treat every text as the statement that it looks like. -/
def plain (ok : ℕ → Bool) : SqliteCalls where
  ok := ok
  effect
    | .createTable tableId _, tables => insert tableId tables
    | .dropTable tableId, tables => tables.filter fun name => ¬ SameTable tableId name
    | .insertInto _ _ _, tables | .desc _, tables => tables

theorem documented_plain (ok : ℕ → Bool) : (plain ok).Documented where
  createTable _ _ _ _ := Finset.mem_insert_self ..
  dropTable _ _ _ _ _ := Finset.mem_filter
  insertInto _ _ _ _ _ := rfl
  desc _ _ _ := rfl

end SqliteCalls

structure SqliteDatabaseAccess where
  tables : Finset Text
  calls : ℕ

namespace SqliteDatabaseAccess

variable (rc : SqliteCalls)

/-- `sqlite3_exec`; the result says whether the code was `SQLITE_OK`. -/
def exec (db : SqliteDatabaseAccess) (s : SqlStatement) : Bool × SqliteDatabaseAccess :=
  if rc db.calls then (true, ⟨rc.effect s db.tables, db.calls + 1⟩)
  else (false, ⟨db.tables, db.calls + 1⟩)

def writeValue (db : SqliteDatabaseAccess) (sqlQuery : SqlStatement) :
    Bool × SqliteDatabaseAccess := db.exec rc sqlQuery

/-- The result says whether a value was returned and not a null pointer. -/
def readValue (db : SqliteDatabaseAccess) (sqlQuery : SqlStatement) :
    Bool × SqliteDatabaseAccess := db.exec rc sqlQuery

variable {rc} {db : SqliteDatabaseAccess} {s : SqlStatement}

theorem exec_calls : (db.exec rc s).2.calls = db.calls + 1 := by
  unfold exec
  split_ifs <;> rfl

theorem exec_fst : (db.exec rc s).1 = rc db.calls := by
  unfold exec
  split_ifs with h
  · exact h.symm
  · simpa using h

/-- The database when the statements have been passed, one after another. -/
def execAll (rc : SqliteCalls) (db : SqliteDatabaseAccess) (statements : List SqlStatement) :
    SqliteDatabaseAccess := statements.foldl (fun db s => (db.exec rc s).2) db

theorem execAll_append (statements more : List SqlStatement) :
    db.execAll rc (statements ++ more) = (db.execAll rc statements).execAll rc more :=
  List.foldl_append

theorem execAll_calls (db : SqliteDatabaseAccess) (statements : List SqlStatement) :
    (db.execAll rc statements).calls = db.calls + statements.length := by
  induction statements generalizing db with
  | nil => rfl
  | cons s statements ih =>
    rw [execAll, List.foldl_cons, ← execAll, ih, exec_calls, List.length_cons]
    omega

end SqliteDatabaseAccess

/-- What the tables give to the two queries that read columns: the names of a
table's columns without its ID, if it has a row for them, and the values of a column;
nothing for an error. -/
structure SqliteTables where
  columnNames : Text → Option (List Text)
  columnValues : Text → Text → Option (List Text)

namespace SqliteTables

variable (tables : SqliteTables)

/-- An array of `n` strings, filled from the front. -/
def filled (n : ℕ) (data : List Text) : Vector Text n :=
  Vector.ofFn fun i => data[i.val]?.getD []

/-- `SqliteDatabaseAccess::getColumnNames`. The callback does not know the length of the
array: more names are written past its end. The inner `none` is the null pointer. -/
def getColumnNames (tableID : Text) (cols : ℕ) : Option (Option (Vector Text cols)) :=
  match tables.columnNames tableID with
  | none => some none
  | some names => if names.length ≤ cols then some (some (filled cols names)) else none

/-- `SqliteDatabaseAccess::getColumnValues`. -/
def getColumnValues (tableName columnName : Text) (rows : ℕ) : Option (Vector Text rows) :=
  (tables.columnValues tableName columnName).map (filled rows)

/-- An array that is not too long holds the first texts. -/
theorem toList_filled {n : ℕ} {data : List Text} (h : n ≤ data.length) :
    (filled n data).toList = data.take n := by
  apply List.ext_getElem
  · simp [h]
  · intro i hi _
    have hin : i < data.length := by
      rw [Vector.length_toList] at hi
      omega
    simp [filled, hin]

end SqliteTables

end WorkerUnit
