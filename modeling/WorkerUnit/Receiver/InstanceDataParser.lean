import WorkerUnit.Instance.DataBaseInstanceList
import WorkerUnit.Instance.InstanceList
import WorkerUnit.Receiver.UserDataParser
import WorkerUnit.Services.SqliteDatabaseAccess

/-!
# Receiving an instance

`receiver_proc/instance_data_parser.cpp`, with the three lists a packet changes.
A place in the text is the rest of the text from there on, or nothing when it is
past the end.
-/

namespace WorkerUnit

/-- A field is missing when reading it throws. -/
structure InstanceDataPacket where
  instanceid : Option Text
  data : Option Text
  algotype : Option ℤ
  deriving DecidableEq, Repr

structure InstanceStore where
  instanceList : DataBaseInstanceList
  database : SqliteDatabaseAccess
  globalInstanceList : InstanceList

namespace InstanceStore

variable (rc : SqliteCalls)

/-- `deleteInstanceModel` on each version in turn. -/
def deleteInstanceModels (db : SqliteDatabaseAccess) (discarded : List InstanceModel) :
    SqliteDatabaseAccess :=
  discarded.foldl (fun db m => (db.writeValue rc (.dropTable m.aliasName)).2) db

def discarded (store : InstanceStore) (instanceName : Text) : List InstanceModel :=
  store.instanceList.instanceList.filter fun m => m.Discarded instanceName

def addInstance (store : InstanceStore) (instanceName : Text) (rand : ℕ → ℕ) :
    Text × InstanceStore :=
  (newAlias instanceName rand,
    { store with
      instanceList := store.instanceList.addInstance instanceName rand
      database := deleteInstanceModels rc store.database (store.discarded instanceName) })

end InstanceStore

namespace InstanceDataParser

/-- The first character read is the one in front of the text. A text without a
newline is read past its end. -/
def countColumns (before : Char) (data : Text) : Option ℕ :=
  if before = '\n' then some 1
  else if '\n' ∈ data then some ((data.takeWhile (· != '\n')).count ',' + 1)
  else none

def isSeparator (c : Char) : Bool := c == ',' || c == '\n'

/-- One cell and the place behind its separator. From a place past the end
`substr` throws. -/
def nextCell : Option Text → Option (Text × Option Text)
  | none => none
  | some rest =>
    match rest.dropWhile fun c => !isSeparator c with
    | [] => some (rest, none)
    | _ :: after => some (rest.takeWhile fun c => !isSeparator c, some after)

def nextCells : ℕ → Option Text → Option (List Text × Option Text)
  | 0, place => some ([], place)
  | cols + 1, place => do
    let (cell, place) ← nextCell place
    let (cells, place) ← nextCells cols place
    return (cell :: cells, place)

/-- The header's cells and the place behind it. -/
def createSqlCmds (cols : ℕ) (body : Text) : Option (List Text × Option Text) :=
  nextCells cols (some body)

/-- An insertion that fails is tried once more. -/
def insertRow (rc : SqliteCalls) (db : SqliteDatabaseAccess) (tempInsert : SqlStatement) :
    Bool × SqliteDatabaseAccess :=
  let (inserted, db) := db.writeValue rc tempInsert
  if inserted then (true, db) else db.writeValue rc tempInsert

/-- The loop over the rows. Each takes at least one character, so the length of
the text bounds their number. -/
def insertRows (rc : SqliteCalls) (tableId : Text) (colHeaders : List Text) (columns : ℕ) :
    ℕ → SqliteDatabaseAccess → ℕ → Option Text → Option (ℕ × SqliteDatabaseAccess)
  | 0, db, rows, _ => some (rows, db)
  | _, db, rows, none => some (rows, db)
  | _, db, rows, some [] => some (rows, db)
  | fuel + 1, db, rows, some (c :: rest) => do
    let (values, place) ← nextCells columns (some (c :: rest))
    let (inserted, db) := insertRow rc db (.insertInto tableId colHeaders values)
    insertRows rc tableId colHeaders columns fuel db (if inserted then rows + 1 else rows) place

/-- The rows that were inserted, or `none` in place of them for `EXIT_FAILURE`. -/
def insertIntoTable (rc : SqliteCalls) (db : SqliteDatabaseAccess) (tableId : Text)
    (colHeaders : List Text) (columns : ℕ) (data : Text) (place : Option Text) :
    Option (Option ℕ × SqliteDatabaseAccess) :=
  let (created, db) := db.writeValue rc (.createTable tableId colHeaders)
  let (verified, db) := if created then (true, db) else db.readValue rc (.desc tableId)
  if verified then
    (insertRows rc tableId colHeaders columns data.length db 0 place).map fun (rows, db) =>
      (some rows, db)
  else some (none, db)

def dropTable (rc : SqliteCalls) (db : SqliteDatabaseAccess) (tableId : Text) :
    SqliteDatabaseAccess := (db.writeValue rc (.dropTable tableId)).2

def constructInstanceObjects (globalInstanceList : InstanceList) (tableId : Text) (algoType : ℤ)
    (columns rows : ℕ) : InstanceList :=
  globalInstanceList.addInstance (.new tableId (algoType % 256).toNat columns rows)

/-- The status and the new name of the table, or no result when the header has no
end or a row ends too soon. -/
def processInstancePacket (rc : SqliteCalls) (rand : ℕ → ℕ) (before : Char) (store : InstanceStore)
    (packet : InstanceDataPacket) (tableID : Text) :
    Option (ReceiverStatus × Text × InstanceStore) :=
  match packet.instanceid, packet.data, packet.algotype with
  | some instanceid, some bodyData, some algoType => do
    let (tableId, store) := store.addInstance rc instanceid rand
    let columns ← countColumns before bodyData
    let (colHeaders, place) ← createSqlCmds columns bodyData
    match ← insertIntoTable rc store.database tableId colHeaders columns bodyData place with
    | (none, db) => return (.error, tableId, { store with database := dropTable rc db tableId })
    | (some rows, db) =>
      return (.success, tableId,
        { store with
          database := db
          globalInstanceList :=
            constructInstanceObjects store.globalInstanceList tableId algoType columns rows })
  | _, _, _ => some (.error, tableID, store)

variable {rc : SqliteCalls} {rand : ℕ → ℕ} {before : Char} {store store' : InstanceStore}
  {instanceid bodyData tableID tableId : Text} {algoType : ℤ} {packet : InstanceDataPacket}
  {status : ReceiverStatus}

/-- A call that gets as far as its end has added the version. -/
theorem processInstancePacket_eq_some
    (h : processInstancePacket rc rand before store
      ⟨some instanceid, some bodyData, some algoType⟩ tableID = some (status, tableId, store')) :
    ∃ columns colHeaders place result db, countColumns before bodyData = some columns ∧
      createSqlCmds columns bodyData = some (colHeaders, place) ∧
      insertIntoTable rc (store.addInstance rc instanceid rand).2.database
        (newAlias instanceid rand) colHeaders columns bodyData place = some (result, db) ∧
      tableId = newAlias instanceid rand ∧
      store'.instanceList = store.instanceList.addInstance instanceid rand ∧
      ((result = none ∧ status = .error) ∨
        (result ≠ none ∧ status = .success ∧ store'.database = db ∧
          ∃ inst ∈ store'.globalInstanceList, inst.instanceId = tableId)) := by
  simp only [processInstancePacket, InstanceStore.addInstance, Option.bind_eq_bind,
    Option.bind_eq_some_iff] at h
  obtain ⟨columns, hcolumns, ⟨colHeaders, place⟩, hheader, ⟨result, db⟩, hinsert, h⟩ := h
  refine ⟨columns, colHeaders, place, result, db, hcolumns, hheader, hinsert, ?_⟩
  cases result with
  | none =>
    cases h
    exact ⟨rfl, rfl, .inl ⟨rfl, rfl⟩⟩
  | some rows =>
    cases h
    refine ⟨rfl, rfl, .inr ⟨nofun, rfl, rfl, .new (newAlias instanceid rand)
      (algoType % 256).toNat columns rows, ?_, rfl⟩⟩
    exact List.mem_append_right _ (List.mem_singleton_self _)

/-- A packet without all its fields is rejected at once. -/
theorem processInstancePacket_of_missing
    (hfields : ¬ ∃ instanceid bodyData algoType,
      packet = ⟨some instanceid, some bodyData, some algoType⟩) :
    processInstancePacket rc rand before store packet tableID = some (.error, tableID, store) := by
  obtain ⟨_ | instanceid, _ | bodyData, _ | algoType⟩ := packet <;> try rfl
  exact absurd ⟨_, _, _, rfl⟩ hfields

end InstanceDataParser

end WorkerUnit
