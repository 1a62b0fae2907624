import WorkerUnit.Scheduler.Job
import WorkerUnit.Services.FileDataBaseAccess

/-!
# Receiving a user table

`receiver_proc/user_data_parser.cpp`. The packet's fields have been read from its
body, and the alias name of an instance type is a function.
-/

namespace WorkerUnit

open FileDataBaseAccess

structure UserDataPacket where
  tableid : Text
  data : Text
  instancetype : Text
  priority : TaskPriority
  deriving DecidableEq, Repr

/-- The receiver's status codes that `processDataPacket` returns. -/
inductive ReceiverStatus where
  | error
  | success
  deriving DecidableEq, Repr

namespace UserDataParser

/-- The first line is the header. -/
def constructDataObjects (packet : UserDataPacket) (algoType : Text) (rows columns : ℤ) :
    TableData :=
  ⟨⟨(rows - 1).toNat, columns.toNat⟩, packet.tableid, packet.priority, algoType⟩

/-- A text without lines has no front line to count the columns of. When the
instance type is unknown the handle is never closed. -/
def processDataPacket (getInstanceAliasName : Text → Text) (disk : Disk)
    (packet : UserDataPacket) : Option (ReceiverStatus × Option TableData × Disk) :=
  let fileDataBaseAccess := openFile disk packet.tableid .rwFile
  let algoType := getInstanceAliasName packet.instancetype
  if algoType.isEmpty then some (.error, none, disk)
  else
    let fileDataBaseAccess := (fileDataBaseAccess.writeBlob packet.data).2
    match fileDataBaseAccess.getTotalColumns with
    | none => none
    | some columns =>
      let rows := fileDataBaseAccess.getTotalRows
      some (.success, some (constructDataObjects packet algoType rows columns),
        fileDataBaseAccess.closeFile disk)

variable {getInstanceAliasName : Text → Text} {disk disk' : Disk} {packet : UserDataPacket}
  {tableData : TableData}

/-- What an accepted text leaves behind. -/
theorem processDataPacket_success
    (h : processDataPacket getInstanceAliasName disk packet =
      some (.success, some tableData, disk')) :
    fileLines disk' tableData.tableID = splitStringByNewline packet.data ∧
      (splitStringByNewline packet.data).length = tableData.metadata.rows + 1 ∧
      1 ≤ tableData.metadata.columns := by
  unfold processDataPacket at h
  dsimp only at h
  split_ifs at h with halias
  · cases h
  · cases hlines : splitStringByNewline packet.data with
    | nil => simp [writeBlob, openFile, getTotalColumns, hlines] at h
    | cons header lines =>
      set file := ((openFile disk packet.tableid .rwFile).writeBlob packet.data).2 with hfile
      have hcolumns : file.getTotalColumns = some ((header.count ',' : ℤ) + 1) := by
        simp [hfile, writeBlob, openFile, getTotalColumns, hlines]
      have hrows : file.getTotalRows = (lines.length : ℤ) + 1 := by
        simp [hfile, writeBlob, openFile, getTotalRows, hlines]
      rw [hcolumns, hrows] at h
      simp only [Option.some.injEq, Prod.mk.injEq, true_and] at h
      obtain ⟨rfl, rfl⟩ := h
      rw [← hlines]
      refine ⟨fileLines_writeBlob packet.tableid packet.data, ?_, ?_⟩
      · simp [constructDataObjects, hlines]
      · simp only [constructDataObjects]
        omega

/-- A packet of an unknown instance type makes no table, and the table of another
carries the alias that was looked up. -/
theorem processDataPacket_cases {status : ReceiverStatus} {table : Option TableData}
    (h : processDataPacket getInstanceAliasName disk packet = some (status, table, disk')) :
    (getInstanceAliasName packet.instancetype = [] ∧ table = none) ∨
      (getInstanceAliasName packet.instancetype ≠ [] ∧ ∃ tableData, table = some tableData ∧
        tableData.tableID = packet.tableid ∧
        tableData.instanceType = getInstanceAliasName packet.instancetype) := by
  unfold processDataPacket at h
  dsimp only at h
  split_ifs at h with halias
  · cases h
    exact .inl ⟨List.isEmpty_iff.mp halias, rfl⟩
  · split at h
    · cases h
    · cases h
      exact .inr ⟨by simpa using halias, _, rfl, rfl, rfl⟩

theorem processDataPacket_instanceType
    (h : processDataPacket getInstanceAliasName disk packet =
      some (.success, some tableData, disk')) :
    tableData.instanceType = getInstanceAliasName packet.instancetype := by
  rcases processDataPacket_cases h with ⟨_, hnone⟩ | ⟨_, _, hsome, _, halias⟩
  · cases hnone
  · cases hsome
    exact halias

/-- A text with a line is accepted when the instance type is known. -/
theorem processDataPacket_accepts (disk : Disk)
    (halias : getInstanceAliasName packet.instancetype ≠ [])
    (hlines : splitStringByNewline packet.data ≠ []) :
    ∃ tableData disk', processDataPacket getInstanceAliasName disk packet =
      some (.success, some tableData, disk') := by
  obtain ⟨header, lines, hsplit⟩ := List.exists_cons_of_ne_nil hlines
  have hcolumns : ((openFile disk packet.tableid .rwFile).writeBlob packet.data).2.getTotalColumns =
      some ((header.count ',' : ℤ) + 1) := by
    simp [writeBlob, openFile, getTotalColumns, hsplit]
  have hknown : ¬ (getInstanceAliasName packet.instancetype).isEmpty = true := by
    simpa using halias
  simp only [processDataPacket, if_neg hknown, hcolumns]
  exact ⟨_, _, rfl⟩

end UserDataParser

end WorkerUnit
