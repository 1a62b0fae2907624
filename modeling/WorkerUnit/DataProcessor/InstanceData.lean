import WorkerUnit.Instance.InstanceList
import WorkerUnit.Services.FileDataBaseAccess
import WorkerUnit.Services.SqliteDatabaseAccess

/-!
# Instance values

`data_processor/instance_data.hpp` and `.cpp`. Each column of the matrix is a
pointer to as many values as `getTotalRows` says, or the null pointer.
-/

namespace WorkerUnit

structure InstanceData where
  totalRows : ℕ
  instanceDataMatrix : List (Option (Vector Text totalRows))

namespace InstanceData

variable (instanceData : InstanceData)

/-- A column past the matrix makes `at` throw. -/
def getPossibleFields (column : ℕ) : Option (Option (Vector Text instanceData.totalRows)) :=
  instanceData.instanceDataMatrix[column]?

/-- The instance values of a column. -/
def values (column : ℕ) : List Text :=
  match instanceData.getPossibleFields column with
  | some (some values) => values.toList
  | _ => []

/-- The two loops of `validateColumns`: each of the first `cols` user columns is
looked for among the instance's. -/
def matchColumns (userTableColumnNames instanceColumnNames : List Text) (cols : ℕ) :
    Option (List Text) :=
  if cols ≤ userTableColumnNames.length then
    some ((userTableColumnNames.take cols).filterMap fun feild =>
      instanceColumnNames.find? (feild == ·))
  else none

/-- The inner `none` is the null pointer, and there is no result when memory outside an
array is written or read. -/
def validateColumns (tables : SqliteTables) (inst : Instance) (userTableTotalColumns : ℤ)
    (file : FileDataBaseAccess) : Option (Option (List Text)) :=
  let cols := inst.totalColumns
  if (cols : ℤ) ≠ userTableTotalColumns then some none
  else match tables.getColumnNames inst.instanceId cols, file.getColumnNamesList with
    | none, _ | _, none => none
    | some none, some _ => some none
    | some (some instanceColumnNames), some userTableColumnNames =>
      if userTableColumnNames = [] then some none
      else (matchColumns userTableColumnNames instanceColumnNames.toList cols).map fun result =>
        if result.length ≠ cols then none else some result

/-- The columns of the matrix are those that `validateColumns` returns. -/
def initlizeData (tables : SqliteTables) (inst : Instance) (userTableTotalColumns : ℤ)
    (file : FileDataBaseAccess) : Option (ℤ × InstanceData) :=
  (validateColumns tables inst userTableTotalColumns file).map fun
    | none => (-1, ⟨inst.totalRows, []⟩)
    | some columnNames => (0, ⟨inst.totalRows, columnNames.map fun name =>
        tables.getColumnValues inst.instanceId name inst.totalRows⟩)

/-- A user column is found as itself. -/
theorem find?_column (instanceColumnNames : List Text) :
    (fun feild : Text => instanceColumnNames.find? (feild == ·)) =
      Option.guard fun feild => decide (feild ∈ instanceColumnNames) := by
  funext feild
  cases hfind : instanceColumnNames.find? (feild == ·) with
  | none =>
    symm
    rw [Option.guard_eq_none_iff, decide_eq_false_iff_not]
    intro hmem
    have hself := List.find?_eq_none.mp hfind feild hmem
    simp at hself
  | some name =>
    have heq : feild = name := beq_iff_eq.mp (List.find?_some hfind)
    have hmem := List.mem_of_find?_eq_some hfind
    rw [eq_comm, Option.guard_eq_some_iff, heq]
    exact ⟨rfl, decide_eq_true hmem⟩

/-- The columns that are found are those that the instance has. -/
theorem matchColumns_length (userTableColumnNames instanceColumnNames : List Text) :
    matchColumns userTableColumnNames instanceColumnNames userTableColumnNames.length =
      some (userTableColumnNames.filter (· ∈ instanceColumnNames)) := by
  rw [matchColumns, if_pos le_rfl, List.take_length, find?_column, List.filterMap_eq_filter]

end InstanceData

end WorkerUnit
