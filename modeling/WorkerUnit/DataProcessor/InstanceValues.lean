import WorkerUnit.DataProcessor.DataValidator
import WorkerUnit.Receiver.InstanceDataParser

/-!
# The values of an instance

The counts of rows and columns that the parser hands to the constructor of
`Instance` are kept in eight bits, so of a table with more rows only the first
ones are read back, and a cell is checked against these.
-/

namespace WorkerUnit

open FileDataBaseAccess

/-- The text is one of the values, up to case. -/
def FoundAmong [BoostIequals] (values : List Text) (feild : Text) : Prop :=
  ∃ value ∈ values, iequals value feild = true

instance [BoostIequals] (values : List Text) (feild : Text) :
    Decidable (FoundAmong values feild) :=
  inferInstanceAs (Decidable (∃ value ∈ values, _))

/-- The cell is kept when it is one of the values, and else replaced. -/
def ChecksCell [BoostIequals] (v : ValidateData) (curCol : ℕ) (values : List Text)
    (feild : Text) : Prop :=
  v.cleanData curCol feild = some (if FoundAmong values feild then feild else nan)

instance [BoostIequals] (v : ValidateData) (curCol : ℕ) (values : List Text) (feild : Text) :
    Decidable (ChecksCell v curCol values feild) :=
  inferInstanceAs (Decidable (_ = _))

/-- The instance has the counts that were parsed. -/
def ReportsCounts (inst : Instance) (columns rows : ℕ) : Prop :=
  inst.totalColumns = columns ∧ inst.totalRows = rows

/-- The instance that was registered last. -/
def registeredInstance (globalInstanceList : InstanceList) (tableId : Text) (algoType : ℤ)
    (columns rows : ℕ) : Option Instance :=
  (InstanceDataParser.constructInstanceObjects globalInstanceList tableId algoType columns
    rows).getLast?

variable {tables : SqliteTables} {globalInstanceList : InstanceList} {tableId : Text}
  {algoType : ℤ} {columns rows curCol : ℕ} {inst : Instance} {file : FileDataBaseAccess}
  {header values : List Text} {columnName feild : Text} {instanceData : InstanceData}
  {v : ValidateData}

theorem registeredInstance_eq :
    registeredInstance globalInstanceList tableId algoType columns rows =
      some (.new tableId (algoType % 256).toNat columns rows) := by
  simp [registeredInstance, InstanceDataParser.constructInstanceObjects, InstanceList.addInstance]

theorem reportsCounts_iff
    (h : registeredInstance globalInstanceList tableId algoType columns rows = some inst) :
    ReportsCounts inst columns rows ↔ columns < 256 ∧ rows < 256 := by
  rw [registeredInstance_eq] at h
  cases h
  simp only [ReportsCounts, Instance.new]
  omega

/-- The columns that are returned are those of the header. -/
theorem InstanceData.eq_of_validateColumns {columnNames : List Text}
    (hheader : file.getColumnNamesList = some header)
    (h : validateColumns tables inst header.length file = some (some columnNames)) :
    columnNames = header := by
  obtain ⟨instanceId, linkedAlgorithm, totalColumns, totalRows⟩ := inst
  by_cases hlength : totalColumns = header.length
  · subst hlength
    rcases hnames : tables.getColumnNames instanceId header.length with
      _ | _ | instanceColumnNames
    · simp [validateColumns, hnames] at h
    · simp [validateColumns, hnames, hheader] at h
    · simp only [validateColumns, hnames, hheader, ne_eq, not_true_eq_false, if_false] at h
      split_ifs at h
      · cases h
      · rw [matchColumns_length, Option.map_some] at h
        split_ifs at h with hfound
        · cases h
          exact List.filter_eq_self.mpr (List.length_filter_eq_length_iff.mp hfound)
        · cases h
  · have hcount : ((totalColumns : ℕ) : ℤ) ≠ header.length := by exact_mod_cast hlength
    rw [validateColumns, if_pos hcount] at h
    cases h

/-- The values that a cell is checked against are the first ones of its column. -/
theorem InstanceData.values_of_initlizeData
    (hheader : file.getColumnNamesList = some header)
    (hinit : initlizeData tables inst header.length file = some (0, instanceData))
    (hcolumn : header[curCol]? = some columnName)
    (hvalues : tables.columnValues inst.instanceId columnName = some values)
    (hrows : inst.totalRows ≤ values.length) :
    ∃ temp, instanceData.getPossibleFields curCol = some (some temp) ∧
      temp.toList = values.take inst.totalRows := by
  obtain ⟨result, hresult, hdata⟩ := Option.map_eq_some_iff.mp hinit
  cases result with
  | none => cases hdata
  | some columnNames =>
    cases hdata
    cases eq_of_validateColumns hheader hresult
    refine ⟨SqliteTables.filled inst.totalRows values, ?_, SqliteTables.toList_filled hrows⟩
    rw [getPossibleFields, List.getElem?_map, hcolumn, Option.map_some,
      SqliteTables.getColumnValues, hvalues, Option.map_some]

/-- A cell that is not empty is checked against the values in the matrix. -/
theorem ValidateData.cleanData_eq [BoostIequals] {temp : Vector Text v.instanceData.totalRows}
    (hfeild : feild ≠ [])
    (htemp : v.instanceData.getPossibleFields curCol = some (some temp)) :
    v.cleanData curCol feild = some (if FoundAmong temp.toList feild then feild else nan) := by
  have hempty : ¬ feild.isEmpty = true := by simpa using hfeild
  rw [cleanData, if_neg hempty, validateFeild, htemp]
  exact congrArg some (if_congr List.any_eq_true rfl rfl)

/-- A cell is checked against all values of its column when a value that it equals is
among those that are left of the eight bits, and the counts are reported when they fit. -/
theorem ValidateData.checksCell_iff [BoostIequals]
    (hinst : registeredInstance globalInstanceList tableId algoType columns values.length =
      some inst)
    (hheader : file.getColumnNamesList = some header)
    (hinit : InstanceData.initlizeData tables inst header.length file = some (0, v.instanceData))
    (hcolumn : header[curCol]? = some columnName)
    (hvalues : tables.columnValues inst.instanceId columnName = some values)
    (hfeild : feild ≠ []) :
    (ChecksCell v curCol values feild ↔ feild = nan ∨
      (FoundAmong values feild → FoundAmong (values.take (values.length % 256)) feild)) ∧
    (ReportsCounts inst columns values.length ↔ columns < 256 ∧ values.length < 256) := by
  refine ⟨?_, reportsCounts_iff hinst⟩
  have hrows : inst.totalRows = values.length % 256 := by
    rw [registeredInstance_eq] at hinst
    cases hinst
    rfl
  obtain ⟨temp, htemp, hfirst⟩ := InstanceData.values_of_initlizeData hheader hinit hcolumn hvalues
    (hrows ▸ Nat.mod_le _ _)
  rw [ChecksCell, cleanData_eq hfeild htemp, hfirst, hrows, Option.some.injEq]
  have hmono : FoundAmong (values.take (values.length % 256)) feild → FoundAmong values feild := by
    rintro ⟨value, hvalue, hequal⟩
    exact ⟨value, List.mem_of_mem_take hvalue, hequal⟩
  by_cases hfound : FoundAmong (values.take (values.length % 256)) feild
  · simp [hfound, hmono hfound]
  · by_cases hall : FoundAmong values feild
    · simp [hfound, hall, eq_comm]
    · simp [hfound, hall]

/-- The column `a` with these values, and a handle and a validator of a table of it. -/
def tablesOf (values : List Text) : SqliteTables :=
  ⟨fun _ => some [['a']], fun _ _ => some values⟩

def tableOfA : FileDataBaseAccess := openFile (diskOf ['t'] [['a'], ['y']]) ['t'] .readFile

def validatorOf (instanceData : InstanceData) : ValidateData :=
  .new (diskOf ['t'] [['a'], ['y']]) 1 1 ⟨⟨2, 1⟩, ['t'], .mediumPriority, ['i']⟩ instanceData

theorem checksCell_twoRows :
    ChecksCell (validatorOf ValidateRun.instanceXY) 0 [['x'], ['Y']] ['y'] ∧
      ReportsCounts (.new ['i'] 0 1 2) 1 2 := by
  have hinst : registeredInstance [] ['i'] 0 1 2 = some (.new ['i'] 0 1 2) := rfl
  have hinit : InstanceData.initlizeData (tablesOf [['x'], ['Y']]) (.new ['i'] 0 1 2) 1 tableOfA =
      some (0, ValidateRun.instanceXY) := rfl
  have hheader : tableOfA.getColumnNamesList = some [['a']] := by decide
  have hiff := @ValidateData.checksCell_iff (tablesOf [['x'], ['Y']]) [] ['i'] 0 1 0
    (.new ['i'] 0 1 2) tableOfA [['a']] [['x'], ['Y']] ['a'] ['y']
    (validatorOf ValidateRun.instanceXY) _ hinst hheader hinit rfl rfl (by decide)
  exact ⟨hiff.1.mpr (.inr id), hiff.2.mpr (by decide)⟩

/-- Of 256 rows none is left, and the value that all of them have is replaced. -/
theorem not_checksCell_manyRows :
    registeredInstance [] ['i'] 0 1 256 = some (.new ['i'] 0 1 256) ∧
      InstanceData.initlizeData (tablesOf (List.replicate 256 ['x'])) (.new ['i'] 0 1 256) 1
        tableOfA = some (0, ⟨0, [some #v[]]⟩) ∧
      ¬ ChecksCell (validatorOf ⟨0, [some #v[]]⟩) 0 (List.replicate 256 ['x']) ['x'] ∧
      ¬ ReportsCounts (.new ['i'] 0 1 256) 1 256 := by
  refine ⟨rfl, rfl, ?_, ?_⟩
  · have hfound : FoundAmong (List.replicate 256 ['x']) ['x'] :=
      ⟨['x'], List.mem_replicate.mpr ⟨by decide, rfl⟩, rfl⟩
    rw [ChecksCell, if_pos hfound]
    decide
  · rintro ⟨_, hrows⟩
    cases hrows

end WorkerUnit
