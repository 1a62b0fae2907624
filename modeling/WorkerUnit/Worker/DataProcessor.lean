import WorkerUnit.Algorithm.SplitRows
import WorkerUnit.Scheduler.StageRun
import WorkerUnit.Worker.TableRun

/-!
# The job of the data processor

`data_processor/data_processor.cpp`. A call of `process_data_start` looks the instance of
the table up and compares the columns; one that finds no instance or other columns fails,
and is made again. The table is cleaned when the first call has succeeded. When a later one
has, the server is told of the last error, and the file is dropped.
-/

namespace WorkerUnit

open StepSystem FileDataBaseAccess

/-- What the data processor reads of the worker. -/
structure ProcessorWorld where
  globalInstanceList : InstanceList
  tables : SqliteTables
  disk : Disk

/-- `getErrorString` after `initlizeData`: the two tests of `validateColumns` that fail for
the columns have a text. -/
def InstanceData.errorString (tables : SqliteTables) (inst : Instance)
    (userTableTotalColumns : ℤ) (file : FileDataBaseAccess) : Text :=
  if (inst.totalColumns : ℤ) ≠ userTableTotalColumns then
    "instance column count doesn't match with userdata columns,  ".toList ++
      " instance columns: ".toList ++ stdToString inst.totalColumns ++
      " userdata columns:".toList ++ stdToString userTableTotalColumns
  else match tables.getColumnNames inst.instanceId inst.totalColumns, file.getColumnNamesList with
    | some (some instanceColumnNames), some userTableColumnNames =>
      match matchColumns userTableColumnNames instanceColumnNames.toList inst.totalColumns with
      | some result =>
        if userTableColumnNames ≠ [] ∧ result.length ≠ inst.totalColumns then
          "Instance table and User table columns did not match".toList
        else []
      | none => []
    | _, _ => []

structure DataProcessor where
  tableData : TableData
  instanceData : Option InstanceData
  errorString : Text

namespace DataProcessor

/-- The instance that the table asks for. -/
def instance? (dataProc : DataProcessor) (w : ProcessorWorld) : Instance :=
  w.globalInstanceList.getInstanceFromId dataProc.tableData.instanceType

/-- The handle of `InstanceData`. -/
def userFile (dataProc : DataProcessor) (w : ProcessorWorld) : FileDataBaseAccess :=
  openFile w.disk dataProc.tableData.tableID .readFile

def initlize (dataProc : DataProcessor) (w : ProcessorWorld) : Option (ℤ × DataProcessor) :=
  let inst := dataProc.instance? w
  let cols := wrapInt dataProc.tableData.metadata.columns
  if inst.instanceId.isEmpty then some (-1, dataProc)
  else (InstanceData.initlizeData w.tables inst cols (dataProc.userFile w)).map
    fun (rc, instanceData) =>
      if rc ≠ 0 then
        (-1, { dataProc with
          instanceData := some instanceData
          errorString := InstanceData.errorString w.tables inst cols (dataProc.userFile w) })
      else (0, { dataProc with instanceData := some instanceData })

end DataProcessor

/-- `data_proc`. -/
def dataProcStates : ProcessStates := ⟨2, true, true, true, true⟩

/-- What `init_job` makes of it. -/
def dataProcJob (address : ℕ) (tableData : TableData) : QueueJob :=
  .new (.registered address dataProcStates tableData.priority)

/-- `cleaners` are the tables that were handed to `init_data_cleaner`. -/
structure ProcessorData where
  dataProc : DataProcessor
  world : ProcessorWorld
  pushed : List ForwardStackPackage
  cleaners : List (TableData × InstanceData)

namespace DataProcessor

/-- The callbacks of `data_proc`. No call is pending, so the one that pauses is not run. -/
def callbacks : StageCallbacks ProcessorData Unit ProcessorWorld where
  startProc _ d := (d.dataProc.initlize d.world).map fun (rc, dataProc) =>
    (if rc ≠ 0 then .failed else .done, { d with dataProc := dataProc })
  endProc d := d.dataProc.instanceData.map fun instanceData =>
    { d with cleaners := d.cleaners ++ [(d.dataProc.tableData, instanceData)] }
  failProc d := some
    { d with
      pushed := d.pushed ++ [d.dataProc.tableData.package .datErr d.dataProc.errorString]
      world := { d.world with disk := deallocTableDat d.world.disk d.dataProc.tableData.tableID } }
  other d world := { d with world := world }

/-- `init_data_processor`. -/
def start (address : ℕ) (tableData : TableData) (world : ProcessorWorld) :
    StageRun ProcessorData :=
  .start (dataProcJob address tableData) ⟨⟨tableData, none, []⟩, world, [], []⟩

/-- The worker has the instance of the table, and `initlizeData` makes `instanceData`. -/
def Accepts (tableData : TableData) (instanceData : InstanceData) (w : ProcessorWorld) : Prop :=
  let inst := w.globalInstanceList.getInstanceFromId tableData.instanceType
  inst.instanceId ≠ [] ∧
    InstanceData.initlizeData w.tables inst (wrapInt tableData.metadata.columns)
      (openFile w.disk tableData.tableID .readFile) = some (0, instanceData)

/-- The worker has not the instance, or other columns. -/
def Rejects (tableData : TableData) (w : ProcessorWorld) : Prop :=
  let inst := w.globalInstanceList.getInstanceFromId tableData.instanceType
  inst.instanceId = [] ∨
    InstanceData.validateColumns w.tables inst (wrapInt tableData.metadata.columns)
      (openFile w.disk tableData.tableID .readFile) = some none

/-- The text of an error in one of the worlds `G`: of a call that was rejected, or none. -/
def ErrorText (G : ProcessorWorld → Prop) (tableData : TableData) (errorString : Text) : Prop :=
  errorString = [] ∨ ∃ w, G w ∧ Rejects tableData w ∧
    errorString = InstanceData.errorString w.tables
      (w.globalInstanceList.getInstanceFromId tableData.instanceType)
      (wrapInt tableData.metadata.columns) (openFile w.disk tableData.tableID .readFile)

variable {tableData : TableData} {w : ProcessorWorld} {dataProc dataProc' : DataProcessor} {rc : ℤ}

theorem initlizeData_cases {tables : SqliteTables} {inst : Instance} {cols : ℤ}
    {file : FileDataBaseAccess} {instanceData : InstanceData}
    (h : InstanceData.initlizeData tables inst cols file = some (rc, instanceData)) :
    (rc ≠ 0 ∧ InstanceData.validateColumns tables inst cols file = some none) ∨ rc = 0 := by
  obtain ⟨result, hresult, heq⟩ := Option.map_eq_some_iff.mp h
  cases result with
  | none =>
    cases heq
    exact .inl ⟨by decide, hresult⟩
  | some columnNames =>
    cases heq
    exact .inr rfl

/-- What one call of `initlize` can do. -/
theorem initlize_cases (h : dataProc.initlize w = some (rc, dataProc')) :
    (rc = -1 ∧ Rejects dataProc.tableData w ∧ dataProc'.tableData = dataProc.tableData ∧
      (dataProc'.errorString = dataProc.errorString ∨
        dataProc'.errorString = InstanceData.errorString w.tables (dataProc.instance? w)
          (wrapInt dataProc.tableData.metadata.columns) (dataProc.userFile w))) ∨
    ∃ instanceData, rc = 0 ∧ Accepts dataProc.tableData instanceData w ∧
      dataProc' = { dataProc with instanceData := some instanceData } := by
  unfold initlize at h
  dsimp only at h
  split_ifs at h with hempty
  · cases h
    exact .inl ⟨rfl, .inl (List.isEmpty_iff.mp hempty), rfl, .inl rfl⟩
  · obtain ⟨⟨code, instanceData⟩, hdata, heq⟩ := Option.map_eq_some_iff.mp h
    rcases initlizeData_cases hdata with ⟨hcode, hinvalid⟩ | rfl
    · rw [if_pos hcode, Prod.mk.injEq] at heq
      obtain ⟨rfl, rfl⟩ := heq
      refine .inl ⟨rfl, .inr hinvalid, rfl, .inr ?_⟩
      dsimp only
    · rw [if_neg (not_not.mpr rfl), Prod.mk.injEq] at heq
      obtain ⟨rfl, rfl⟩ := heq
      exact .inr ⟨instanceData, rfl, ⟨fun hnil => hempty (List.isEmpty_iff.mpr hnil), hdata⟩, rfl⟩

/-- A call fails while the worker rejects the table. -/
theorem initlize_of_rejects (h : Rejects dataProc.tableData w) :
    ∃ dataProc', dataProc.initlize w = some (-1, dataProc') ∧
      dataProc'.tableData = dataProc.tableData := by
  unfold initlize
  dsimp only
  split_ifs with hempty
  · exact ⟨dataProc, rfl, rfl⟩
  · rcases h with hnone | hinvalid
    · exact absurd (List.isEmpty_iff.mpr hnone) hempty
    · rw [InstanceData.initlizeData]
      simp only [instance?, userFile, hinvalid, Option.map_some]
      exact ⟨_, rfl, rfl⟩

variable {G : ProcessorWorld → Prop} {s : StageRun ProcessorData} {world : ProcessorWorld}

/-- What is known of a table until the job of its data processor ends, in worlds with `G`. -/
structure Processing (G : ProcessorWorld → Prop) (tableData : TableData) (d : ProcessorData)
    (statuses : List JobStatus) : Prop where
  tableData_eq : d.dataProc.tableData = tableData
  world : G d.world
  silent : d.pushed = [] ∧ d.cleaners = []
  errorText : ErrorText G tableData d.dataProc.errorString
  accepted : .done ∈ statuses → ∃ instanceData w, G w ∧ Accepts tableData instanceData w ∧
    d.dataProc.instanceData = some instanceData

/-- What has come of a table. -/
inductive Outcome (G : ProcessorWorld → Prop) (tableData : TableData) (d : ProcessorData) :
    List JobStatus → Prop where
  | cleaned (instanceData : InstanceData) (w : ProcessorWorld) (hworld : G w)
      (haccepts : Accepts tableData instanceData w) (hpushed : d.pushed = [])
      (hcleaners : d.cleaners = [(tableData, instanceData)]) : Outcome G tableData d [.done]
  | told (k : ℕ) (errorString : Text) (instanceData : InstanceData) (w : ProcessorWorld)
      (htext : ErrorText G tableData errorString) (hworld : G w)
      (haccepts : Accepts tableData instanceData w)
      (hpushed : d.pushed = [tableData.package .datErr errorString]) (hcleaners : d.cleaners = []) :
      Outcome G tableData d (List.replicate (k + 1) .failed ++ [.done])

theorem Processing.startProc {d d' : ProcessorData} {status : JobStatus} {k : ℕ}
    (hs : Processing G tableData d (List.replicate k .failed))
    (h : callbacks.startProc () d = some (status, d')) :
    (status = .done ∨ status = .failed) ∧
      Processing G tableData d' (List.replicate k .failed ++ [status]) := by
  obtain ⟨⟨rc, dataProc⟩, hinit, heq⟩ := Option.map_eq_some_iff.mp h
  simp only [Prod.mk.injEq] at heq
  obtain ⟨rfl, rfl⟩ := heq
  have htable := hs.tableData_eq
  rcases initlize_cases hinit with ⟨rfl, hrejects, hkept, htext⟩ |
    ⟨instanceData, rfl, haccepts, rfl⟩
  · refine ⟨.inr rfl, hkept.trans htable, hs.world, hs.silent, ?_, by simp⟩
    rcases htext with hsame | htext
    · rw [hsame]
      exact hs.errorText
    · rw [htext, instance?, userFile, htable]
      exact .inr ⟨d.world, hs.world, htable ▸ hrejects, rfl⟩
  · exact ⟨.inl rfl, htable, hs.world, hs.silent, hs.errorText,
      fun _ => ⟨instanceData, d.world, hs.world, htable ▸ haccepts, rfl⟩⟩

theorem keeps (G : ProcessorWorld → Prop) (tableData : TableData) :
    callbacks.Keeps G (Processing G tableData) (Outcome G tableData) := by
  constructor
  · exact fun hs h => hs.startProc h
  · intro d d' hs h
    obtain ⟨instanceData, hdata, rfl⟩ := Option.map_eq_some_iff.mp h
    obtain ⟨instanceData', w, hworld, haccepts, hsome⟩ := hs.accepted (List.mem_singleton_self _)
    rw [hdata, Option.some.injEq] at hsome
    subst hsome
    refine .cleaned instanceData w hworld haccepts hs.silent.1 ?_
    dsimp only
    rw [hs.silent.2, hs.tableData_eq, List.nil_append]
  · intro d d' k hs h
    cases h
    obtain ⟨instanceData, w, hworld, haccepts, _⟩ := hs.accepted (by simp)
    refine .told k d.dataProc.errorString instanceData w hs.errorText hworld haccepts ?_ hs.silent.2
    dsimp only
    rw [hs.silent.1, hs.tableData_eq, List.nil_append]
  · exact fun hs hw => ⟨hs.tableData_eq, hw, hs.silent, hs.errorText, hs.accepted⟩
  · intro d statuses w hs _
    cases hs with
    | cleaned instanceData w hworld haccepts hpushed hcleaners =>
      exact .cleaned instanceData w hworld haccepts hpushed hcleaners
    | told k errorString instanceData w htext hworld haccepts hpushed hcleaners =>
      exact .told k errorString instanceData w htext hworld haccepts hpushed hcleaners

theorem fresh_dataProcJob (address : ℕ) (tableData : TableData) :
    (dataProcJob address tableData).Fresh := ⟨rfl, rfl⟩

/-- In every run the table is silent until its job ends. It is cleaned when the first call
was accepted; the server is told of an error, the file of the table being dropped, when a
later call was. -/
theorem outcome_of_exec {address : ℕ} {es : List (StageEvent Unit ProcessorWorld)}
    (hworld : G world) (hG : ∀ w, .other w ∈ es → G w)
    (hrun : exec (StageRun.stageStep callbacks) (start address tableData world) es = some s) :
    (s.job.stage ≠ .freed → s.data.pushed = [] ∧ s.data.cleaners = []) ∧
      (s.job.stage = .freed → Outcome G tableData s.data s.statuses) := by
  have hstart : Processing G tableData ⟨⟨tableData, none, []⟩, world, [], []⟩ [] :=
    ⟨rfl, hworld, ⟨rfl, rfl⟩, .inl rfl, by simp⟩
  have hs := (StageRun.kept_start (fresh_dataProcJob address tableData) hstart).exec
    (keeps G tableData) hG hrun
  exact ⟨fun hopen => (hs.opened hopen).silent, hs.closed⟩

theorem fails (tableData : TableData) :
    callbacks.Fails (Rejects tableData) fun d =>
      d.dataProc.tableData = tableData ∧ Rejects tableData d.world := by
  constructor
  · rintro d ⟨htable, hrejects⟩ _
    obtain ⟨dataProc, hinit, hkept⟩ := initlize_of_rejects (htable ▸ hrejects)
    refine ⟨{ d with dataProc := dataProc }, ?_, hkept.trans htable, hrejects⟩
    simp [callbacks, hinit]
  · exact fun hs hw => ⟨hs.1, hw⟩

/-- A table whose columns the worker never accepts is called any number of times: its job
never ends, and the server is not told of the error. -/
theorem rejected_never_ends {address : ℕ} {es : List (StageEvent Unit ProcessorWorld)}
    (hworld : Rejects tableData world) (hG : ∀ w, .other w ∈ es → Rejects tableData w)
    (hrun : exec (StageRun.stageStep callbacks) (start address tableData world) es = some s)
    (k : ℕ) :
    s.job.stage ≠ .freed ∧ s.data.pushed = [] ∧ s.data.cleaners = [] ∧
      (∀ status ∈ s.statuses, status = .failed) ∧
      ∃ more t, exec (StageRun.stageStep callbacks) s more = some t ∧
        t.statuses = s.statuses ++ List.replicate k .failed := by
  obtain ⟨hopen, hfailed, hmore⟩ := StageRun.never_ends (fails tableData)
    (fresh_dataProcJob address tableData) ⟨rfl, hworld⟩ hG hrun () k
  obtain ⟨hpushed, hcleaners⟩ := (outcome_of_exec hworld hG hrun).1 hopen
  exact ⟨hopen, hpushed, hcleaners, hfailed, hmore⟩

/-- A worker with the columns `h` and `c`, and the table of one positive row. -/
def worldOf (globalInstanceList : InstanceList) : ProcessorWorld :=
  ⟨globalInstanceList, ⟨fun _ => some [['h'], ['c']], fun _ columnName => some [columnName]⟩,
    TableRun.onePositiveDisk⟩

/-- The events of one call. -/
def oneCall : List (StageEvent Unit ProcessorWorld) :=
  [.task .dispatch (), .task .iterate (), .task .startReturns ()]

/-- The instance arrives when the first call has been made. -/
def lateInstance : List (StageEvent Unit ProcessorWorld) :=
  oneCall ++ .other (worldOf [.new ['i'] 0 2 1]) :: oneCall ++ [.task .dispatch ()]

/-- The server is told of an error of the table that has just been accepted. -/
theorem outcome_of_exec_lateInstance :
    ∃ s, exec (StageRun.stageStep callbacks) (start 0 TableRun.onePositiveTable (worldOf []))
        lateInstance = some s ∧
      s.job.stage = .freed ∧ s.data.pushed.length = 1 ∧
      Outcome (fun w => w = worldOf [] ∨ w = worldOf [.new ['i'] 0 2 1])
        TableRun.onePositiveTable s.data s.statuses := by
  have hrun : (exec (StageRun.stageStep callbacks)
      (start 0 TableRun.onePositiveTable (worldOf [])) lateInstance).map
      (fun s => (s.job.stage, s.data.pushed.length)) = some (.freed, 1) := by decide +kernel
  obtain ⟨s, hs, hend⟩ := Option.map_eq_some_iff.mp hrun
  obtain ⟨hfreed, hlength⟩ := Prod.mk.inj hend
  have hG : ∀ w, .other w ∈ lateInstance →
      w = worldOf [] ∨ w = worldOf [.new ['i'] 0 2 1] := by
    intro w hw
    simpa [lateInstance, oneCall] using Or.inr hw
  exact ⟨s, hs, hfreed, hlength, (outcome_of_exec (.inl rfl) hG hs).2 hfreed⟩

/-- The instance has three columns, and the table two. -/
theorem rejected_never_ends_threeColumns :
    ∃ s, exec (StageRun.stageStep callbacks)
        (start 0 TableRun.onePositiveTable (worldOf [.new ['i'] 0 3 1])) oneCall = some s ∧
      s.job.stage ≠ .freed ∧ s.data.pushed = [] ∧ s.data.cleaners = [] ∧
      (∀ status ∈ s.statuses, status = .failed) ∧
      ∃ more t, exec (StageRun.stageStep callbacks) s more = some t ∧
        t.statuses = s.statuses ++ List.replicate 1000 .failed := by
  have hrun : (exec (StageRun.stageStep callbacks)
      (start 0 TableRun.onePositiveTable (worldOf [.new ['i'] 0 3 1])) oneCall).isSome = true := by
    decide +kernel
  obtain ⟨s, hs⟩ := Option.isSome_iff_exists.mp hrun
  have hworld : Rejects TableRun.onePositiveTable (worldOf [.new ['i'] 0 3 1]) :=
    .inr (by decide +kernel)
  exact ⟨s, hs, rejected_never_ends hworld (by simp [oneCall]) hs 1000⟩

end DataProcessor

end WorkerUnit
