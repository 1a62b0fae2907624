import WorkerUnit.Library.StepSystem
import WorkerUnit.DataProcessor.InstanceData
import WorkerUnit.Scheduler.Job
import WorkerUnit.Services.FileDataBaseAccess

/-!
# The validate phase

`data_processor/data_validator.cpp` and the loop of `schedule_validate_phase` in
`data_processor/data_tracker.cpp`. Each split works on its own copy of the file,
read when the split is constructed, and its destructor commits the copy. A run
constructs, steps and destroys the splits in any order.
-/

namespace WorkerUnit

open StepSystem FileDataBaseAccess

def nan : Text := ['N', 'a', 'N']

structure ValidateData where
  instanceData : InstanceData
  fileDataBaseAccess : FileDataBaseAccess
  startRow : ℤ
  endRow : ℤ
  iterator : ℤ
  tableData : TableData

namespace ValidateData

variable [BoostIequals]

/-- The constructor. -/
def new (disk : Disk) (startIndex endIndex : ℤ) (tableData : TableData)
    (instanceData : InstanceData) : ValidateData :=
  ⟨instanceData, openFile disk tableData.tableID .rwFile, startIndex, endIndex, startIndex,
    tableData⟩

def validateFeild (v : ValidateData) (curCol : ℕ) (feild : Text) : Option Text :=
  match v.instanceData.getPossibleFields curCol with
  | none => none
  | some none => some feild
  | some (some temp) => some (if temp.toList.any fun t => iequals t feild then feild else nan)

def cleanData (v : ValidateData) (curCol : ℕ) (feild : Text) : Option Text :=
  if feild.isEmpty then some nan else v.validateFeild curCol feild

/-- The loop of `processFeild` over the columns; a cell past the end of the row
is no value. -/
def cleanRow (v : ValidateData) (feildList : List Text) : Option (List Text) :=
  (List.range v.tableData.metadata.columns).mapM fun i => feildList[i]?.bind (v.cleanData i)

/-- The comparison with `rows` is unsigned, so a negative row is past the end too. -/
def processFeild (v : ValidateData) : Option (ℤ × ValidateData) :=
  if v.iterator < 0 ∨ v.tableData.metadata.rows ≤ v.iterator then some (1, v)
  else match v.fileDataBaseAccess.getRowValueList v.iterator with
    | none => none
    | some feildList =>
      match v.cleanRow feildList with
      | none => none
      | some temp =>
        if temp = feildList then some (0, { v with iterator := v.iterator + 1 })
        else match v.fileDataBaseAccess.writeRowValueList temp v.iterator with
          | none => none
          | some (_, file) =>
            some (0, { v with fileDataBaseAccess := file, iterator := v.iterator + 1 })

def validateDataStart (v : ValidateData) : Option (JobStatus × ValidateData) :=
  v.processFeild.map fun r => (if r.1 ≠ 0 then .done else .pending, r.2)

end ValidateData

/-- The loop of `schedule_validate_phase`: the start and end rows it passes on. They are
those of the `int` variables as long as the last end row is an `int`. -/
def validateLoop (rows multiplier startIndex endIndex : ℤ) : List ℕ → List (ℤ × ℤ)
  | [] => []
  | i :: is =>
    let next := endIndex + multiplier * i
    (startIndex, endIndex) ::
      validateLoop rows multiplier (endIndex + 1) (if next + 1 ≤ rows then next + 1 else next) is

def validateRanges (rows totalThreads : ℕ) : List (ℤ × ℤ) :=
  let multiplier : ℤ := (rows / totalThreads : ℕ)
  validateLoop rows multiplier 1 multiplier (List.range' 1 totalThreads)

/-- A split of the validate phase: `finished` after its task has returned
`JOB_DONE`, `destroyed` after its handle has been committed and closed. -/
inductive ValidateSplit where
  | waiting
  | running (v : ValidateData)
  | finished (v : ValidateData)
  | destroyed

instance (split : ValidateSplit) : Decidable (split = .destroyed) :=
  match split with
  | .destroyed => isTrue rfl
  | .waiting | .running _ | .finished _ => isFalse nofun

def ValidateSplit.data? : ValidateSplit → Option ValidateData
  | running v => some v
  | finished v => some v
  | _ => none

structure ValidateRun where
  disk : Disk
  split : ℕ → ValidateSplit

inductive ValidateEvent where
  | initValidateDataPhase (i : ℕ)
  | validateDataStart (i : ℕ)
  | validateDataFinalize (i : ℕ)
  deriving DecidableEq, Repr

namespace ValidateRun

def start (disk : Disk) : ValidateRun := ⟨disk, fun _ => .waiting⟩

def setSplit (s : ValidateRun) (i : ℕ) (split : ValidateSplit) : ValidateRun :=
  { s with split := Function.update s.split i split }

def validate [BoostIequals] (totalThreads : ℕ) (instanceData : InstanceData) (tableData : TableData)
    (s : ValidateRun) : ValidateEvent → Option ValidateRun
  | .initValidateDataPhase i =>
    match s.split i, (validateRanges tableData.metadata.rows totalThreads)[i]? with
    | .waiting, some (startIndex, endIndex) =>
      some (s.setSplit i (.running (.new s.disk startIndex endIndex tableData instanceData)))
    | _, _ => none
  | .validateDataStart i =>
    match s.split i with
    | .running v => v.validateDataStart.map fun r =>
      s.setSplit i (if r.1 = .done then .finished r.2 else .running r.2)
    | _ => none
  | .validateDataFinalize i =>
    match s.split i with
    | .finished v =>
      some { s.setSplit i .destroyed with disk := v.fileDataBaseAccess.closeFile s.disk }
    | _ => none

/-- Every split has been destroyed. -/
def Completed (totalThreads : ℕ) (s : ValidateRun) : Prop :=
  ∀ i < totalThreads, s.split i = .destroyed

instance (totalThreads : ℕ) (s : ValidateRun) : Decidable (s.Completed totalThreads) :=
  inferInstanceAs (Decidable (∀ i < totalThreads, s.split i = .destroyed))

end ValidateRun

/-- The cell that a cell is to be replaced by, given the instance values of its column. -/
def cleanedCell [BoostIequals] (values : List Text) (cell : Text) : Text :=
  if cell ≠ [] ∧ ∃ value ∈ values, iequals value cell then cell else nan

/-- The law of the validate phase. -/
structure Cleaned [BoostIequals] (instanceData : InstanceData) (tableData : TableData)
    (before after : Disk) : Prop where
  header : (fileLines after tableData.tableID)[0]? = (fileLines before tableData.tableID)[0]?
  cell : ∀ r ≤ tableData.metadata.rows, 1 ≤ r → ∀ c < tableData.metadata.columns,
    cellOnDisk after tableData.tableID r c =
      (cellOnDisk before tableData.tableID r c).map (cleanedCell (instanceData.values c))

/-- The cell is one of the values, up to case, or already the text `NaN`. -/
def CellClean [BoostIequals] (values : List Text) (cell : Text) : Prop :=
  (cell ≠ [] ∧ ∃ value ∈ values, iequals value cell) ∨ cell = nan

instance [BoostIequals] (values : List Text) (cell : Text) : Decidable (CellClean values cell) :=
  inferInstanceAs (Decidable (_ ∨ _))

/-- No cell of rows `1..R` has to be replaced. -/
def NothingToClean [BoostIequals] (instanceData : InstanceData) (tableData : TableData)
    (disk : Disk) : Prop :=
  ∀ r ≤ tableData.metadata.rows, 1 ≤ r → ∀ c < tableData.metadata.columns,
    ∀ cell ∈ cellOnDisk disk tableData.tableID r c, CellClean (instanceData.values c) cell

instance [BoostIequals] (instanceData : InstanceData) (tableData : TableData) (disk : Disk) :
    Decidable (NothingToClean instanceData tableData disk) :=
  inferInstanceAs (Decidable (∀ r ≤ _, 1 ≤ r → ∀ c < _, ∀ cell ∈ _, CellClean _ cell))

namespace ValidateData

theorem exists_mapM_eq_some {α β : Type} {f : α → Option β} {xs : List α}
    (h : ∀ x ∈ xs, ∃ y, f x = some y) : ∃ ys, xs.mapM f = some ys ∧ ys.length = xs.length := by
  induction xs with
  | nil => exact ⟨[], rfl, rfl⟩
  | cons x xs ih =>
    obtain ⟨y, hy⟩ := h x (List.mem_cons_self ..)
    obtain ⟨ys, hys, hlength⟩ := ih fun z hz => h z (List.mem_cons_of_mem _ hz)
    exact ⟨y :: ys, by simp [List.mapM_cons, hy, hys], by simp [hlength]⟩

variable [BoostIequals] {v w : ValidateData}

/-- What one call of `processFeild` can do: nothing at the end of the table, and
else move on, with at most the line of its row replaced in memory. -/
theorem processFeild_cases {rc : ℤ} (h : v.processFeild = some (rc, w)) :
    (rc = 1 ∧ w = v) ∨
      ∃ data, rc = 0 ∧ 0 ≤ v.iterator ∧ v.iterator < v.tableData.metadata.rows ∧
        w = { v with
          fileDataBaseAccess := { v.fileDataBaseAccess with readWriteData := data }
          iterator := v.iterator + 1 } ∧
        data.length = v.fileDataBaseAccess.readWriteData.length ∧
        ∀ r : ℕ, (r : ℤ) ≠ v.iterator → data[r]? = v.fileDataBaseAccess.readWriteData[r]? := by
  unfold processFeild at h
  split_ifs at h with hend
  · cases h
    exact Or.inl ⟨rfl, rfl⟩
  · right
    have hnonneg : 0 ≤ v.iterator := by omega
    have hlt : v.iterator < v.tableData.metadata.rows := by omega
    cases hfeild : v.fileDataBaseAccess.getRowValueList v.iterator with
    | none => simp [hfeild] at h
    | some feildList =>
      cases htemp : v.cleanRow feildList with
      | none => simp [hfeild, htemp] at h
      | some temp =>
        simp only [hfeild, htemp] at h
        split_ifs at h with hsame
        · cases h
          exact ⟨_, rfl, hnonneg, hlt, rfl, rfl, fun _ _ => rfl⟩
        · cases hwrite : v.fileDataBaseAccess.writeRowValueList temp v.iterator with
          | none => simp [hwrite] at h
          | some r =>
            obtain ⟨rc', file⟩ := r
            obtain ⟨data, rfl, hlength, hrows⟩ := writeRowValueList_frame hwrite
            simp only [hwrite, Option.some.injEq, Prod.mk.injEq] at h
            obtain ⟨rfl, rfl⟩ := h
            exact ⟨data, rfl, hnonneg, hlt, rfl, hlength, hrows⟩

theorem validateDataStart_cases {status : JobStatus}
    (h : v.validateDataStart = some (status, w)) :
    (status = .done ∧ w = v) ∨
      ∃ data, status = .pending ∧ 0 ≤ v.iterator ∧ v.iterator < v.tableData.metadata.rows ∧
        w = { v with
          fileDataBaseAccess := { v.fileDataBaseAccess with readWriteData := data }
          iterator := v.iterator + 1 } ∧
        data.length = v.fileDataBaseAccess.readWriteData.length ∧
        ∀ r : ℕ, (r : ℤ) ≠ v.iterator → data[r]? = v.fileDataBaseAccess.readWriteData[r]? := by
  unfold validateDataStart at h
  obtain ⟨⟨rc, u⟩, hprocess, hr⟩ := Option.map_eq_some_iff.mp h
  rcases processFeild_cases hprocess with ⟨rfl, hw⟩ | ⟨data, rfl, hw⟩
  · cases hr
    exact Or.inl ⟨rfl, hw⟩
  · cases hr
    exact Or.inr ⟨data, rfl, hw⟩

theorem cleanData_isSome {column : ℕ} (feild : Text)
    (h : column < v.instanceData.instanceDataMatrix.length) :
    ∃ cell, v.cleanData column feild = some cell := by
  unfold cleanData
  split_ifs
  · exact ⟨nan, rfl⟩
  · unfold validateFeild InstanceData.getPossibleFields
    rw [List.getElem?_eq_getElem h]
    cases v.instanceData.instanceDataMatrix[column] with
    | none => exact ⟨feild, rfl⟩
    | some values => exact ⟨_, rfl⟩

/-- A row with a cell in each column is cleaned cell by cell. -/
theorem cleanRow_isSome {feildList : List Text}
    (hcells : v.tableData.metadata.columns ≤ feildList.length)
    (hinstance : v.tableData.metadata.columns ≤ v.instanceData.instanceDataMatrix.length) :
    ∃ temp, v.cleanRow feildList = some temp ∧
      temp.length = v.tableData.metadata.columns := by
  have hcell : ∀ i < v.tableData.metadata.columns,
      ∃ cell, feildList[i]?.bind (v.cleanData i) = some cell := by
    intro i hi
    rw [List.getElem?_eq_getElem (hi.trans_le hcells), Option.bind_some]
    exact cleanData_isSome _ (hi.trans_le hinstance)
  obtain ⟨temp, htemp, hlength⟩ := exists_mapM_eq_some
    (fun i hi => hcell i (List.mem_range.mp hi))
  exact ⟨temp, htemp, hlength.trans List.length_range⟩

/-- A call in front of a row of the file that has a cell in each column moves on. -/
theorem validateDataStart_row {k : ℕ} (hiterator : v.iterator = k)
    (hrow : k < v.tableData.metadata.rows) (hwritable : v.fileDataBaseAccess.Writable)
    (hin : k < v.fileDataBaseAccess.readWriteData.length)
    (hcells : v.tableData.metadata.columns ≤
      (advTokenizer (v.fileDataBaseAccess.readWriteData[k]?.getD []) ',').length)
    (hinstance : v.tableData.metadata.columns ≤ v.instanceData.instanceDataMatrix.length)
    (hcolumns : 1 ≤ v.tableData.metadata.columns) :
    ∃ w, v.validateDataStart = some (.pending, w) ∧ w.iterator = k + 1 := by
  obtain ⟨temp, htemp, hlength⟩ := cleanRow_isSome hcells hinstance
  have hnonempty : temp ≠ [] := List.ne_nil_of_length_pos (by omega)
  obtain ⟨file, hwrite⟩ := writeRowValueList_isSome hwritable hnonempty hin
  have hend : ¬ (v.iterator < 0 ∨ (v.tableData.metadata.rows : ℤ) ≤ v.iterator) := by omega
  unfold validateDataStart processFeild
  rw [if_neg hend, hiterator, getRowValueList_of_writable hwritable]
  simp only [htemp, hwrite]
  split_ifs
  · exact ⟨_, rfl, rfl⟩
  · exact ⟨_, rfl, rfl⟩

end ValidateData

namespace ValidateRun

variable {totalThreads : ℕ} {instanceData : InstanceData} {tableData : TableData}
  {disk : Disk} {s t : ValidateRun}

@[simp] theorem setSplit_disk (s : ValidateRun) (i : ℕ) (split : ValidateSplit) :
    (s.setSplit i split).disk = s.disk := rfl

@[simp] theorem setSplit_split (s : ValidateRun) (i : ℕ) (split : ValidateSplit) :
    (s.setSplit i split).split = Function.update s.split i split := rfl

/-- What holds of every validator holds after one of them has been replaced. -/
theorem forall_setSplit {P : ValidateData → Prop}
    (hs : ∀ j v, (s.split j).data? = some v → P v) (i : ℕ) {split : ValidateSplit}
    (h : ∀ v, split.data? = some v → P v) :
    ∀ j v, ((s.setSplit i split).split j).data? = some v → P v := by
  rw [setSplit_split]
  exact (Function.forall_update_iff s.split fun _ split => ∀ v, split.data? = some v → P v).mpr
    ⟨h, fun j _ => hs j⟩

/-- The disk is as it was and no handle is marked for the commit. -/
structure Uncommitted (disk : Disk) (s : ValidateRun) : Prop where
  disk_eq : s.disk = disk
  clean : ∀ i v, (s.split i).data? = some v → v.fileDataBaseAccess.dataModified = false

theorem Uncommitted.setSplit (hs : s.Uncommitted disk) (i : ℕ) {split : ValidateSplit}
    (h : ∀ v, split.data? = some v → v.fileDataBaseAccess.dataModified = false) :
    (s.setSplit i split).Uncommitted disk :=
  ⟨hs.disk_eq, forall_setSplit hs.clean i h⟩

variable [BoostIequals]

/-- What one event can do: it constructs, steps or destroys one split. -/
theorem validate_cases {e : ValidateEvent}
    (h : validate totalThreads instanceData tableData s e = some t) :
    (∃ i startIndex endIndex,
      (validateRanges tableData.metadata.rows totalThreads)[i]? = some (startIndex, endIndex) ∧
      t = s.setSplit i (.running (.new s.disk startIndex endIndex tableData instanceData))) ∨
    (∃ i v w, s.split i = .running v ∧
      ((v.validateDataStart = some (.done, w) ∧ t = s.setSplit i (.finished w)) ∨
        v.validateDataStart = some (.pending, w) ∧ t = s.setSplit i (.running w))) ∨
    ∃ i v, s.split i = .finished v ∧
      t = { s.setSplit i .destroyed with disk := v.fileDataBaseAccess.closeFile s.disk } := by
  cases e with
  | initValidateDataPhase i =>
    left
    unfold validate at h
    dsimp only at h
    split at h
    · rename_i startIndex endIndex hwaiting hrange
      cases h
      exact ⟨i, startIndex, endIndex, hrange, rfl⟩
    · cases h
  | validateDataStart i =>
    right
    left
    unfold validate at h
    dsimp only at h
    split at h
    · rename_i v hrunning
      obtain ⟨⟨status, w⟩, hstart, rfl⟩ := Option.map_eq_some_iff.mp h
      refine ⟨i, v, w, hrunning, ?_⟩
      rcases ValidateData.validateDataStart_cases hstart with ⟨rfl, _⟩ | ⟨_, rfl, _⟩
      · exact Or.inl ⟨hstart, rfl⟩
      · exact Or.inr ⟨hstart, rfl⟩
    · cases h
  | validateDataFinalize i =>
    right
    right
    unfold validate at h
    dsimp only at h
    split at h
    · rename_i v hfinished
      cases h
      exact ⟨i, v, hfinished, rfl⟩
    · cases h

theorem Uncommitted.validate {e : ValidateEvent} (hs : s.Uncommitted disk)
    (h : validate totalThreads instanceData tableData s e = some t) : t.Uncommitted disk := by
  rcases validate_cases h with ⟨i, startIndex, endIndex, _, rfl⟩ | ⟨i, v, w, hv, hstep⟩ |
    ⟨i, v, hv, rfl⟩
  · apply hs.setSplit i
    rintro v ⟨⟩
    exact openFile_dataModified _ _
  · have hvm : v.fileDataBaseAccess.dataModified = false := hs.clean i v (by rw [hv]; rfl)
    rcases hstep with ⟨hstart, rfl⟩ | ⟨hstart, rfl⟩
    · apply hs.setSplit i
      rintro u ⟨⟩
      rcases ValidateData.validateDataStart_cases hstart with ⟨_, rfl⟩ | ⟨_, hpending, _⟩
      · exact hvm
      · cases hpending
    · apply hs.setSplit i
      rintro u ⟨⟩
      rcases ValidateData.validateDataStart_cases hstart with ⟨hdone, _⟩ | ⟨_, _, _, _, rfl, _⟩
      · cases hdone
      · exact hvm
  · have hvm : v.fileDataBaseAccess.dataModified = false := hs.clean i v (by rw [hv]; rfl)
    rw [closeFile_of_not_modified hvm]
    exact hs.setSplit i nofun

/-- No run of the validate phase changes the disk. -/
theorem disk_unchanged {es : List ValidateEvent}
    (h : exec (validate totalThreads instanceData tableData) (start disk) es = some s) :
    s.disk = disk := by
  have hstart : (start disk).Uncommitted disk := ⟨rfl, nofun⟩
  exact (exec_invariant (fun _ _ _ hs => hs.validate) hstart h).disk_eq

theorem cleanedCell_eq_self_iff {values : List Text} {cell : Text} :
    cleanedCell values cell = cell ↔ CellClean values cell := by
  unfold cleanedCell CellClean
  split_ifs with h
  · simp [h]
  · rw [eq_comm]
    exact ⟨Or.inr, fun hcell => hcell.resolve_left h⟩

/-- A disk that nothing changes obeys the law when there is nothing to clean. -/
theorem cleaned_self_iff :
    Cleaned instanceData tableData disk disk ↔ NothingToClean instanceData tableData disk := by
  constructor
  · intro h r hr hr1 c hc cell hcell
    apply cleanedCell_eq_self_iff.mp
    have hlaw := h.cell r hr hr1 c hc
    rw [Option.mem_def.mp hcell] at hlaw
    exact (Option.some.inj hlaw).symm
  · intro h
    refine ⟨rfl, ?_⟩
    intro r hr hr1 c hc
    cases hcell : cellOnDisk disk tableData.tableID r c with
    | none => rfl
    | some cell =>
      have hself := cleanedCell_eq_self_iff.mpr (h r hr hr1 c hc cell hcell)
      rw [Option.map_some, hself]

/-- However the splits interleave, a completed validate phase has cleaned the
file exactly when no cell of it had to be replaced. -/
theorem cleaned_iff {es : List ValidateEvent}
    (hrun : exec (validate totalThreads instanceData tableData) (start disk) es = some s)
    (_hcompleted : s.Completed totalThreads) :
    Cleaned instanceData tableData disk s.disk ↔ NothingToClean instanceData tableData disk := by
  rw [disk_unchanged hrun]
  exact cleaned_self_iff

end ValidateRun

namespace ValidateRun

/-- One column with the values `x` and `Y`. -/
def instanceXY : InstanceData := ⟨2, [some #v[['x'], ['Y']]]⟩

def tableOfTwoRows : TableData := ⟨⟨2, 1⟩, ['t'], .mediumPriority, ['i']⟩

theorem cleaned_valid_rows :
    ∃ s, exec (validate 2 instanceXY tableOfTwoRows)
        (start (diskOf ['t'] [['h'], ['X'], ['y']]))
        [.initValidateDataPhase 0, .initValidateDataPhase 1, .validateDataStart 0,
          .validateDataStart 1, .validateDataFinalize 1, .validateDataStart 0,
          .validateDataFinalize 0] = some s ∧ s.Completed 2 ∧
      Cleaned instanceXY tableOfTwoRows (diskOf ['t'] [['h'], ['X'], ['y']]) s.disk := by
  have hrun : ∃ s ∈ exec (validate 2 instanceXY tableOfTwoRows)
      (start (diskOf ['t'] [['h'], ['X'], ['y']]))
      [.initValidateDataPhase 0, .initValidateDataPhase 1, .validateDataStart 0,
        .validateDataStart 1, .validateDataFinalize 1, .validateDataStart 0,
        .validateDataFinalize 0], s.Completed 2 := by decide
  obtain ⟨s, hs, hcompleted⟩ := hrun
  exact ⟨s, hs, hcompleted, (cleaned_iff hs hcompleted).mpr (by decide)⟩

/-- The `z` of row 1 is replaced in memory and comes back with the next handle. -/
theorem not_cleaned_invalid_row :
    ∃ s, exec (validate 1 instanceXY tableOfTwoRows)
        (start (diskOf ['t'] [['h'], ['z'], ['x']]))
        [.initValidateDataPhase 0, .validateDataStart 0, .validateDataStart 0,
          .validateDataFinalize 0] = some s ∧ s.Completed 1 ∧
      ¬ Cleaned instanceXY tableOfTwoRows (diskOf ['t'] [['h'], ['z'], ['x']]) s.disk := by
  have hrun : ∃ s ∈ exec (validate 1 instanceXY tableOfTwoRows)
      (start (diskOf ['t'] [['h'], ['z'], ['x']]))
      [.initValidateDataPhase 0, .validateDataStart 0, .validateDataStart 0,
        .validateDataFinalize 0], s.Completed 1 := by decide
  obtain ⟨s, hs, hcompleted⟩ := hrun
  refine ⟨s, hs, hcompleted, ?_⟩
  rw [disk_unchanged hs, cleaned_self_iff]
  decide

end ValidateRun

end WorkerUnit
