import WorkerUnit.Library.SharedStore
import WorkerUnit.Receiver.Receiver
import WorkerUnit.Worker.TableProgress

/-!
# Many tables on one disk

The tables of a worker share its disk and its forward stack, and their callbacks run in any
order. Tables of one id would share their file and their entry of the result map, so the
results are about tables with different ids; those of equal lines or rows that are too
short are among the others, which may do what they like to their own files. An id that
holds a separator or a null character can name the file of another id, so the ids are
plain. A table whose `TableData` lies where an earlier one has left its counter is among
the others too.
-/

namespace WorkerUnit

open StepSystem FileDataBaseAccess SharedStore

/-- The file of the id is an entry of the working directory under the whole id: no null
character ends the path, and no separator leads elsewhere. -/
def PlainId (tableID : Text) : Prop := '\x00' ∉ tableID ∧ '/' ∉ tableID

instance (tableID : Text) : Decidable (PlainId tableID) :=
  inferInstanceAs (Decidable ('\x00' ∉ tableID ∧ '/' ∉ tableID))

theorem csvName_of_plain {tableID : Text} (h : PlainId tableID) :
    csvName tableID = tableID ++ ['.', 'c', 's', 'v'] := by
  rw [csvName, cStr_eq_self_iff]
  simp [h.1]

/-- Different plain ids have different files. -/
theorem csvName_inj {tableID other : Text} (h : PlainId tableID) (hother : PlainId other) :
    csvName tableID = csvName other ↔ tableID = other := by
  rw [csvName_of_plain h, csvName_of_plain hother]
  exact List.append_left_inj _

namespace FileDataBaseAccess

variable {f : FileDataBaseAccess} {disk : Disk} {name : Text}

/-- The destructor writes to its own file only. -/
theorem closeFile_frame (h : name ≠ f.fileName) : f.closeFile disk name = disk name := by
  unfold closeFile commitChanges
  split_ifs
  · rfl
  · rw [Function.update_of_ne h]
  · rfl

theorem deleteDuplicateRecords_fileName (f : FileDataBaseAccess) (rowIndex : ℤ) :
    (f.deleteDuplicateRecords rowIndex).2.fileName = f.fileName := by
  unfold deleteDuplicateRecords
  split_ifs
  · rfl
  · rfl
  · rfl
  · rfl
  · split <;> rfl

theorem openFile_fileName (disk : Disk) (tableID : Text) (accessMacro : FileAccessType) :
    (openFile disk tableID accessMacro).fileName = csvName tableID := by
  cases accessMacro <;> rfl

/-- A handle sees its own file only. -/
theorem openFile_congr {disk' : Disk} {tableID : Text}
    (h : disk' (csvName tableID) = disk (csvName tableID)) (accessMacro : FileAccessType) :
    openFile disk' tableID accessMacro = openFile disk tableID accessMacro := by
  simp only [openFile, fileLines, h]

end FileDataBaseAccess

/-- Dropping the file of a table leaves the other files. -/
theorem deallocTableDat_frame (disk : Disk) {tableID name : Text} (h : name ≠ csvName tableID) :
    deallocTableDat disk tableID name = disk name := by
  unfold deallocTableDat dropFile
  split_ifs
  · rfl
  · rfl
  · dsimp only
    rw [openFile_fileName, Function.update_of_ne h]

namespace Phases

variable {n totalThreads : ℕ} {instanceData : InstanceData} {tableData : TableData}
  {confirmValue : Text} {s t : Phases n}

/-- The handles of the cleaner and of the validators are open on the table's file. -/
structure OwnFile (tableID : Text) (s : Phases n) : Prop where
  cleaner : ∀ c, s.cleaner = .running c ∨ s.cleaner = .finished c →
    c.fileDataBaseAccess.fileName = csvName tableID
  validator : ∀ i v, (s.validators.split i).data? = some v →
    v.fileDataBaseAccess.fileName = csvName tableID

theorem ownFile_start (disk : Disk) :
    (start tableData disk : Phases n).OwnFile tableData.tableID := by
  constructor
  · rintro c (hc | hc)
    · cases hc
      exact openFile_fileName _ _ _
    · cases hc
  · rintro i v ⟨⟩

theorem OwnFile.validate {e : ValidateEvent} {validators : ValidateRun}
    (hs : s.OwnFile tableData.tableID)
    (h : s.validators.validate totalThreads instanceData tableData e = some validators) :
    ({ s with validators := validators } : Phases n).OwnFile tableData.tableID ∧
      ∀ name ≠ csvName tableData.tableID, validators.disk name = s.validators.disk name := by
  rcases ValidateRun.validate_cases h with ⟨i, startIndex, endIndex, _, rfl⟩ |
    ⟨i, v, w, hv, hstep⟩ | ⟨i, v, hv, rfl⟩
  · refine ⟨⟨hs.cleaner, ValidateRun.forall_setSplit hs.validator i ?_⟩, fun _ _ => rfl⟩
    rintro v ⟨⟩
    exact openFile_fileName _ _ _
  · have hname : w.fileDataBaseAccess.fileName = csvName tableData.tableID := by
      rw [← hs.validator i v (by rw [hv]; rfl)]
      rcases hstep with ⟨hstart, _⟩ | ⟨hstart, _⟩ <;>
        rcases ValidateData.validateDataStart_cases hstart with ⟨_, rfl⟩ | ⟨_, _, _, _, rfl, _⟩ <;>
        rfl
    rcases hstep with ⟨_, rfl⟩ | ⟨_, rfl⟩
    · refine ⟨⟨hs.cleaner, ValidateRun.forall_setSplit hs.validator i ?_⟩, fun _ _ => rfl⟩
      rintro u ⟨⟩
      exact hname
    · refine ⟨⟨hs.cleaner, ValidateRun.forall_setSplit hs.validator i ?_⟩, fun _ _ => rfl⟩
      rintro u ⟨⟩
      exact hname
  · have hname := hs.validator i v (by rw [hv]; rfl)
    refine ⟨⟨hs.cleaner, ValidateRun.forall_setSplit hs.validator i (by rintro u ⟨⟩)⟩, ?_⟩
    intro name hne
    exact closeFile_frame (hname ▸ hne)

/-- A phase writes to the table's own file only. -/
theorem OwnFile.phaseStep {e : PhaseEvent} (hs : s.OwnFile tableData.tableID)
    (h : s.phaseStep totalThreads instanceData tableData confirmValue e = some t) :
    t.OwnFile tableData.tableID ∧
      ∀ name ≠ csvName tableData.tableID, t.validators.disk name = s.validators.disk name := by
  rcases phaseStep_cases h with ⟨c, hc, ht⟩ | ⟨e, validators, hvalidate, rfl⟩ | ⟨c, hc, rfl⟩ |
    ⟨i, range, _, rfl⟩ | ⟨i, ce, status, ce', _, _, ht⟩
  · have hname : c.cleanDataStart.2.fileDataBaseAccess.fileName = csvName tableData.tableID :=
      (deleteDuplicateRecords_fileName _ _).trans (hs.cleaner c (.inl hc))
    rcases ht with rfl | rfl
    · refine ⟨⟨?_, hs.validator⟩, fun _ _ => rfl⟩
      rintro d (hd | hd) <;> cases hd
      exact hname
    · refine ⟨⟨?_, hs.validator⟩, fun _ _ => rfl⟩
      rintro d (hd | hd) <;> cases hd
      exact hname
  · exact hs.validate hvalidate
  · have hname := hs.cleaner c (.inr hc)
    refine ⟨⟨?_, hs.validator⟩, fun name hne => closeFile_frame (hname ▸ hne)⟩
    rintro d (hd | hd) <;> cases hd
  · exact ⟨⟨hs.cleaner, hs.validator⟩, fun _ _ => rfl⟩
  · rcases ht with rfl | rfl
    · exact ⟨⟨hs.cleaner, hs.validator⟩, fun _ _ => rfl⟩
    · exact ⟨⟨hs.cleaner, hs.validator⟩, fun _ _ => rfl⟩

/-- What is known of the phases is about the table's own file. -/
theorem Inside.withDisk {disk disk' : Disk} (hs : s.Inside instanceData tableData disk)
    (h : disk' (csvName tableData.tableID) = disk (csvName tableData.tableID)) :
    ({ s with validators := { s.validators with disk := disk' } } : Phases n).Inside instanceData
      tableData disk' := by
  have hlines : fileLines disk' tableData.tableID = fileLines disk tableData.tableID := by
    simp only [fileLines, h]
  refine ⟨rfl, ?_, ?_, ?_⟩
  · intro c hc
    rw [openFile_congr h]
    exact hs.cleaner c hc
  · rw [hlines]
    exact hs.validator
  · intro i ce hce
    rw [openFile_congr h]
    exact hs.ce i ce hce

end Phases

namespace TableRun

variable {n totalThreads algoIndex : ℕ} {instanceData : InstanceData} {tableData : TableData}
  {confirmValue : Text} {s t : TableRun n} {disk disk' : Disk} {i : ℕ}

/-- The splits of a table are about its own file. -/
theorem splitRunsTo_congr (n totalThreads : ℕ) (confirmValue : Text)
    (h : disk' (csvName tableData.tableID) = disk (csvName tableData.tableID)) :
    (SplitRunsTo totalThreads tableData confirmValue disk' : ℕ → CandidateElimination n → Prop) =
      SplitRunsTo totalThreads tableData confirmValue disk := by
  have hnew : ∀ range, CandidateElimination.new n disk' tableData.tableID confirmValue range =
      .new n disk tableData.tableID confirmValue range := by
    intro range
    simp only [CandidateElimination.new, openFile_congr h]
  funext i final
  simp only [SplitRunsTo, hnew]

theorem Told.congr (h : disk' (csvName tableData.tableID) = disk (csvName tableData.tableID))
    {packages : List ForwardStackPackage}
    (hs : Told totalThreads tableData confirmValue n disk' packages) :
    Told totalThreads tableData confirmValue n disk packages := by
  have hlines : fileLines disk' tableData.tableID = fileLines disk tableData.tableID := by
    simp only [fileLines, h]
  cases hs with
  | nothing => exact .nothing
  | received => exact .received
  | failed errorString => exact .failed errorString
  | handed =>
    rw [hlines]
    exact .handed
  | answered order finalString hperm hfinal =>
    rw [hlines]
    obtain ⟨finals, result, hfinals, hresult, hstring⟩ := hfinal
    rw [splitRunsTo_congr n totalThreads confirmValue h] at hfinals
    exact .answered order finalString hperm ⟨finals, result, hfinals, hresult, hstring⟩

/-- Where a run stands does not change when other files change. -/
theorem Standing.withDisk
    (hs : s.Standing totalThreads algoIndex instanceData tableData confirmValue disk)
    (h : disk' (csvName tableData.tableID) = s.disk (csvName tableData.tableID)) :
    ∃ first : Disk, first (csvName tableData.tableID) = disk (csvName tableData.tableID) ∧
      (s.withDisk disk').Standing totalThreads algoIndex instanceData tableData confirmValue
        first := by
  cases hs with
  | received hstage hidle hdisk hpushed =>
    exact ⟨disk', hdisk ▸ h, .received hstage ⟨⟨hidle.handed, hidle.ce, hidle.ended,
      hidle.resultVectors, hidle.ceFinalize⟩, hidle.cleaner, hidle.validators⟩ rfl hpushed⟩
  | processing hstage hidle hdisk hpushed =>
    exact ⟨disk', hdisk ▸ h, .processing hstage ⟨⟨hidle.handed, hidle.ce, hidle.ended,
      hidle.resultVectors, hidle.ceFinalize⟩, hidle.cleaner, hidle.validators⟩ rfl hpushed⟩
  | failed errorString hstage hidle hpushed =>
    exact ⟨disk, rfl, .failed errorString hstage ⟨⟨hidle.handed, hidle.ce, hidle.ended,
      hidle.resultVectors, hidle.ceFinalize⟩, hidle.cleaner, hidle.validators⟩ hpushed⟩
  | validating hstage hunhanded hinside hpushed =>
    have hown : disk' (csvName tableData.tableID) = disk (csvName tableData.tableID) := by
      rw [h, show s.disk = disk from hinside.disk_eq]
    exact ⟨disk', hown, .validating hstage ⟨hunhanded.handed, hunhanded.ce, hunhanded.ended,
      hunhanded.resultVectors, hunhanded.ceFinalize⟩ (hinside.withDisk hown) hpushed⟩
  | computing order finals hstage hhanded hinside hcomputing hresults hfinalize hpushed =>
    have hown : disk' (csvName tableData.tableID) = disk (csvName tableData.tableID) := by
      rw [h, show s.disk = disk from hinside.disk_eq]
    have hruns := splitRunsTo_congr n totalThreads confirmValue hown
    obtain ⟨hnodup, hgiven, hrunning, hended, hall, hlinked, hcovered, hle, hshort⟩ := hcomputing
    rw [← hruns] at hall
    have hlines : fileLines disk' tableData.tableID = fileLines disk tableData.tableID := by
      simp only [fileLines, hown]
    refine ⟨disk', hown, .computing order finals hstage hhanded (hinside.withDisk hown)
      ⟨hnodup, hgiven, ?_, ?_, hall, hlinked, hcovered, hle, hshort⟩ hresults hfinalize ?_⟩
    · rw [hruns]
      exact hrunning
    · rw [hruns]
      exact hended
    · rw [hlines]
      exact hpushed
  | finalizing order finals hstage hdrained hperm hfinals hresults hfinalize hpushed =>
    exact ⟨disk, rfl, .finalizing order finals hstage
      ⟨hdrained.handed, hdrained.ce, hdrained.ended⟩ hperm hfinals hresults hfinalize hpushed⟩
  | answered order finalString hstage hdrained hperm hfinal hresults hfinalize hpushed =>
    exact ⟨disk, rfl, .answered order finalString hstage
      ⟨hdrained.handed, hdrained.ce, hdrained.ended⟩ hperm hfinal hresults hfinalize hpushed⟩

theorem Reached.withDisk
    (hs : s.Reached totalThreads algoIndex instanceData tableData confirmValue disk)
    (h : disk' (csvName tableData.tableID) = s.disk (csvName tableData.tableID)) :
    ∃ first : Disk, first (csvName tableData.tableID) = disk (csvName tableData.tableID) ∧
      (s.withDisk disk').Reached totalThreads algoIndex instanceData tableData confirmValue
        first := by
  obtain ⟨first, hfirst, hstanding⟩ := hs.standing.withDisk h
  obtain ⟨hwritten, hnodup, hlt, hstarted, hcount, hscheduled⟩ := hs.counted
  obtain ⟨hearly, hcleaner, hrunning, hwaiting, hdestroyed, hdone, hhanded, hunhanded⟩ := hs.paced
  exact ⟨first, hfirst, hstanding, ⟨hwritten, hnodup, hlt, hstarted, hcount, hscheduled⟩,
    ⟨hearly, hcleaner, hrunning, hwaiting, hdestroyed, hdone, hhanded, hunhanded⟩⟩

/-- A callback writes to the table's own file only. -/
theorem ownFile_step {e : TableEvent} (hs : s.phases.OwnFile tableData.tableID)
    (h : s.tableStep totalThreads algoIndex instanceData tableData confirmValue e = some t) :
    t.phases.OwnFile tableData.tableID ∧
      ∀ name ≠ csvName tableData.tableID, t.disk name = s.disk name := by
  have hdealloc : ∀ name ≠ csvName tableData.tableID,
      deallocTableDat s.disk tableData.tableID name = s.disk name :=
    fun name hne => deallocTableDat_frame s.disk hne
  cases e with
  | receiverFinalize =>
    simp only [tableStep] at h
    split_ifs at h
    cases h
    exact ⟨hs, fun _ _ => rfl⟩
  | processDataFinalize =>
    simp only [tableStep] at h
    split_ifs at h
    cases h
    exact ⟨Phases.ownFile_start _, fun _ _ => rfl⟩
  | processDataFailed errorString =>
    simp only [tableStep] at h
    split_ifs at h
    cases h
    exact ⟨⟨hs.cleaner, hs.validator⟩, hdealloc⟩
  | phase e =>
    obtain ⟨_, _, _, phases, hphases, rfl⟩ := tableStep_phase h
    exact hs.phaseStep hphases
  | writeCounter =>
    obtain ⟨_, _, _, rfl⟩ := tableStep_writeCounter h
    exact ⟨hs, fun _ _ => rfl⟩
  | updateCleanStages i =>
    obtain ⟨_, _, ⟨_, rfl⟩ | ⟨_, rfl⟩⟩ := tableStep_updateCleanStages h
    · exact ⟨hs, fun _ _ => rfl⟩
    · exact ⟨hs, fun _ _ => rfl⟩
  | rejectSplit i =>
    obtain ⟨_, _, _, rfl⟩ := tableStep_rejectSplit h
    exact ⟨hs, fun _ _ => rfl⟩
  | schedAlgoReturns =>
    obtain ⟨_, _, rfl⟩ := tableStep_schedAlgoReturns h
    exact ⟨hs, fun _ _ => rfl⟩
  | candidateEliminationEnd i =>
    obtain ⟨ce, _, hresult⟩ := tableStep_candidateEliminationEnd h
    obtain ⟨_, rfl⟩ | ⟨_, _, _, ⟨_, rfl⟩ | ⟨_, _, _, _, rfl⟩⟩ := updateAlgoResult_cases hresult
    · exact ⟨hs, fun _ _ => rfl⟩
    · exact ⟨hs, fun _ _ => rfl⟩
    · exact ⟨⟨hs.cleaner, hs.validator⟩, hdealloc⟩
  | ceFinalizeEndProcess =>
    obtain ⟨results, _, h⟩ := Option.bind_eq_some_iff.mp h
    obtain ⟨result, _, h⟩ := Option.bind_eq_some_iff.mp h
    obtain ⟨finalString, _, rfl⟩ := Option.map_eq_some_iff.mp h
    exact ⟨hs, fun _ _ => rfl⟩

/-- A callback appends packages with the table's id, none of which is a seize notice. -/
theorem pushed_step {e : TableEvent}
    (h : s.tableStep totalThreads algoIndex instanceData tableData confirmValue e = some t) :
    ∃ new, t.pushed = s.pushed ++ new ∧ ∀ package ∈ new,
      package.tableID = tableData.tableID ∧ package.statusCode ≠ .seize := by
  have hone : ∀ statusCode data, statusCode ≠ .seize →
      ∀ package ∈ [tableData.package statusCode data],
        package.tableID = tableData.tableID ∧ package.statusCode ≠ .seize := by
    intro statusCode data hstatus package hpackage
    rw [List.mem_singleton.mp hpackage]
    exact ⟨rfl, hstatus⟩
  have hnone : ∃ new, s.pushed = s.pushed ++ new ∧ ∀ package ∈ new,
      package.tableID = tableData.tableID ∧ package.statusCode ≠ .seize :=
    ⟨[], by simp, by simp⟩
  cases e with
  | receiverFinalize =>
    simp only [tableStep] at h
    split_ifs at h
    cases h
    exact ⟨_, rfl, hone _ _ (by decide)⟩
  | processDataFinalize =>
    simp only [tableStep] at h
    split_ifs at h
    cases h
    exact hnone
  | processDataFailed errorString =>
    simp only [tableStep] at h
    split_ifs at h
    cases h
    exact ⟨_, rfl, hone _ _ (by decide)⟩
  | phase e =>
    obtain ⟨_, _, _, phases, hphases, rfl⟩ := tableStep_phase h
    obtain ⟨_, _, _, _, _, hpushed, _⟩ := recorded_frame s e
    dsimp only
    rw [hpushed]
    exact hnone
  | writeCounter =>
    obtain ⟨_, _, _, rfl⟩ := tableStep_writeCounter h
    exact hnone
  | updateCleanStages i =>
    obtain ⟨_, _, ⟨_, rfl⟩ | ⟨_, rfl⟩⟩ := tableStep_updateCleanStages h
    · exact ⟨_, rfl, hone _ _ (by decide)⟩
    · exact hnone
  | rejectSplit i =>
    obtain ⟨_, _, _, rfl⟩ := tableStep_rejectSplit h
    exact hnone
  | schedAlgoReturns =>
    obtain ⟨_, _, rfl⟩ := tableStep_schedAlgoReturns h
    exact hnone
  | candidateEliminationEnd i =>
    obtain ⟨ce, _, hresult⟩ := tableStep_candidateEliminationEnd h
    obtain ⟨_, hpushed, _⟩ := updateAlgoResult_splits hresult
    rw [hpushed]
    exact hnone
  | ceFinalizeEndProcess =>
    obtain ⟨results, _, h⟩ := Option.bind_eq_some_iff.mp h
    obtain ⟨result, _, h⟩ := Option.bind_eq_some_iff.mp h
    obtain ⟨finalString, _, rfl⟩ := Option.map_eq_some_iff.mp h
    exact ⟨_, rfl, hone _ _ (by decide)⟩

end TableRun

/-- A received table and what its phases will find: the packet, the names of the instances
at that time, the counter at the address of its `TableData`, the instance's linked algorithm
and values, and the value that marks a positive row. -/
structure Reception where
  getInstanceAliasName : Text → Text
  packet : UserDataPacket
  cleanStage : Option ℕ
  algoIndex : ℕ
  instanceData : InstanceData
  confirmValue : Text

/-- A table that is served. `received` is the disk that its reception has left. -/
structure ServedTable where
  reception : Reception
  tableData : TableData
  received : Disk
  run : TableRun (tableData.metadata.columns - 1)

namespace ServedTable

/-- An accepted packet, from the receiver's `processDataPacket`. -/
def receive : Arrival ServedTable Text (Option Text) Reception := fun disk reception =>
  match UserDataParser.processDataPacket reception.getInstanceAliasName disk reception.packet with
  | some (.success, some tableData, disk) =>
    some (⟨reception, tableData, disk, .start tableData reception.cleanStage disk⟩, disk)
  | _ => none

variable (totalThreads : ℕ)

/-- A callback of one table, on the disk as it is. -/
def callback : Call ServedTable Text (Option Text) ForwardStackPackage TableEvent :=
  fun table disk e =>
    ((table.run.withDisk disk).tableStep totalThreads table.reception.algoIndex
      table.reception.instanceData table.tableData table.reception.confirmValue e).map fun run =>
        ({ table with run := run }, run.disk, run.pushed.drop table.run.pushed.length)

/-- The name of the table's file. -/
def file (table : ServedTable) : Text := csvName table.tableData.tableID

/-- The name of the file of the table that a package is about. -/
def fileOf (package : ForwardStackPackage) : Text := csvName package.tableID

/-- The run of the table can be followed: no counter was left at its address, and its lines
are all different. -/
structure Followed (table : ServedTable) : Prop where
  cleanStage : table.reception.cleanStage = none
  nodup : (splitStringByNewline table.reception.packet.data).Nodup

instance (table : ServedTable) : Decidable table.Followed :=
  decidable_of_iff (table.reception.cleanStage = none ∧
      (splitStringByNewline table.reception.packet.data).Nodup)
    ⟨fun h => ⟨h.1, h.2⟩, fun h => ⟨h.cleanStage, h.nodup⟩⟩

/-- What is known of one table among others: what it has pushed, whose files its handles
are open on, and, when it can be followed, where its run stands. -/
structure Served (table : ServedTable) (disk : Disk) (pushed : List ForwardStackPackage) :
    Prop where
  pushed_eq : table.run.pushed = pushed
  ids : ∀ package ∈ pushed, package.tableID = table.tableData.tableID
  own : table.run.phases.OwnFile table.tableData.tableID
  lines : fileLines table.received table.tableData.tableID =
    splitStringByNewline table.reception.packet.data
  length : (splitStringByNewline table.reception.packet.data).length =
    table.tableData.metadata.rows + 1
  reached : table.Followed →
    ∃ first : Disk, first table.file = table.received table.file ∧
      (table.run.withDisk disk).Reached totalThreads table.reception.algoIndex
        table.reception.instanceData table.tableData table.reception.confirmValue first

variable {totalThreads : ℕ} {table table' : ServedTable} {disk disk' : Disk}
  {pushed new : List ForwardStackPackage} {e : TableEvent}

theorem receive_eq_some {reception : Reception} (h : receive disk reception = some (table, disk')) :
    UserDataParser.processDataPacket reception.getInstanceAliasName disk reception.packet =
        some (.success, some table.tableData, disk') ∧
      table = ⟨reception, table.tableData, disk',
        .start table.tableData reception.cleanStage disk'⟩ := by
  unfold receive at h
  split at h
  · rename_i tableData disk'' hprocess
    simp only [Option.some.injEq, Prod.mk.injEq] at h
    obtain ⟨rfl, rfl⟩ := h
    exact ⟨hprocess, rfl⟩
  · cases h

theorem callback_eq_some (h : callback totalThreads table disk e = some (table', disk', new)) :
    ∃ run, (table.run.withDisk disk).tableStep totalThreads table.reception.algoIndex
        table.reception.instanceData table.tableData table.reception.confirmValue e = some run ∧
      table' = { table with run := run } ∧ disk' = run.disk ∧
      run.pushed = table.run.pushed ++ new ∧
      ∀ package ∈ new, package.tableID = table.tableData.tableID ∧
        package.statusCode ≠ .seize := by
  obtain ⟨run, hrun, heq⟩ := Option.map_eq_some_iff.mp h
  simp only [Prod.mk.injEq] at heq
  obtain ⟨rfl, rfl, rfl⟩ := heq
  obtain ⟨new, hpushed, hnew⟩ := TableRun.pushed_step hrun
  have hdrop : run.pushed.drop table.run.pushed.length = new := by
    rw [hpushed]
    exact List.drop_left
  rw [hdrop]
  exact ⟨run, hrun, rfl, rfl, hpushed, hnew⟩

/-- The reception of a table writes to the file of its id only. -/
theorem processDataPacket_disk {getInstanceAliasName : Text → Text} {packet : UserDataPacket}
    {tableData : TableData}
    (h : UserDataParser.processDataPacket getInstanceAliasName disk packet =
      some (.success, some tableData, disk')) :
    tableData.tableID = packet.tableid ∧
      ∀ name ≠ csvName packet.tableid, disk' name = disk name := by
  obtain ⟨_, ⟨⟩, htable, _⟩ := UserDataParser.processDataPacket_record h
  refine ⟨htable, fun name hne => ?_⟩
  unfold UserDataParser.processDataPacket at h
  dsimp only at h
  split_ifs at h
  · cases h
  · split at h
    · cases h
    · simp only [Option.some.injEq, Prod.mk.injEq] at h
      obtain ⟨_, _, rfl⟩ := h
      exact closeFile_frame hne

variable (hT : 1 ≤ totalThreads)

include hT in
/-- A table among others is served as if it were alone. -/
theorem confined : Confined (callback totalThreads) receive file fileOf (Served totalThreads) := by
  constructor
  · intro table disk e table' disk' new h
    obtain ⟨run, _, rfl, _, _, hnew⟩ := callback_eq_some h
    exact ⟨rfl, fun package hpackage => congrArg csvName (hnew package hpackage).1⟩
  · intro disk reception table disk' h
    obtain ⟨hprocess, htable⟩ := receive_eq_some h
    obtain ⟨hid, hkept⟩ := processDataPacket_disk hprocess
    obtain ⟨hlines, hlength, _⟩ := UserDataParser.processDataPacket_success hprocess
    rw [htable]
    refine ⟨⟨rfl, fun _ hnil => (nomatch hnil), Phases.ownFile_start _, hlines, hlength,
      fun hfollowed => ⟨disk', rfl, ?_⟩⟩, ?_⟩
    · rw [show reception.cleanStage = none from hfollowed.cleanStage]
      exact TableRun.reached_start disk'
    · intro name hne
      exact hkept name (hid ▸ hne)
  · intro table disk pushed e table' disk' new hs h
    obtain ⟨run, hrun, rfl, rfl, hpushed, hnew⟩ := callback_eq_some h
    obtain ⟨hown, hkept⟩ := TableRun.ownFile_step (s := table.run.withDisk disk)
      ⟨hs.own.cleaner, hs.own.validator⟩ hrun
    refine ⟨⟨hs.pushed_eq ▸ hpushed, ?_, hown, hs.lines, hs.length, fun hfollowed => ?_⟩, hkept⟩
    · intro package hpackage
      rcases List.mem_append.mp hpackage with hpackage | hpackage
      · exact hs.ids package hpackage
      · exact (hnew package hpackage).1
    replace hfollowed : table.Followed := ⟨hfollowed.cleanStage, hfollowed.nodup⟩
    obtain ⟨first, hfirst, hreached⟩ := hs.reached hfollowed
    have hlines : fileLines first table.tableData.tableID =
        splitStringByNewline table.reception.packet.data := by
      rw [← hs.lines]
      simp only [fileLines, show first (csvName _) = _ from hfirst, file]
    exact ⟨first, hfirst, hreached.step hT (hlines ▸ hfollowed.nodup) hrun⟩
  · intro table disk pushed disk' hs hown
    refine ⟨hs.pushed_eq, hs.ids, hs.own, hs.lines, hs.length, fun hfollowed => ?_⟩
    obtain ⟨first, hfirst, hreached⟩ := hs.reached hfollowed
    obtain ⟨first', hfirst', hreached'⟩ := hreached.withDisk hown
    exact ⟨first', hfirst'.trans hfirst, hreached'⟩

/-- The packages about a table. -/
def packagesOf (log : List ForwardStackPackage) (table : ServedTable) :
    List ForwardStackPackage :=
  log.filter fun package => package.tableID = table.tableData.tableID

/-- What is said of the file of a served table is about its id. -/
theorem Served.said_eq {s : State ServedTable Text (Option Text) ForwardStackPackage}
    (hs : Served totalThreads table disk (said file fileOf s table)) :
    said file fileOf s table = packagesOf s.log table := by
  apply List.filter_congr
  intro package hpackage
  apply decide_eq_decide.mpr
  constructor
  · intro hfile
    exact hs.ids package (List.mem_filter.mpr ⟨hpackage, decide_eq_true hfile⟩)
  · intro hid
    rw [fileOf, hid]
    rfl

theorem nodup_files {tables : List ServedTable}
    (hids : (tables.map (·.tableData.tableID)).Nodup)
    (hplain : ∀ table ∈ tables, PlainId table.tableData.tableID) : (tables.map file).Nodup := by
  have hfiles : tables.map file = (tables.map (·.tableData.tableID)).map csvName := by
    rw [List.map_map]
    rfl
  rw [hfiles]
  refine List.Nodup.map_on (fun id hid other hother hname => ?_) hids
  obtain ⟨table, htable, rfl⟩ := List.mem_map.mp hid
  obtain ⟨table', htable', rfl⟩ := List.mem_map.mp hother
  exact (csvName_inj (hplain table htable) (hplain table' htable')).mp hname

/-- Tables with different plain ids are known apart. -/
theorem served_of_known {s : State ServedTable Text (Option Text) ForwardStackPackage}
    (hs : Known file fileOf (Served totalThreads) s)
    (hids : (s.components.map (·.tableData.tableID)).Nodup)
    (hplain : ∀ table ∈ s.components, PlainId table.tableData.tableID) {table : ServedTable}
    (htable : table ∈ s.components) :
    Served totalThreads table s.store (packagesOf s.log table) := by
  have hserved := hs.known (nodup_files hids hplain) table htable
  rw [← hserved.said_eq]
  exact hserved

theorem Served.told (hs : Served totalThreads table disk pushed)
    (hfollowed : table.Followed) :
    TableRun.Told totalThreads table.tableData table.reception.confirmValue
      (table.tableData.metadata.columns - 1) table.received pushed := by
  obtain ⟨first, hfirst, hreached⟩ := hs.reached hfollowed
  rw [← hs.pushed_eq]
  exact hreached.standing.told.congr hfirst

/-- Tables with different plain ids are received at any time and served in any order: what
the server is told of one whose lines are all different and at whose address no counter was
left is what it would be told if the worker had no other. -/
theorem toldApart {disk : Disk} {s : State ServedTable Text (Option Text) ForwardStackPackage}
    {es : List (Event TableEvent Reception)} (hT : 1 ≤ totalThreads)
    (hrun : exec (systemStep (callback totalThreads) receive) ⟨disk, [], []⟩ es = some s)
    (hids : (s.components.map (·.tableData.tableID)).Nodup)
    (hplain : ∀ table ∈ s.components, PlainId table.tableData.tableID) {table : ServedTable}
    (htable : table ∈ s.components)
    (hfollowed : table.Followed) :
    TableRun.Told totalThreads table.tableData table.reception.confirmValue
      (table.tableData.metadata.columns - 1) table.received (packagesOf s.log table) := by
  have hknown := known_of_exec (confined hT) hrun
  exact (served_of_known hknown hids hplain htable).told hfollowed

/-- A table that the code can go through, with results that are collected. -/
structure WalkedTable (table : ServedTable) : Prop where
  cleanStage : table.reception.cleanStage = none
  collects : TableRun.Collects table.reception.algoIndex table.tableData
  shape : Phases.WellShaped table.tableData (splitStringByNewline table.reception.packet.data)
  columns : 2 ≤ table.tableData.metadata.columns
  instance_columns :
    table.tableData.metadata.columns ≤ table.reception.instanceData.instanceDataMatrix.length

instance (table : ServedTable) : Decidable table.WalkedTable :=
  decidable_of_iff (table.reception.cleanStage = none ∧
      TableRun.Collects table.reception.algoIndex table.tableData ∧
      Phases.WellShaped table.tableData (splitStringByNewline table.reception.packet.data) ∧
      2 ≤ table.tableData.metadata.columns ∧ table.tableData.metadata.columns ≤
        table.reception.instanceData.instanceDataMatrix.length)
    ⟨fun h => ⟨h.1, h.2.1, h.2.2.1, h.2.2.2.1, h.2.2.2.2⟩,
      fun h => ⟨h.cleanStage, h.collects, h.shape, h.columns, h.instance_columns⟩⟩

theorem WalkedTable.followed (h : table.WalkedTable) : table.Followed :=
  ⟨h.cleanStage, h.shape.1⟩

/-- The table of one positive row, under the id `tableid`. -/
def receptionOf (tableid : Text) : Reception :=
  ⟨id, { TableRun.onePositive with tableid := tableid }, none, 1, TableRun.twoColumns, ['y']⟩

/-- Two such tables, the callbacks of which take turns. -/
def twoTables : List (Event TableEvent Reception) :=
  [.arrive (receptionOf ['t']), .arrive (receptionOf ['u'])] ++
    TableRun.oneSplit.flatMap fun e => [.call 0 e, .call 1 e]

theorem exec_twoTables :
    ∃ s, exec (systemStep (callback 1) receive) ⟨fun _ => none, [], []⟩ twoTables = some s ∧
      s.components.map (·.tableData.tableID) = [['t'], ['u']] ∧
      (∀ table ∈ s.components, PlainId table.tableData.tableID) ∧
      (∀ table ∈ s.components, table.WalkedTable) ∧ s.log.length = 6 := by
  have hrun : (exec (systemStep (callback 1) receive) ⟨fun _ => none, [], []⟩ twoTables).map
      (fun s => (s.components.map (·.tableData.tableID),
        decide (∀ table ∈ s.components, table.WalkedTable), s.log.length)) =
      some ([['t'], ['u']], true, 6) := by decide +kernel
  obtain ⟨s, hs, hend⟩ := Option.map_eq_some_iff.mp hrun
  simp only [Prod.mk.injEq, decide_eq_true_eq] at hend
  obtain ⟨hids, hwalked, hlength⟩ := hend
  refine ⟨s, hs, hids, fun table htable => ?_, hwalked, hlength⟩
  have hplain : ∀ tableID ∈ s.components.map (·.tableData.tableID), PlainId tableID :=
    hids ▸ by decide
  exact hplain _ (List.mem_map_of_mem htable)

theorem toldApart_twoTables :
    ∃ s, exec (systemStep (callback 1) receive) ⟨fun _ => none, [], []⟩ twoTables = some s ∧
      s.log.length = 6 ∧ ∀ table ∈ s.components,
        TableRun.Told 1 table.tableData table.reception.confirmValue
          (table.tableData.metadata.columns - 1) table.received (packagesOf s.log table) := by
  obtain ⟨s, hs, hids, hplain, hwalked, hlength⟩ := exec_twoTables
  refine ⟨s, hs, hlength, fun table htable => ?_⟩
  exact toldApart (le_refl 1) hs (hids ▸ by decide) hplain htable (hwalked table htable).followed

end ServedTable

end WorkerUnit
