import WorkerUnit.Algorithm.AlgorithmScheduler
import WorkerUnit.Algorithm.FinalString
import WorkerUnit.DataProcessor.DataTracker
import WorkerUnit.DataProcessor.TablePhases
import WorkerUnit.Sender.ForwardStack
import WorkerUnit.Services.DroppedFile

/-!
# One table from its reception to its answer

The callbacks that the jobs of a received table run, in any order in which the
scheduler may call them, and the packages that they push for the server. The phases
of the table are joined by the counter of the validate phase, by `sched_algo`, by
`update_algo_result` and by the job that aggregates the results. A counter is keyed by the
address of its `TableData` and is never erased, so an earlier table at that address may
have left one; `algoIndex` is the linked algorithm of the table's instance. A last result
that comes while `sched_algo` still reads the table deletes it under the reader; such a
step has no result.
-/

namespace WorkerUnit

open StepSystem FileDataBaseAccess

/-- How far the table is before its phases. -/
inductive TableStage where
  | received
  | processing
  | failed
  | processed
  deriving DecidableEq, Repr

/-- `cleanStage` is the counter at the table's address, and `written` says that it is the
table's own, `updated` are the validators that have called `update_clean_stages`, `handed`
is the number of splits that `sched_algo` has given away, `reading` says that its last
reads of the table are still to come, and `ended` are the splits whose end callback is
still to be run. -/
structure TableRun (n : ℕ) where
  stage : TableStage
  phases : Phases n
  cleanStage : Option ℕ
  written : Bool
  updated : List ℕ
  handed : Option ℕ
  reading : Bool
  ended : ℕ → Option (CandidateElimination n)
  resultVectors : Option (List (CeResultExportObject n))
  ceFinalize : Option (List (CeResultExportObject n))
  pushed : List ForwardStackPackage

inductive TableEvent where
  | receiverFinalize
  | processDataFinalize
  | processDataFailed (errorString : Text)
  | phase (e : PhaseEvent)
  | writeCounter
  | updateCleanStages (i : ℕ)
  | rejectSplit (i : ℕ)
  | schedAlgoReturns
  | candidateEliminationEnd (i : ℕ)
  | ceFinalizeEndProcess
  deriving DecidableEq, Repr

/-- A package for the server about the table. -/
def TableData.package (tableData : TableData) (statusCode : SenderDataType) (data : Text) :
    ForwardStackPackage :=
  ⟨statusCode, tableData.priority.value, tableData.tableID, data⟩

/-- The file part of `dealloc_table_dat`. -/
def deallocTableDat (disk : Disk) (tableID : Text) : Disk :=
  ((openFile disk tableID .rwFile).dropFile disk).2

namespace TableRun

variable (totalThreads algoIndex : ℕ) (instanceData : InstanceData) (tableData : TableData)
  (confirmValue : Text) {n : ℕ}

/-- The receiver has stored the text and made the table, at an address where the map of
the counters has the given entry. -/
def start (cleanStage : Option ℕ) (disk : Disk) : TableRun n :=
  ⟨.received, .start tableData disk, cleanStage, false, [], none, false, fun _ => none, none,
    none, []⟩

def disk (s : TableRun n) : Disk := s.phases.validators.disk

def withDisk (s : TableRun n) (disk : Disk) : TableRun n :=
  { s with phases := { s.phases with validators := { s.phases.validators with disk := disk } } }

/-- What has to be called before: the cleaner is deleted behind the counter, a validator
behind its update, and the splits are made one after another by `sched_algo`. -/
def allows (s : TableRun n) : PhaseEvent → Bool
  | .deleteCleaner => s.written
  | .validate (.validateDataFinalize i) => i ∈ s.updated
  | .initCeAlgorithm i => s.handed = some i
  | _ => true

/-- Whether `scheduleTask` accepts the package that `sched_algo` gets for split `i` from
the dispatch table; past the table there is none. -/
def splitAccepted (i : ℕ) : Option Bool :=
  (splitRanges tableData.metadata.rows totalThreads)[i]?.bind fun range =>
    avialAlgo[algoIndex]?.map fun initAlgo =>
      let package := initAlgo ⟨tableData.tableID, tableData.instanceType, range.1, range.2,
        tableData.metadata.columns⟩
      scheduleTaskAccepts (some package.proc) package.args

/-- A split is made when its package is accepted. -/
def dispatched : PhaseEvent → Bool
  | .initCeAlgorithm i => splitAccepted totalThreads algoIndex tableData i = some true
  | _ => true

/-- The split that a call of `candidate_elimination_start` ends. -/
def exported (s : TableRun n) (i : ℕ) : Option (CandidateElimination n) :=
  (s.phases.ce i).bind fun ce => ce.candidateEliminationStart.bind fun r =>
    if r.1 = .done then some r.2 else none

def recorded (s : TableRun n) : PhaseEvent → TableRun n
  | .initCeAlgorithm i => { s with handed := some (i + 1) }
  | .candidateEliminationStart i => { s with ended := Function.update s.ended i (s.exported i) }
  | _ => s

/-- The call of `update_algo_result` in `candidate_elimination_end`. -/
def updateAlgoResult (s : TableRun n) (result : CeResultExportObject n) : Option (TableRun n) :=
  if tableData.tableID.isEmpty then some s
  else match s.resultVectors with
    | none => some s
    | some resultVectors =>
      let resultVectors := resultVectors ++ [result]
      if resultVectors.length = totalThreads then
        if s.reading then none
        else avialableFinalizeAlgo[algoIndex]?.map fun initFinalize =>
          let package := initFinalize ⟨resultVectors, tableData.tableID, tableData.priority⟩
          { s.withDisk (deallocTableDat s.disk tableData.tableID) with
            resultVectors := none
            ceFinalize :=
              if scheduleTaskAccepts (some package.proc) package.args then
                package.args.map (·.resultVectors)
              else none }
      else some { s with resultVectors := some resultVectors }

/-- The clean data goes to the server, and `sched_algo` makes its entry, which `insert`
keeps when it is there. -/
def schedAlgo (s : TableRun n) : TableRun n :=
  { s with
    pushed := s.pushed ++
      [tableData.package .intrSend (openFile s.disk tableData.tableID .readFile).getBlob]
    handed := some 0
    reading := true
    resultVectors := s.resultVectors <|> some [] }

def tableStep (s : TableRun n) : TableEvent → Option (TableRun n)
  | .receiverFinalize =>
    if s.stage = .received then
      some { s with
        stage := .processing
        pushed := s.pushed ++ [tableData.package .datRecvd []] }
    else none
  | .processDataFinalize =>
    if s.stage = .processing then
      some { s with stage := .processed, phases := .start tableData s.disk }
    else none
  | .processDataFailed errorString =>
    if s.stage = .processing then
      some { s.withDisk (deallocTableDat s.disk tableData.tableID) with
        stage := .failed
        pushed := s.pushed ++ [tableData.package .datErr errorString] }
    else none
  | .phase e =>
    if s.stage = .processed ∧ s.allows e ∧ dispatched totalThreads algoIndex tableData e then
      (s.phases.phaseStep totalThreads instanceData tableData confirmValue e).map fun phases =>
        { s.recorded e with phases := phases }
    else none
  | .writeCounter =>
    match s.phases.cleaner with
    | .finished _ =>
      if s.written = false ∧ ∀ i < totalThreads, ¬ (s.phases.validators.split i).isWaiting then
        some { s with cleanStage := some 0, written := true }
      else none
    | _ => none
  | .updateCleanStages i =>
    match s.phases.validators.split i with
    | .finished _ =>
      if i ∈ s.updated then none
      else
        let r := WorkerUnit.updateCleanStages totalThreads (fun _ => s.cleanStage) 0
        let s := { s with cleanStage := r.2 0, updated := i :: s.updated }
        some (if r.1 = .scheduled then s.schedAlgo tableData else s)
    | _ => none
  | .rejectSplit i =>
    if s.handed = some i ∧ splitAccepted totalThreads algoIndex tableData i = some false then
      some { s with handed := some (i + 1) }
    else none
  | .schedAlgoReturns =>
    if s.handed = some totalThreads ∧ s.reading then some { s with reading := false } else none
  | .candidateEliminationEnd i =>
    (s.ended i).bind fun ce =>
      { s with ended := Function.update s.ended i none }.updateAlgoResult totalThreads algoIndex
        tableData ce.candidateEliminationEnd
  | .ceFinalizeEndProcess =>
    s.ceFinalize.bind fun resultVectors =>
      (CeFinalize.aggrigateResults resultVectors).bind fun ceFinalize =>
        ceFinalize.getFinalResult.map fun finalString =>
          { s with
            ceFinalize := none
            pushed := s.pushed ++ [tableData.package .fresSend finalString] }

/-- The task of split `i` on the received file ends in the state `final`. -/
def SplitRunsTo (disk : Disk) (i : ℕ) (final : CandidateElimination n) : Prop :=
  ∃ range, (splitRanges tableData.metadata.rows totalThreads)[i]? = some range ∧
    (CandidateElimination.new n disk tableData.tableID confirmValue range).RunsTo final

/-- The results of the splits on the received file, in the order in which they end, are
aggregated to the string. -/
def FinalStringOf (n : ℕ) (disk : Disk) (order : List ℕ) (finalString : Text) : Prop :=
  ∃ (finals : List (CandidateElimination n)) (result : CeFinalize n),
    List.Forall₂ (SplitRunsTo totalThreads tableData confirmValue disk) order finals ∧
    CeFinalize.aggrigateResults (finals.map (·.candidateEliminationEnd)) = some result ∧
    result.getFinalResult = some finalString

/-- The packages of a table that has been handed to the splits. -/
def handedPackages (lines : List Text) : List ForwardStackPackage :=
  [tableData.package .datRecvd [], tableData.package .intrSend (Records.unrecords '\n' lines)]

/-- What the server has been told of the table. -/
inductive Told (n : ℕ) (disk : Disk) : List ForwardStackPackage → Prop where
  | nothing : Told n disk []
  | received : Told n disk [tableData.package .datRecvd []]
  | failed (errorString : Text) :
    Told n disk [tableData.package .datRecvd [], tableData.package .datErr errorString]
  | handed : Told n disk (handedPackages tableData (fileLines disk tableData.tableID))
  | answered (order : List ℕ) (finalString : Text) (hperm : order.Perm (List.range totalThreads))
      (hfinal : FinalStringOf totalThreads tableData confirmValue n disk order finalString) :
    Told n disk (handedPackages tableData (fileLines disk tableData.tableID) ++
      [tableData.package .fresSend finalString])

/-- The counter and the calls of the validators, when no earlier table has left a counter. -/
structure Counted (s : TableRun n) : Prop where
  written : s.written = s.cleanStage.isSome
  nodup : s.updated.Nodup
  updated_lt : ∀ i ∈ s.updated, i < totalThreads
  started_lt : ∀ i, ¬ (s.phases.validators.split i).isWaiting → i < totalThreads
  counted : ∀ count, s.cleanStage = some count → count ≤ s.updated.length
  scheduled : s.handed ≠ none → totalThreads ≤ s.updated.length

/-- The results of the table are collected: the first algorithm makes no splits, and
results of a table without an id are dropped. -/
def Collects : Prop := tableData.tableID ≠ [] ∧ algoIndex = 1

instance : Decidable (Collects algoIndex tableData) :=
  inferInstanceAs (Decidable (tableData.tableID ≠ [] ∧ algoIndex = 1))

/-- The splits between their start and the last result: those that run, those that wait
for their end callback, and those whose results have come, in `order`. -/
structure Computing (disk : Disk) (s : TableRun n) (order : List ℕ)
    (finals : List (CandidateElimination n)) : Prop where
  nodup : order.Nodup
  handed : ∀ i ∈ order, ∃ k, s.handed = some k ∧ i < k
  running : ∀ i ce, s.phases.ce i = some ce → (∃ k, s.handed = some k ∧ i < k) ∧ i ∉ order ∧
    s.ended i = none ∧
    ∀ final, ce.RunsTo final → SplitRunsTo totalThreads tableData confirmValue disk i final
  ended : ∀ i ce, s.ended i = some ce → (∃ k, s.handed = some k ∧ i < k) ∧ i ∉ order ∧
    SplitRunsTo totalThreads tableData confirmValue disk i ce
  runs : List.Forall₂ (SplitRunsTo totalThreads tableData confirmValue disk) order finals
  linked : ∀ i, s.phases.ce i ≠ none ∨ s.ended i ≠ none → algoIndex = 1
  covered : Collects algoIndex tableData → ∀ k, s.handed = some k → ∀ i < k,
    i ∈ order ∨ s.phases.ce i ≠ none ∨ s.ended i ≠ none
  handed_le : ∀ k, s.handed = some k → k ≤ totalThreads
  short : finals.length < totalThreads

/-- All splits have been made, and no split is at work any more. -/
structure Drained (s : TableRun n) : Prop where
  handed : ∃ k, s.handed = some k ∧ totalThreads ≤ k
  ce : ∀ i, s.phases.ce i = none
  ended : ∀ i, s.ended i = none

/-- The splits have not been made. -/
structure Unhanded (s : TableRun n) : Prop where
  handed : s.handed = none
  ce : ∀ i, s.phases.ce i = none
  ended : ∀ i, s.ended i = none
  resultVectors : s.resultVectors = none
  ceFinalize : s.ceFinalize = none

/-- No phase has begun. -/
structure Idle (s : TableRun n) : Prop extends Unhanded s where
  cleaner : ∃ c, s.phases.cleaner = .running c ∧ c.iterator = 0
  validators : ∀ i, s.phases.validators.split i = .waiting

/-- Where a run stands. -/
inductive Standing (disk : Disk) (s : TableRun n) : Prop where
  | received (hstage : s.stage = .received) (hidle : s.Idle) (hdisk : s.disk = disk)
      (hpushed : s.pushed = [])
  | processing (hstage : s.stage = .processing) (hidle : s.Idle) (hdisk : s.disk = disk)
      (hpushed : s.pushed = [tableData.package .datRecvd []])
  | failed (errorString : Text) (hstage : s.stage = .failed) (hidle : s.Idle)
      (hpushed : s.pushed =
        [tableData.package .datRecvd [], tableData.package .datErr errorString])
  | validating (hstage : s.stage = .processed) (hunhanded : s.Unhanded)
      (hinside : s.phases.Inside instanceData tableData disk)
      (hpushed : s.pushed = [tableData.package .datRecvd []])
  | computing (order : List ℕ) (finals : List (CandidateElimination n))
      (hstage : s.stage = .processed) (hhanded : s.handed ≠ none)
      (hinside : s.phases.Inside instanceData tableData disk)
      (hcomputing : Computing totalThreads algoIndex tableData confirmValue disk s order finals)
      (hresults : s.resultVectors = some (finals.map (·.candidateEliminationEnd)))
      (hfinalize : s.ceFinalize = none)
      (hpushed : s.pushed = handedPackages tableData (fileLines disk tableData.tableID))
  | finalizing (order : List ℕ) (finals : List (CandidateElimination n))
      (hstage : s.stage = .processed) (hdrained : Drained totalThreads s)
      (hperm : order.Perm (List.range totalThreads))
      (hfinals : List.Forall₂ (SplitRunsTo totalThreads tableData confirmValue disk) order finals)
      (hresults : s.resultVectors = none)
      (hfinalize : s.ceFinalize = some (finals.map (·.candidateEliminationEnd)))
      (hpushed : s.pushed = handedPackages tableData (fileLines disk tableData.tableID))
  | answered (order : List ℕ) (finalString : Text) (hstage : s.stage = .processed)
      (hdrained : Drained totalThreads s) (hperm : order.Perm (List.range totalThreads))
      (hfinal : FinalStringOf totalThreads tableData confirmValue n disk order finalString)
      (hresults : s.resultVectors = none) (hfinalize : s.ceFinalize = none)
      (hpushed : s.pushed = handedPackages tableData (fileLines disk tableData.tableID) ++
        [tableData.package .fresSend finalString])

variable {totalThreads algoIndex : ℕ} {instanceData : InstanceData} {tableData : TableData}
  {confirmValue : Text} {s t : TableRun n} {i : ℕ}

/-- Of the two algorithms the second one is accepted. -/
theorem splitAccepted_eq {accepted : Bool}
    (h : splitAccepted totalThreads algoIndex tableData i = some accepted) :
    (∃ range, (splitRanges tableData.metadata.rows totalThreads)[i]? = some range) ∧
      accepted = decide (algoIndex = 1) := by
  obtain ⟨range, hrange, h⟩ := Option.bind_eq_some_iff.mp h
  obtain ⟨initAlgo, halgo, rfl⟩ := Option.map_eq_some_iff.mp h
  obtain ⟨hlt, _⟩ := List.getElem?_eq_some_iff.mp halgo
  have htwo : algoIndex < 2 := hlt
  refine ⟨⟨range, hrange⟩, ?_⟩
  interval_cases algoIndex <;> cases halgo <;> rfl

theorem linked_of_dispatched
    (h : dispatched totalThreads algoIndex tableData (.initCeAlgorithm i) = true) :
    algoIndex = 1 := by
  simpa using (splitAccepted_eq (of_decide_eq_true h)).2

theorem tableStep_phase {e : PhaseEvent}
    (h : s.tableStep totalThreads algoIndex instanceData tableData confirmValue (.phase e) =
      some t) :
    s.stage = .processed ∧ s.allows e = true ∧
      dispatched totalThreads algoIndex tableData e = true ∧ ∃ phases,
        s.phases.phaseStep totalThreads instanceData tableData confirmValue e = some phases ∧
        t = { s.recorded e with phases := phases } := by
  simp only [tableStep] at h
  split_ifs at h with hallowed
  obtain ⟨phases, hphases, rfl⟩ := Option.map_eq_some_iff.mp h
  exact ⟨hallowed.1, hallowed.2.1, hallowed.2.2, phases, hphases, rfl⟩

theorem tableStep_rejectSplit
    (h : s.tableStep totalThreads algoIndex instanceData tableData confirmValue (.rejectSplit i) =
      some t) :
    s.handed = some i ∧
      (∃ range, (splitRanges tableData.metadata.rows totalThreads)[i]? = some range) ∧
      algoIndex ≠ 1 ∧ t = { s with handed := some (i + 1) } := by
  simp only [tableStep] at h
  split_ifs at h with hrejected
  obtain ⟨hrange, hlinked⟩ := splitAccepted_eq hrejected.2
  exact ⟨hrejected.1, hrange, by simpa using hlinked.symm, (Option.some.inj h).symm⟩

theorem tableStep_schedAlgoReturns
    (h : s.tableStep totalThreads algoIndex instanceData tableData confirmValue
      .schedAlgoReturns = some t) :
    s.handed = some totalThreads ∧ s.reading = true ∧ t = { s with reading := false } := by
  simp only [tableStep] at h
  split_ifs at h with hreturns
  exact ⟨hreturns.1, hreturns.2, (Option.some.inj h).symm⟩

/-- A result is dropped, joins the others, or completes them; then `sched_algo` has read
the table for the last time, and the aggregation gets all results. -/
theorem updateAlgoResult_cases {result : CeResultExportObject n}
    (h : s.updateAlgoResult totalThreads algoIndex tableData result = some t) :
    ((tableData.tableID = [] ∨ s.resultVectors = none) ∧ t = s) ∨
      ∃ resultVectors, tableData.tableID ≠ [] ∧ s.resultVectors = some resultVectors ∧
        ((resultVectors.length + 1 ≠ totalThreads ∧
            t = { s with resultVectors := some (resultVectors ++ [result]) }) ∨
          (resultVectors.length + 1 = totalThreads ∧ s.reading = false ∧ ∃ ceFinalize,
            (algoIndex = 1 → ceFinalize = some (resultVectors ++ [result])) ∧
            t = { s.withDisk (deallocTableDat s.disk tableData.tableID) with
              resultVectors := none, ceFinalize := ceFinalize })) := by
  unfold updateAlgoResult at h
  by_cases hid : tableData.tableID = []
  · rw [if_pos (List.isEmpty_iff.mpr hid)] at h
    exact .inl ⟨.inl hid, (Option.some.inj h).symm⟩
  · rw [if_neg (mt List.isEmpty_iff.mp hid)] at h
    cases hvectors : s.resultVectors with
    | none =>
      rw [hvectors] at h
      exact .inl ⟨.inr rfl, (Option.some.inj h).symm⟩
    | some resultVectors =>
      refine .inr ⟨resultVectors, hid, rfl, ?_⟩
      simp only [hvectors, List.length_append, List.length_singleton] at h
      split_ifs at h with hlast hreading
      · obtain ⟨initFinalize, halgo, rfl⟩ := Option.map_eq_some_iff.mp h
        refine .inr ⟨hlast, by simpa using hreading, _, fun hlinked => ?_, rfl⟩
        subst hlinked
        cases halgo
        rfl
      · exact .inl ⟨hlast, (Option.some.inj h).symm⟩

theorem tableStep_writeCounter
    (h : s.tableStep totalThreads algoIndex instanceData tableData confirmValue .writeCounter =
      some t) :
    (∃ c, s.phases.cleaner = .finished c) ∧ s.written = false ∧
      (∀ i < totalThreads, ¬ (s.phases.validators.split i).isWaiting) ∧
      t = { s with cleanStage := some 0, written := true } := by
  simp only [tableStep] at h
  split at h
  · rename_i c hfinished
    split_ifs at h with hguard
    exact ⟨⟨c, hfinished⟩, hguard.1, hguard.2, (Option.some.inj h).symm⟩
  · cases h

/-- The update counts when there is a counter, and completes it at `totalThreads`. -/
theorem updateCleanStages_entry (totalThreads : ℕ) (cleanStage : Option ℕ) :
    (WorkerUnit.updateCleanStages totalThreads (fun _ => cleanStage) 0).2 0 =
        cleanStage.map (· + 1) ∧
      ((WorkerUnit.updateCleanStages totalThreads (fun _ => cleanStage) 0).1 = .scheduled ↔
        ∃ count, cleanStage = some count ∧ totalThreads ≤ count + 1) := by
  cases cleanStage with
  | none => simp [WorkerUnit.updateCleanStages]
  | some count =>
    by_cases hlast : totalThreads ≤ count + 1
    · simp [WorkerUnit.updateCleanStages, hlast]
    · simp [WorkerUnit.updateCleanStages, hlast]

/-- The state after the update of validator `i`, before `sched_algo`. -/
def withUpdate (s : TableRun n) (i : ℕ) : TableRun n :=
  { s with cleanStage := s.cleanStage.map (· + 1), updated := i :: s.updated }

/-- A validator makes one update, and the update that completes the counter calls
`sched_algo`. -/
theorem tableStep_updateCleanStages
    (h : s.tableStep totalThreads algoIndex instanceData tableData confirmValue
      (.updateCleanStages i) = some t) :
    (∃ v, s.phases.validators.split i = .finished v) ∧ i ∉ s.updated ∧
      (((∃ count, s.cleanStage = some count ∧ totalThreads ≤ count + 1) ∧
        t = (s.withUpdate i).schedAlgo tableData) ∨
      ((¬ ∃ count, s.cleanStage = some count ∧ totalThreads ≤ count + 1) ∧
        t = s.withUpdate i)) := by
  obtain ⟨hentry, hscheduled⟩ := updateCleanStages_entry totalThreads s.cleanStage
  simp only [tableStep, hentry, hscheduled] at h
  split at h
  · rename_i v hfinished
    split_ifs at h with hupdated hlast
    · exact ⟨⟨v, hfinished⟩, hupdated, .inl ⟨hlast, (Option.some.inj h).symm⟩⟩
    · exact ⟨⟨v, hfinished⟩, hupdated, .inr ⟨hlast, (Option.some.inj h).symm⟩⟩
  · cases h

theorem length_validateLoop (rows multiplier startIndex endIndex : ℤ) (is : List ℕ) :
    (validateLoop rows multiplier startIndex endIndex is).length = is.length := by
  induction is generalizing startIndex endIndex with
  | nil => rfl
  | cons i is ih => simp [validateLoop, ih]

theorem lt_of_validateRanges {rows : ℕ} {range : ℤ × ℤ}
    (h : (validateRanges rows totalThreads)[i]? = some range) : i < totalThreads := by
  obtain ⟨hlt, _⟩ := List.getElem?_eq_some_iff.mp h
  simpa [validateRanges, length_validateLoop] using hlt

theorem counted_start (disk : Disk) :
    (start tableData none disk : TableRun n).Counted totalThreads := by
  constructor
  · rfl
  · exact .nil
  · exact fun _ h => nomatch h
  · exact fun _ h => absurd rfl h
  · exact fun _ h => nomatch h
  · exact fun h => absurd rfl h

/-- A validator that is at work is one of the `totalThreads` that were scheduled. -/
theorem started_lt_of_phaseStep {p q : Phases n} {e : PhaseEvent}
    (hp : ∀ i, ¬ (p.validators.split i).isWaiting → i < totalThreads)
    (h : p.phaseStep totalThreads instanceData tableData confirmValue e = some q) :
    ∀ i, ¬ (q.validators.split i).isWaiting → i < totalThreads := by
  have hset : ∀ (i : ℕ) (split : ValidateSplit), i < totalThreads → ∀ j,
      ¬ ((p.validators.setSplit i split).split j).isWaiting → j < totalThreads := by
    intro i split hi j hj
    by_cases hji : j = i
    · exact hji ▸ hi
    · exact hp j (by simpa [ValidateRun.setSplit, hji] using hj)
  rcases Phases.phaseStep_cases h with ⟨c, _, rfl | rfl⟩ | ⟨e, validators, hvalidate, rfl⟩ |
    ⟨c, _, rfl⟩ | ⟨i, range, _, rfl⟩ | ⟨i, ce, status, ce', _, _, rfl | rfl⟩
  · exact hp
  · exact hp
  · rcases ValidateRun.validate_cases hvalidate with ⟨i, startIndex, endIndex, hrange, rfl⟩ |
      ⟨i, v, w, hv, ⟨_, rfl⟩ | ⟨_, rfl⟩⟩ | ⟨i, v, hv, rfl⟩
    · exact hset i _ (lt_of_validateRanges hrange)
    · exact hset i _ (hp i (by simp [hv, ValidateSplit.isWaiting]))
    · exact hset i _ (hp i (by simp [hv, ValidateSplit.isWaiting]))
    · exact hset i _ (hp i (by simp [hv, ValidateSplit.isWaiting]))
  · exact hp
  · exact hp
  · exact hp
  · exact hp

/-- What a phase leaves alone. -/
theorem recorded_frame (s : TableRun n) (e : PhaseEvent) :
    (s.recorded e).stage = s.stage ∧ (s.recorded e).cleanStage = s.cleanStage ∧
      (s.recorded e).updated = s.updated ∧ (s.recorded e).resultVectors = s.resultVectors ∧
      (s.recorded e).ceFinalize = s.ceFinalize ∧ (s.recorded e).pushed = s.pushed ∧
      (s.recorded e).written = s.written := by
  cases e <;> exact ⟨rfl, rfl, rfl, rfl, rfl, rfl, rfl⟩

theorem handed_of_recorded {e : PhaseEvent} (hallows : s.allows e = true)
    (h : (s.recorded e).handed ≠ none) : s.handed ≠ none := by
  cases e with
  | initCeAlgorithm i =>
    have hi : s.handed = some i := by simpa [allows] using hallows
    simp [hi]
  | _ => exact h

theorem updateAlgoResult_frame {result : CeResultExportObject n}
    (h : s.updateAlgoResult totalThreads algoIndex tableData result = some t) :
    t.stage = s.stage ∧ t.cleanStage = s.cleanStage ∧ t.updated = s.updated ∧
      t.handed = s.handed ∧ t.phases.validators.split = s.phases.validators.split ∧
      t.phases.cleaner = s.phases.cleaner ∧ t.written = s.written := by
  obtain ⟨_, rfl⟩ | ⟨_, _, _, ⟨_, rfl⟩ | ⟨_, _, _, _, rfl⟩⟩ := updateAlgoResult_cases h <;>
    exact ⟨rfl, rfl, rfl, rfl, rfl, rfl, rfl⟩

/-- The end callback of a split that waits for it. -/
theorem tableStep_candidateEliminationEnd
    (h : s.tableStep totalThreads algoIndex instanceData tableData confirmValue
      (.candidateEliminationEnd i) = some t) :
    ∃ ce, s.ended i = some ce ∧
      { s with ended := Function.update s.ended i none }.updateAlgoResult totalThreads algoIndex
        tableData ce.candidateEliminationEnd = some t :=
  Option.bind_eq_some_iff.mp h

theorem Counted.step {e : TableEvent} (hs : s.Counted totalThreads)
    (h : s.tableStep totalThreads algoIndex instanceData tableData confirmValue e = some t) :
    t.Counted totalThreads := by
  cases e with
  | receiverFinalize =>
    simp only [tableStep] at h
    split_ifs at h
    cases h
    exact ⟨hs.written, hs.nodup, hs.updated_lt, hs.started_lt, hs.counted, hs.scheduled⟩
  | processDataFinalize =>
    simp only [tableStep] at h
    split_ifs at h
    cases h
    exact ⟨hs.written, hs.nodup, hs.updated_lt, fun _ hi => absurd rfl hi, hs.counted,
      hs.scheduled⟩
  | processDataFailed errorString =>
    simp only [tableStep] at h
    split_ifs at h
    cases h
    exact ⟨hs.written, hs.nodup, hs.updated_lt, hs.started_lt, hs.counted, hs.scheduled⟩
  | phase e =>
    obtain ⟨_, hallows, _, phases, hphases, rfl⟩ := tableStep_phase h
    obtain ⟨_, hclean, hupdated, _, _, _, hwritten⟩ := recorded_frame s e
    constructor
    · dsimp only
      rw [hclean, hwritten]
      exact hs.written
    · exact hupdated ▸ hs.nodup
    · exact hupdated ▸ hs.updated_lt
    · exact started_lt_of_phaseStep hs.started_lt hphases
    · dsimp only
      rw [hclean, hupdated]
      exact hs.counted
    · dsimp only
      rw [hupdated]
      exact fun hhanded => hs.scheduled (handed_of_recorded hallows hhanded)
  | writeCounter =>
    obtain ⟨_, _, _, rfl⟩ := tableStep_writeCounter h
    refine ⟨rfl, hs.nodup, hs.updated_lt, hs.started_lt, ?_, hs.scheduled⟩
    rintro _ ⟨⟩
    exact Nat.zero_le _
  | updateCleanStages i =>
    obtain ⟨⟨v, hfinished⟩, hnew, hnext⟩ := tableStep_updateCleanStages h
    have hi : i < totalThreads := hs.started_lt i (by simp [hfinished, ValidateSplit.isWaiting])
    have hwritten : s.written = (s.cleanStage.map (· + 1)).isSome := by
      rw [Option.isSome_map]
      exact hs.written
    have hnodup : (i :: s.updated).Nodup := List.nodup_cons.mpr ⟨hnew, hs.nodup⟩
    have hlt : ∀ j ∈ i :: s.updated, j < totalThreads := by
      intro j hj
      rcases List.mem_cons.mp hj with rfl | hj
      · exact hi
      · exact hs.updated_lt j hj
    have hcounted : ∀ count, s.cleanStage.map (· + 1) = some count →
        count ≤ (i :: s.updated).length := by
      intro count hcount
      obtain ⟨before, hbefore, rfl⟩ := Option.map_eq_some_iff.mp hcount
      simpa using hs.counted before hbefore
    rcases hnext with ⟨⟨count, hcount, hlast⟩, rfl⟩ | ⟨_, rfl⟩
    · have hle := hs.counted count hcount
      refine ⟨hwritten, hnodup, hlt, hs.started_lt, hcounted, fun _ => ?_⟩
      simp only [schedAlgo, withUpdate, List.length_cons]
      omega
    · exact ⟨hwritten, hnodup, hlt, hs.started_lt, hcounted,
        fun hhanded => (hs.scheduled hhanded).trans (Nat.le_succ _)⟩
  | rejectSplit i =>
    obtain ⟨hhanded, _, _, rfl⟩ := tableStep_rejectSplit h
    exact ⟨hs.written, hs.nodup, hs.updated_lt, hs.started_lt, hs.counted,
      fun _ => hs.scheduled (by simp [hhanded])⟩
  | schedAlgoReturns =>
    obtain ⟨_, _, rfl⟩ := tableStep_schedAlgoReturns h
    exact ⟨hs.written, hs.nodup, hs.updated_lt, hs.started_lt, hs.counted, hs.scheduled⟩
  | candidateEliminationEnd i =>
    obtain ⟨ce, _, hresult⟩ := tableStep_candidateEliminationEnd h
    obtain ⟨_, hclean, hupdated, hhanded, hsplit, _, hwritten⟩ := updateAlgoResult_frame hresult
    constructor
    · rw [hclean, hwritten]
      exact hs.written
    · rw [hupdated]
      exact hs.nodup
    · rw [hupdated]
      exact hs.updated_lt
    · rw [hsplit]
      exact hs.started_lt
    · rw [hclean, hupdated]
      exact hs.counted
    · rw [hhanded, hupdated]
      exact hs.scheduled
  | ceFinalizeEndProcess =>
    obtain ⟨results, _, h⟩ := Option.bind_eq_some_iff.mp h
    obtain ⟨final, _, h⟩ := Option.bind_eq_some_iff.mp h
    obtain ⟨finalString, _, rfl⟩ := Option.map_eq_some_iff.mp h
    exact ⟨hs.written, hs.nodup, hs.updated_lt, hs.started_lt, hs.counted, hs.scheduled⟩

/-- The counter is written once. -/
theorem Counted.cleanStage_eq_none (hs : s.Counted totalThreads) :
    s.cleanStage = none ↔ s.written = false := by
  rw [hs.written, Option.isSome_eq_false_iff, Option.isNone_iff_eq_none]

/-- Once the splits are made, every validator has made its update. -/
theorem Counted.mem_updated (hs : s.Counted totalThreads) (hhanded : s.handed ≠ none)
    (hi : i < totalThreads) : i ∈ s.updated := by
  have hsub : s.updated ⊆ List.range totalThreads := fun j hj =>
    List.mem_range.mpr (hs.updated_lt j hj)
  have hperm := (List.subperm_of_subset hs.nodup hsub).perm_of_length_le
    (by simpa using hs.scheduled hhanded)
  exact hperm.mem_iff.mpr (List.mem_range.mpr hi)

theorem Counted.not_update (hs : s.Counted totalThreads) (hhanded : s.handed ≠ none) :
    s.tableStep totalThreads algoIndex instanceData tableData confirmValue
      (.updateCleanStages i) = none := by
  by_contra hne
  obtain ⟨t, ht⟩ := Option.ne_none_iff_exists'.mp hne
  obtain ⟨⟨v, hfinished⟩, hnew, _⟩ := tableStep_updateCleanStages ht
  have hi : i < totalThreads := hs.started_lt i (by simp [hfinished, ValidateSplit.isWaiting])
  exact hnew (hs.mem_updated hhanded hi)

variable {disk : Disk} {order : List ℕ} {finals : List (CandidateElimination n)}

theorem standing_start (disk : Disk) :
    Standing totalThreads algoIndex instanceData tableData confirmValue disk
      (start tableData none disk : TableRun n) :=
  .received rfl ⟨⟨rfl, fun _ => rfl, fun _ => rfl, rfl, rfl⟩, ⟨_, rfl, rfl⟩, fun _ => rfl⟩ rfl rfl

theorem Unhanded.withCounter (hs : s.Unhanded) (cleanStage : Option ℕ) (written : Bool)
    (updated : List ℕ) (reading : Bool) :
    Unhanded { s with
      cleanStage := cleanStage, written := written, updated := updated, reading := reading } :=
  ⟨hs.handed, hs.ce, hs.ended, hs.resultVectors, hs.ceFinalize⟩

theorem Idle.withCounter (hs : s.Idle) (cleanStage : Option ℕ) (written : Bool)
    (updated : List ℕ) (reading : Bool) :
    Idle { s with
      cleanStage := cleanStage, written := written, updated := updated, reading := reading } :=
  ⟨hs.toUnhanded.withCounter cleanStage written updated reading, hs.cleaner, hs.validators⟩

/-- The counter and the reads of `sched_algo` are not part of where a run stands. -/
theorem Standing.withCounter
    (hs : s.Standing totalThreads algoIndex instanceData tableData confirmValue disk)
    (cleanStage : Option ℕ) (written : Bool) (updated : List ℕ) (reading : Bool) :
    Standing totalThreads algoIndex instanceData tableData confirmValue disk
      { s with
        cleanStage := cleanStage, written := written, updated := updated, reading := reading } := by
  cases hs with
  | received hstage hidle hdisk hpushed =>
    exact .received hstage (hidle.withCounter cleanStage written updated reading) hdisk hpushed
  | processing hstage hidle hdisk hpushed =>
    exact .processing hstage (hidle.withCounter cleanStage written updated reading) hdisk hpushed
  | failed errorString hstage hidle hpushed =>
    exact .failed errorString hstage (hidle.withCounter cleanStage written updated reading) hpushed
  | validating hstage hunhanded hinside hpushed =>
    exact .validating hstage (hunhanded.withCounter cleanStage written updated reading) hinside
      hpushed
  | computing order finals hstage hhanded hinside hcomputing hresults hfinalize hpushed =>
    exact .computing order finals hstage hhanded hinside ⟨hcomputing.nodup, hcomputing.handed,
      hcomputing.running, hcomputing.ended, hcomputing.runs, hcomputing.linked,
      hcomputing.covered, hcomputing.handed_le, hcomputing.short⟩ hresults hfinalize hpushed
  | finalizing order finals hstage hdrained hperm hfinals hresults hfinalize hpushed =>
    exact .finalizing order finals hstage ⟨hdrained.handed, hdrained.ce, hdrained.ended⟩ hperm
      hfinals hresults hfinalize hpushed
  | answered order finalString hstage hdrained hperm hfinal hresults hfinalize hpushed =>
    exact .answered order finalString hstage ⟨hdrained.handed, hdrained.ce, hdrained.ended⟩ hperm
      hfinal hresults hfinalize hpushed

/-- The update that completes the counter makes the first split. -/
theorem Standing.schedAlgo (hT : 1 ≤ totalThreads)
    (hs : s.Standing totalThreads algoIndex instanceData tableData confirmValue disk)
    (hstage : s.stage = .processed) (hhanded : s.handed = none) :
    (s.schedAlgo tableData).Standing totalThreads algoIndex instanceData tableData confirmValue
      disk := by
  cases hs with
  | validating _ hunhanded hinside hpushed =>
    apply Standing.computing [] []
    · exact hstage
    · exact Option.some_ne_none 0
    · exact hinside
    · refine ⟨.nil, fun _ hi => (nomatch hi), ?_, ?_, .nil, ?_, ?_, ?_, hT⟩
      · intro i ce hce
        rw [show (s.schedAlgo tableData).phases.ce i = none from hunhanded.ce i] at hce
        cases hce
      · intro i ce hce
        rw [show (s.schedAlgo tableData).ended i = none from hunhanded.ended i] at hce
        cases hce
      · rintro i (hce | hended)
        · exact absurd (hunhanded.ce i) hce
        · exact absurd (hunhanded.ended i) hended
      · rintro _ k ⟨⟩ i hi
        exact absurd hi (Nat.not_lt_zero i)
      · rintro k ⟨⟩
        exact Nat.zero_le _
    · simp [TableRun.schedAlgo, hunhanded.resultVectors]
    · exact hunhanded.ceFinalize
    · have hdisk : s.disk = disk := hinside.disk_eq
      simp [TableRun.schedAlgo, hpushed, hdisk, handedPackages, getBlob, openFile]
  | received hstage' => simp [hstage] at hstage'
  | processing hstage' => simp [hstage] at hstage'
  | failed _ hstage' => simp [hstage] at hstage'
  | computing _ _ _ hhanded' => exact absurd hhanded hhanded'
  | finalizing _ _ _ hdrained | answered _ _ _ hdrained =>
    obtain ⟨k, hk, _⟩ := hdrained.handed
    rw [hk] at hhanded
    cases hhanded

theorem Standing.processed_of_started
    (hs : s.Standing totalThreads algoIndex instanceData tableData confirmValue disk)
    (h : s.phases.validators.split i ≠ .waiting) : s.stage = .processed := by
  cases hs with
  | received _ hidle => exact absurd (hidle.validators i) h
  | processing _ hidle => exact absurd (hidle.validators i) h
  | failed _ _ hidle => exact absurd (hidle.validators i) h
  | validating hstage => exact hstage
  | computing _ _ hstage => exact hstage
  | finalizing _ _ hstage => exact hstage
  | answered _ _ hstage => exact hstage

theorem Standing.updateCleanStages (hT : 1 ≤ totalThreads)
    (hs : s.Standing totalThreads algoIndex instanceData tableData confirmValue disk)
    (hcounted : s.Counted totalThreads)
    (h : s.tableStep totalThreads algoIndex instanceData tableData confirmValue
      (.updateCleanStages i) = some t) :
    t.Standing totalThreads algoIndex instanceData tableData confirmValue disk := by
  have hhanded : s.handed = none := by
    by_contra hhanded
    rw [hcounted.not_update hhanded] at h
    cases h
  obtain ⟨⟨v, hfinished⟩, _, ⟨_, rfl⟩ | ⟨_, rfl⟩⟩ := tableStep_updateCleanStages h
  · have hstage := hs.processed_of_started (i := i) (by simp [hfinished])
    exact (hs.withCounter _ s.written _ s.reading).schedAlgo hT hstage hhanded
  · exact hs.withCounter _ s.written _ s.reading

/-- What a phase does to the splits: it makes the next one, it steps one, or nothing. -/
theorem phaseStep_ce {p q : Phases n} {e : PhaseEvent}
    (h : p.phaseStep totalThreads instanceData tableData confirmValue e = some q) :
    (∃ i range, e = .initCeAlgorithm i ∧
      (splitRanges tableData.metadata.rows totalThreads)[i]? = some range ∧
      q.ce = Function.update p.ce i
        (some (.new n p.validators.disk tableData.tableID confirmValue range))) ∨
    (∃ i ce r, e = .candidateEliminationStart i ∧ p.ce i = some ce ∧
      ce.candidateEliminationStart = some r ∧
      q.ce = Function.update p.ce i (if r.1 = .done then none else some r.2)) ∨
    ((∀ s : TableRun n, s.recorded e = s) ∧ q.ce = p.ce) := by
  cases e with
  | cleanDataStart =>
    obtain ⟨c, _, rfl | rfl⟩ := Phases.phaseStep_cleanDataStart h <;>
      exact .inr (.inr ⟨fun _ => rfl, rfl⟩)
  | validate e =>
    obtain ⟨validators, _, rfl⟩ := Phases.phaseStep_validate h
    exact .inr (.inr ⟨fun _ => rfl, rfl⟩)
  | deleteCleaner =>
    obtain ⟨c, _, rfl⟩ := Phases.phaseStep_deleteCleaner h
    exact .inr (.inr ⟨fun _ => rfl, rfl⟩)
  | initCeAlgorithm i =>
    left
    unfold Phases.phaseStep at h
    dsimp only at h
    split_ifs at h
    obtain ⟨range, hrange, rfl⟩ := Option.map_eq_some_iff.mp h
    exact ⟨i, range, rfl, hrange, rfl⟩
  | candidateEliminationStart i =>
    right
    left
    unfold Phases.phaseStep at h
    cases hce : p.ce i with
    | none => simp [hce] at h
    | some ce =>
      simp only [hce] at h
      obtain ⟨r, hr, rfl⟩ := Option.map_eq_some_iff.mp h
      exact ⟨i, ce, r, rfl, hce, hr, rfl⟩

theorem lt_of_splitRanges (hT : 1 ≤ totalThreads) {rows : ℕ} {range : ℤ × ℤ}
    (h : (splitRanges rows totalThreads)[i]? = some range) : i < totalThreads := by
  obtain ⟨hlt, _⟩ := List.getElem?_eq_some_iff.mp h
  rwa [AlgoState.length_splitRanges _ hT] at hlt

/-- A phase keeps what is known of the splits. -/
theorem Computing.phase (hT : 1 ≤ totalThreads) {q : Phases n} {e : PhaseEvent}
    (hs : Computing totalThreads algoIndex tableData confirmValue disk s order finals)
    (hdisk : s.phases.validators.disk = disk) (hallows : s.allows e = true)
    (hdispatched : dispatched totalThreads algoIndex tableData e = true)
    (h : s.phases.phaseStep totalThreads instanceData tableData confirmValue e = some q) :
    Computing totalThreads algoIndex tableData confirmValue disk
      { s.recorded e with phases := q } order finals := by
  rcases phaseStep_ce h with ⟨i, range, rfl, hrange, hq⟩ | ⟨i, ce, r, rfl, hce, hr, hq⟩ |
    ⟨hsame, hq⟩
  · have hi : s.handed = some i := by simpa [allows] using hallows
    have hlater : ∀ j, (∃ k, s.handed = some k ∧ j < k) → ∃ k, some (i + 1) = some k ∧ j < k := by
      rintro j ⟨k, hk, hjk⟩
      rw [hi, Option.some.injEq] at hk
      exact ⟨i + 1, rfl, by omega⟩
    refine ⟨hs.nodup, fun j hj => hlater j (hs.handed j hj), ?_, ?_, hs.runs,
      fun _ _ => linked_of_dispatched hdispatched, ?_, ?_, hs.short⟩
    · intro j ce hce
      rw [hq] at hce
      by_cases hji : j = i
      · subst hji
        have hnew : j ∉ order := by
          intro hj
          obtain ⟨k, hk, hjk⟩ := hs.handed j hj
          rw [hi, Option.some.injEq] at hk
          omega
        have hnone : s.ended j = none := by
          by_contra hsome
          obtain ⟨other, hother⟩ := Option.ne_none_iff_exists'.mp hsome
          obtain ⟨⟨k, hk, hjk⟩, _⟩ := hs.ended j other hother
          rw [hi, Option.some.injEq] at hk
          omega
        rw [Function.update_self, Option.some.injEq, hdisk] at hce
        subst hce
        exact ⟨⟨j + 1, rfl, Nat.lt_succ_self j⟩, hnew, hnone,
          fun final hfinal => ⟨range, hrange, hfinal⟩⟩
      · rw [Function.update_of_ne hji] at hce
        obtain ⟨hlt, hnew, hnone, hruns⟩ := hs.running j ce hce
        exact ⟨hlater j hlt, hnew, hnone, hruns⟩
    · intro j ce hce
      obtain ⟨hlt, hnew, hruns⟩ := hs.ended j ce hce
      exact ⟨hlater j hlt, hnew, hruns⟩
    · rintro hcollects k ⟨⟩ j hj
      rw [hq]
      by_cases hji : j = i
      · subst hji
        simp
      · simpa [recorded, hji] using hs.covered hcollects i hi j (by omega)
    · rintro k ⟨⟩
      exact lt_of_splitRanges hT hrange
  · obtain ⟨hlt, hnew, hnone, hruns⟩ := hs.running i ce hce
    have hexported : s.exported i = if r.1 = .done then some r.2 else none := by
      simp [exported, hce, hr]
    have hlinked : algoIndex = 1 := hs.linked i (.inl (by simp [hce]))
    refine ⟨hs.nodup, hs.handed, ?_, ?_, hs.runs, fun _ _ => hlinked, ?_, hs.handed_le, hs.short⟩
    · intro j other hother
      rw [hq] at hother
      by_cases hji : j = i
      · subst hji
        rw [Function.update_self] at hother
        split_ifs at hother with hdone
        obtain rfl := Option.some.inj hother
        refine ⟨hlt, hnew, ?_, fun final hfinal => hruns final ?_⟩
        · simp [recorded, hexported, hdone]
        · exact Loop.Ends.of_continue (r := r.1) (t := r.2) hr (decide_eq_false hdone) hfinal
      · rw [Function.update_of_ne hji] at hother
        obtain ⟨hjlt, hjnew, hjnone, hjruns⟩ := hs.running j other hother
        exact ⟨hjlt, hjnew, by simpa [recorded, hji] using hjnone, hjruns⟩
    · intro j other hother
      by_cases hji : j = i
      · subst hji
        have hended : s.exported j = some other := by simpa [recorded] using hother
        rw [hexported] at hended
        split_ifs at hended with hdone
        obtain rfl := Option.some.inj hended
        exact ⟨hlt, hnew, hruns _
          (Loop.Ends.of_stop (r := r.1) (t := r.2) hr (decide_eq_true hdone))⟩
      · exact hs.ended j other (by simpa [recorded, hji] using hother)
    · intro hcollects k hk j hj
      rw [hq]
      by_cases hji : j = i
      · subst hji
        right
        by_cases hdone : r.1 = .done
        · right
          simp [recorded, hexported, hdone]
        · left
          simp [hdone]
      · simpa [recorded, hji] using hs.covered hcollects k hk j hj
  · rw [hsame s]
    refine ⟨hs.nodup, hs.handed, fun j ce hce => hs.running j ce (by rwa [hq] at hce), hs.ended,
      hs.runs, ?_, ?_, hs.handed_le, hs.short⟩
    · rw [hq]
      exact hs.linked
    · rw [hq]
      exact hs.covered

/-- A split that is not accepted is counted as given away. -/
theorem Computing.rejectSplit
    (hs : Computing totalThreads algoIndex tableData confirmValue disk s order finals)
    (hhanded : s.handed = some i) (hi : i < totalThreads) (hlinked : algoIndex ≠ 1) :
    Computing totalThreads algoIndex tableData confirmValue disk
      { s with handed := some (i + 1) } order finals := by
  have hlater : ∀ j, (∃ k, s.handed = some k ∧ j < k) → ∃ k, some (i + 1) = some k ∧ j < k := by
    rintro j ⟨k, hk, hjk⟩
    rw [hhanded, Option.some.injEq] at hk
    exact ⟨i + 1, rfl, by omega⟩
  refine ⟨hs.nodup, fun j hj => hlater j (hs.handed j hj), ?_, ?_, hs.runs, hs.linked,
    fun hcollects => absurd hcollects.2 hlinked, ?_, hs.short⟩
  · intro j ce hce
    obtain ⟨hlt, hrest⟩ := hs.running j ce hce
    exact ⟨hlater j hlt, hrest⟩
  · intro j ce hce
    obtain ⟨hlt, hrest⟩ := hs.ended j ce hce
    exact ⟨hlater j hlt, hrest⟩
  · rintro k ⟨⟩
    exact hi

theorem handed_recorded (hs : s.handed ≠ none) (e : PhaseEvent) : (s.recorded e).handed ≠ none := by
  cases e with
  | initCeAlgorithm i => exact Option.some_ne_none _
  | _ => exact hs

/-- A phase finds nothing to do for splits that are through. -/
theorem Drained.phase (hT : 1 ≤ totalThreads) {q : Phases n} {e : PhaseEvent}
    (hs : Drained totalThreads s) (hallows : s.allows e = true)
    (h : s.phases.phaseStep totalThreads instanceData tableData confirmValue e = some q) :
    Drained totalThreads { s.recorded e with phases := q } := by
  rcases phaseStep_ce h with ⟨i, range, rfl, hrange, _⟩ | ⟨i, ce, r, _, hce, _⟩ | ⟨hsame, hce⟩
  · obtain ⟨k, hk, hle⟩ := hs.handed
    have hi : s.handed = some i := by simpa [allows] using hallows
    have hlt := lt_of_splitRanges hT hrange
    rw [hi, Option.some.injEq] at hk
    omega
  · rw [hs.ce i] at hce
    cases hce
  · rw [hsame s]
    exact ⟨hs.handed, fun i => (congrFun hce i).trans (hs.ce i), hs.ended⟩

theorem Standing.phase (hT : 1 ≤ totalThreads)
    (hnodup : (fileLines disk tableData.tableID).Nodup) {e : PhaseEvent}
    (hs : s.Standing totalThreads algoIndex instanceData tableData confirmValue disk)
    (h : s.tableStep totalThreads algoIndex instanceData tableData confirmValue (.phase e) =
      some t) :
    t.Standing totalThreads algoIndex instanceData tableData confirmValue disk := by
  obtain ⟨hprocessed, hallows, hdispatched, q, hq, rfl⟩ := tableStep_phase h
  obtain ⟨hsame, _, _, hvectors, hfinal, hsent, _⟩ := recorded_frame s e
  cases hs with
  | received hstage => simp [hprocessed] at hstage
  | processing hstage => simp [hprocessed] at hstage
  | failed _ hstage => simp [hprocessed] at hstage
  | validating hstage hunhanded hinside hpushed =>
    rcases phaseStep_ce hq with ⟨i, range, rfl, _⟩ | ⟨i, ce, r, _, hce, _⟩ | ⟨hrecorded, hce⟩
    · simp [allows, hunhanded.handed] at hallows
    · rw [hunhanded.ce i] at hce
      cases hce
    · rw [hrecorded s]
      exact .validating hstage ⟨hunhanded.handed, fun i => (congrFun hce i).trans (hunhanded.ce i),
        hunhanded.ended, hunhanded.resultVectors, hunhanded.ceFinalize⟩
        (hinside.phaseStep hnodup hq) hpushed
  | computing order finals hstage hhanded hinside hcomputing hresults hfinalize hpushed =>
    exact .computing order finals (hsame.trans hstage) (handed_recorded hhanded e)
      (hinside.phaseStep hnodup hq) (hcomputing.phase hT hinside.disk_eq hallows hdispatched hq)
      (hvectors.trans hresults) (hfinal.trans hfinalize) (hsent.trans hpushed)
  | finalizing order finals hstage hdrained hperm hfinals hresults hfinalize hpushed =>
    exact .finalizing order finals (hsame.trans hstage) (hdrained.phase hT hallows hq) hperm hfinals
      (hvectors.trans hresults) (hfinal.trans hfinalize) (hsent.trans hpushed)
  | answered order finalString hstage hdrained hperm hfinals hresults hfinalize hpushed =>
    exact .answered order finalString (hsame.trans hstage) (hdrained.phase hT hallows hq) hperm
      hfinals (hvectors.trans hresults) (hfinal.trans hfinalize) (hsent.trans hpushed)

theorem SplitRunsTo.lt (hT : 1 ≤ totalThreads) {final : CandidateElimination n}
    (h : SplitRunsTo totalThreads tableData confirmValue disk i final) : i < totalThreads := by
  obtain ⟨range, hrange, _⟩ := h
  exact lt_of_splitRanges hT hrange

/-- As many different splits as there are, in some order. -/
theorem perm_range_of_length (hT : 1 ≤ totalThreads) (hnodup : order.Nodup)
    (hfinals : List.Forall₂ (SplitRunsTo totalThreads tableData confirmValue disk) order finals)
    (hlength : finals.length = totalThreads) : order.Perm (List.range totalThreads) := by
  have hlt : ∀ i ∈ order, i < totalThreads := by
    intro i hi
    obtain ⟨k, hk, rfl⟩ := List.getElem_of_mem hi
    exact (hfinals.get hk (hfinals.length_eq ▸ hk)).lt hT
  have hsub : order ⊆ List.range totalThreads := fun i hi => List.mem_range.mpr (hlt i hi)
  apply (List.subperm_of_subset hnodup hsub).perm_of_length_le
  rw [List.length_range, hfinals.length_eq, hlength]

/-- With the result of the last split no split is at work. -/
theorem Computing.drained (hT : 1 ≤ totalThreads)
    (hs : Computing totalThreads algoIndex tableData confirmValue disk s order finals)
    {ce : CandidateElimination n} (hce : s.ended i = some ce)
    (hperm : (order ++ [i]).Perm (List.range totalThreads)) :
    (∃ k, s.handed = some k ∧ totalThreads ≤ k) ∧ (∀ j, s.phases.ce j = none) ∧
      ∀ j, Function.update s.ended i none j = none := by
  obtain ⟨hlt, _⟩ := hs.ended i ce hce
  have hlast : ∀ j, (∃ k, s.handed = some k ∧ j < k) → j ∉ order → j = i := by
    rintro j ⟨k, hk, hjk⟩ hj
    have hjT := hjk.trans_le (hs.handed_le k hk)
    rcases List.mem_append.mp (hperm.mem_iff.mpr (List.mem_range.mpr hjT)) with hj' | hj'
    · exact absurd hj' hj
    · exact List.mem_singleton.mp hj'
  constructor
  · have hmem : totalThreads - 1 ∈ order ++ [i] := by
      rw [hperm.mem_iff, List.mem_range]
      omega
    have hbelow : ∃ k, s.handed = some k ∧ totalThreads - 1 < k := by
      rcases List.mem_append.mp hmem with hmem | hmem
      · exact hs.handed _ hmem
      · rw [List.mem_singleton.mp hmem]
        exact hlt
    obtain ⟨k, hk, hbelow⟩ := hbelow
    exact ⟨k, hk, by omega⟩
  constructor
  · intro j
    by_contra hne
    obtain ⟨other, hother⟩ := Option.ne_none_iff_exists'.mp hne
    obtain ⟨hjlt, hjnew, hjnone, _⟩ := hs.running j other hother
    rw [hlast j hjlt hjnew, hce] at hjnone
    cases hjnone
  · intro j
    by_cases hji : j = i
    · simp [hji]
    · rw [Function.update_of_ne hji]
      by_contra hne
      obtain ⟨other, hother⟩ := Option.ne_none_iff_exists'.mp hne
      obtain ⟨hjlt, hjnew, _⟩ := hs.ended j other hother
      exact hji (hlast j hjlt hjnew)

/-- The result of a split of a table without an id is dropped. -/
theorem Computing.dropped
    (hs : Computing totalThreads algoIndex tableData confirmValue disk s order finals)
    (hid : tableData.tableID = []) {ce : CandidateElimination n} (hce : s.ended i = some ce) :
    Computing totalThreads algoIndex tableData confirmValue disk
      { s with ended := Function.update s.ended i none } order finals := by
  refine ⟨hs.nodup, hs.handed, ?_, ?_, hs.runs, ?_, fun hcollects => absurd hid hcollects.1,
    hs.handed_le, hs.short⟩
  · intro j other hother
    obtain ⟨hlt, hnew, hnone, hruns⟩ := hs.running j other hother
    have hji : j ≠ i := by
      rintro rfl
      rw [hnone] at hce
      cases hce
    exact ⟨hlt, hnew, by simpa [hji] using hnone, hruns⟩
  · intro j other hother
    have hji : j ≠ i := by
      rintro rfl
      simp at hother
    exact hs.ended j other (by simpa [hji] using hother)
  · intro j hwork
    by_cases hji : j = i
    · exact hs.linked i (.inr (by simp [hce]))
    · exact hs.linked j (by simpa [hji] using hwork)

/-- The result of a split comes behind the others. -/
theorem Computing.collected
    (hs : Computing totalThreads algoIndex tableData confirmValue disk s order finals)
    {ce : CandidateElimination n} (hce : s.ended i = some ce)
    (hmore : finals.length + 1 ≠ totalThreads)
    (resultVectors : Option (List (CeResultExportObject n))) :
    Computing totalThreads algoIndex tableData confirmValue disk
      { s with ended := Function.update s.ended i none, resultVectors := resultVectors }
      (order ++ [i]) (finals ++ [ce]) := by
  obtain ⟨hlt, hnew, hruns⟩ := hs.ended i ce hce
  refine ⟨?_, ?_, ?_, ?_, List.rel_append hs.runs (.cons hruns .nil), ?_, ?_, hs.handed_le, ?_⟩
  · rw [List.nodup_append]
    refine ⟨hs.nodup, List.nodup_singleton i, ?_⟩
    rintro j hj _ hi rfl
    exact hnew (List.mem_singleton.mp hi ▸ hj)
  · intro j hj
    rcases List.mem_append.mp hj with hj | hj
    · exact hs.handed j hj
    · rw [List.mem_singleton.mp hj]
      exact hlt
  · intro j other hother
    obtain ⟨hjlt, hjnew, hjnone, hjruns⟩ := hs.running j other hother
    have hji : j ≠ i := by
      rintro rfl
      rw [hjnone] at hce
      cases hce
    exact ⟨hjlt, by simp [hjnew, hji], by simpa [hji] using hjnone, hjruns⟩
  · intro j other hother
    have hji : j ≠ i := by
      rintro rfl
      simp at hother
    obtain ⟨hjlt, hjnew, hjruns⟩ := hs.ended j other (by simpa [hji] using hother)
    exact ⟨hjlt, by simp [hjnew, hji], hjruns⟩
  · intro _ _
    exact hs.linked i (.inr (by simp [hce]))
  · intro hcollects k hk j hj
    by_cases hji : j = i
    · subst hji
      simp
    · rcases hs.covered hcollects k hk j hj with hdone | hwork
      · exact .inl (List.mem_append_left _ hdone)
      · exact .inr (by simpa [hji] using hwork)
  · have hshort := hs.short
    rw [List.length_append, List.length_singleton]
    omega

/-- The end callback of a split: its result is dropped or comes behind the others, and the
last result makes the job that aggregates them. -/
theorem Computing.candidateEliminationEnd (hT : 1 ≤ totalThreads)
    (hs : Computing totalThreads algoIndex tableData confirmValue disk s order finals)
    (hinside : s.phases.Inside instanceData tableData disk) (hstage : s.stage = .processed)
    (hhanded : s.handed ≠ none)
    (hresults : s.resultVectors = some (finals.map (·.candidateEliminationEnd)))
    (hfinalize : s.ceFinalize = none)
    (hpushed : s.pushed = handedPackages tableData (fileLines disk tableData.tableID))
    {ce : CandidateElimination n} (hce : s.ended i = some ce)
    (h : { s with ended := Function.update s.ended i none }.updateAlgoResult totalThreads
      algoIndex tableData ce.candidateEliminationEnd = some t) :
    t.Standing totalThreads algoIndex instanceData tableData confirmValue disk := by
  have hmap : finals.map (·.candidateEliminationEnd) ++ [ce.candidateEliminationEnd] =
      (finals ++ [ce]).map (·.candidateEliminationEnd) := by simp
  obtain ⟨hdropped, rfl⟩ | ⟨resultVectors, hid, hvectors, hnext⟩ := updateAlgoResult_cases h
  · rcases hdropped with hid | hnone
    · exact .computing order finals hstage hhanded hinside (hs.dropped hid hce) hresults hfinalize
        hpushed
    · cases hresults.symm.trans hnone
  · obtain rfl : finals.map (·.candidateEliminationEnd) = resultVectors :=
      Option.some.inj (hresults.symm.trans hvectors)
    rw [hmap, List.length_map] at hnext
    rcases hnext with ⟨hmore, rfl⟩ | ⟨hlast, _, ceFinalize, hall, rfl⟩
    · exact .computing (order ++ [i]) (finals ++ [ce]) hstage hhanded hinside
        (hs.collected hce hmore _) rfl hfinalize hpushed
    · obtain ⟨_, hnew, hruns⟩ := hs.ended i ce hce
      have hnodup : (order ++ [i]).Nodup := by
        rw [List.nodup_append]
        refine ⟨hs.nodup, List.nodup_singleton i, ?_⟩
        rintro j hj _ hi rfl
        exact hnew (List.mem_singleton.mp hi ▸ hj)
      have hfinals : List.Forall₂ (SplitRunsTo totalThreads tableData confirmValue disk)
          (order ++ [i]) (finals ++ [ce]) := List.rel_append hs.runs (.cons hruns .nil)
      have hperm := perm_range_of_length hT hnodup hfinals (by simpa using hlast)
      obtain ⟨hhanded, hnoce, hnoended⟩ := hs.drained hT hce hperm
      exact .finalizing (order ++ [i]) (finals ++ [ce]) hstage ⟨hhanded, hnoce, hnoended⟩ hperm
        hfinals rfl (hall (hs.linked i (.inr (by simp [hce])))) hpushed

theorem Standing.step (hT : 1 ≤ totalThreads) (hnodup : (fileLines disk tableData.tableID).Nodup)
    {e : TableEvent}
    (hs : s.Standing totalThreads algoIndex instanceData tableData confirmValue disk)
    (hcounted : s.Counted totalThreads)
    (h : s.tableStep totalThreads algoIndex instanceData tableData confirmValue e = some t) :
    t.Standing totalThreads algoIndex instanceData tableData confirmValue disk := by
  cases e with
  | receiverFinalize =>
    simp only [tableStep] at h
    split_ifs at h with hreceived
    cases h
    cases hs with
    | received _ hidle hdisk hpushed =>
      exact .processing rfl ⟨⟨hidle.handed, hidle.ce, hidle.ended, hidle.resultVectors,
        hidle.ceFinalize⟩, hidle.cleaner, hidle.validators⟩ hdisk (by simp [hpushed])
    | processing hstage | failed _ hstage | validating hstage | computing _ _ hstage
    | finalizing _ _ hstage | answered _ _ hstage => simp [hreceived] at hstage
  | processDataFinalize =>
    simp only [tableStep] at h
    split_ifs at h with hprocessing
    cases h
    cases hs with
    | processing _ hidle hdisk hpushed =>
      refine .validating rfl ⟨hidle.handed, fun _ => rfl, hidle.ended, hidle.resultVectors,
        hidle.ceFinalize⟩ ?_ hpushed
      rw [hdisk]
      exact Phases.inside_start disk
    | received hstage | failed _ hstage | validating hstage | computing _ _ hstage
    | finalizing _ _ hstage | answered _ _ hstage => simp [hprocessing] at hstage
  | processDataFailed errorString =>
    simp only [tableStep] at h
    split_ifs at h with hprocessing
    cases h
    cases hs with
    | processing _ hidle hdisk hpushed =>
      exact .failed errorString rfl ⟨⟨hidle.handed, hidle.ce, hidle.ended, hidle.resultVectors,
        hidle.ceFinalize⟩, hidle.cleaner, hidle.validators⟩ (by simp [hpushed])
    | received hstage | failed _ hstage | validating hstage | computing _ _ hstage
    | finalizing _ _ hstage | answered _ _ hstage => simp [hprocessing] at hstage
  | phase e => exact hs.phase hT hnodup h
  | writeCounter =>
    obtain ⟨_, _, _, rfl⟩ := tableStep_writeCounter h
    exact hs.withCounter _ true s.updated s.reading
  | updateCleanStages i => exact hs.updateCleanStages hT hcounted h
  | rejectSplit i =>
    obtain ⟨hhanded, ⟨range, hrange⟩, hlinked, rfl⟩ := tableStep_rejectSplit h
    have hi := lt_of_splitRanges hT hrange
    cases hs with
    | computing order finals hstage _ hinside hcomputing hresults hfinalize hpushed =>
      exact .computing order finals hstage (Option.some_ne_none _) hinside
        (hcomputing.rejectSplit hhanded hi hlinked) hresults hfinalize hpushed
    | finalizing _ _ _ hidle | answered _ _ _ hidle =>
      obtain ⟨k, hk, hle⟩ := hidle.handed
      rw [hhanded, Option.some.injEq] at hk
      omega
    | received _ hidle | processing _ hidle | failed _ _ hidle | validating _ hidle =>
      cases hhanded.symm.trans hidle.handed
  | schedAlgoReturns =>
    obtain ⟨_, _, rfl⟩ := tableStep_schedAlgoReturns h
    exact hs.withCounter s.cleanStage s.written s.updated false
  | candidateEliminationEnd i =>
    obtain ⟨ce, hce, hresult⟩ := tableStep_candidateEliminationEnd h
    cases hs with
    | computing order finals hstage hhanded hinside hcomputing hresults hfinalize hpushed =>
      exact hcomputing.candidateEliminationEnd hT hinside hstage hhanded hresults hfinalize hpushed
        hce hresult
    | finalizing _ _ _ hidle | answered _ _ _ hidle | received _ hidle | processing _ hidle
    | failed _ _ hidle | validating _ hidle =>
      rw [hidle.ended i] at hce
      cases hce
  | ceFinalizeEndProcess =>
    obtain ⟨results, hresults, h⟩ := Option.bind_eq_some_iff.mp h
    obtain ⟨result, hresult, h⟩ := Option.bind_eq_some_iff.mp h
    obtain ⟨finalString, hstring, rfl⟩ := Option.map_eq_some_iff.mp h
    cases hs with
    | finalizing order finals hstage hdrained hperm hfinals hvectors hfinalize hpushed =>
      rw [hfinalize, Option.some.injEq] at hresults
      subst hresults
      exact .answered order finalString hstage ⟨hdrained.handed, hdrained.ce, hdrained.ended⟩ hperm
        ⟨finals, result, hfinals, hresult, hstring⟩ hvectors rfl (by simp [hpushed])
    | received _ hidle | processing _ hidle | failed _ _ hidle | validating _ hidle =>
      rw [hidle.ceFinalize] at hresults
      cases hresults
    | computing _ _ _ _ _ _ _ hfinalize | answered _ _ _ _ _ _ _ hfinalize =>
      rw [hfinalize] at hresults
      cases hresults

theorem Standing.told
    (hs : s.Standing totalThreads algoIndex instanceData tableData confirmValue disk) :
    Told totalThreads tableData confirmValue n disk s.pushed := by
  cases hs with
  | received _ _ _ hpushed =>
    rw [hpushed]
    exact .nothing
  | processing _ _ _ hpushed | validating _ _ _ hpushed =>
    rw [hpushed]
    exact .received
  | failed errorString _ _ hpushed =>
    rw [hpushed]
    exact .failed errorString
  | computing _ _ _ _ _ _ _ _ hpushed | finalizing _ _ _ _ _ _ _ _ hpushed =>
    rw [hpushed]
    exact .handed
  | answered order finalString _ _ hperm hfinal _ _ hpushed =>
    rw [hpushed]
    exact .answered order finalString hperm hfinal

/-- Where every run from the reception stands. -/
theorem standing_of_exec (hT : 1 ≤ totalThreads)
    (hnodup : (fileLines disk tableData.tableID).Nodup) {es : List TableEvent}
    (hrun : exec (tableStep totalThreads algoIndex instanceData tableData confirmValue)
      (start tableData none disk) es = some s) :
    s.Standing totalThreads algoIndex instanceData tableData confirmValue disk ∧
      s.Counted totalThreads := by
  have hstep : ∀ (s : TableRun n) e t,
      s.Standing totalThreads algoIndex instanceData tableData confirmValue disk ∧
        s.Counted totalThreads →
      s.tableStep totalThreads algoIndex instanceData tableData confirmValue e = some t →
      t.Standing totalThreads algoIndex instanceData tableData confirmValue disk ∧
        t.Counted totalThreads :=
    fun _ _ _ hs h => ⟨hs.1.step hT hnodup hs.2 h, hs.2.step h⟩
  exact exec_invariant hstep ⟨standing_start disk, counted_start disk⟩ hrun

/-- In whatever order the callbacks of a table with different lines run, at an address
without a counter, the server is told of the reception first, then either of an error or of
the lines as they were received, and last of one final result, which the splits of the
received text compute. -/
theorem told_of_exec {getInstanceAliasName : Text → Text} {received : Disk}
    {packet : UserDataPacket} (hT : 1 ≤ totalThreads)
    (hreceived : UserDataParser.processDataPacket getInstanceAliasName received packet =
      some (.success, some tableData, disk))
    (hnodup : (splitStringByNewline packet.data).Nodup) {es : List TableEvent}
    (hrun : exec (tableStep totalThreads algoIndex instanceData tableData confirmValue)
      (start tableData none disk : TableRun n) es = some s) :
    Told totalThreads tableData confirmValue n disk s.pushed := by
  obtain ⟨hlines, _⟩ := UserDataParser.processDataPacket_success hreceived
  rw [← hlines] at hnodup
  exact (standing_of_exec hT hnodup hrun).1.told

/-- A header and one positive row of one attribute. -/
def onePositive : UserDataPacket :=
  ⟨['t'], Records.unrecords '\n' [['h', ',', 'c'], ['a', ',', 'y']], ['i'], .mediumPriority⟩

def onePositiveTable : TableData := ⟨⟨1, 2⟩, ['t'], .mediumPriority, ['i']⟩

def onePositiveDisk : Disk := diskOf ['t'] [['h', ',', 'c'], ['a', ',', 'y']]

/-- The callbacks of the only split, one after another. -/
def oneSplit : List TableEvent :=
  [.receiverFinalize, .processDataFinalize, .phase .cleanDataStart, .phase .cleanDataStart,
    .phase .cleanDataStart, .phase (.validate (.initValidateDataPhase 0)), .writeCounter,
    .phase .deleteCleaner, .phase (.validate (.validateDataStart 0)), .updateCleanStages 0,
    .phase (.initCeAlgorithm 0), .schedAlgoReturns, .phase (.candidateEliminationStart 0),
    .phase (.candidateEliminationStart 0), .phase (.candidateEliminationStart 0),
    .candidateEliminationEnd 0, .ceFinalizeEndProcess]

theorem told_of_exec_oneSplit :
    ∃ s : TableRun 1, exec (tableStep 1 1 ⟨0, []⟩ onePositiveTable ['y'])
        (start onePositiveTable none onePositiveDisk) oneSplit = some s ∧
      s.pushed.length = 3 ∧ Told 1 onePositiveTable ['y'] 1 onePositiveDisk s.pushed := by
  have hrun : (exec (tableStep 1 1 ⟨0, []⟩ onePositiveTable ['y'])
      (start onePositiveTable none onePositiveDisk : TableRun 1) oneSplit).map
      (fun s => s.pushed.length) = some 3 := by decide
  obtain ⟨s, hs, hlength⟩ := Option.map_eq_some_iff.mp hrun
  have hreceived : UserDataParser.processDataPacket id (fun _ => none) onePositive =
      some (.success, some onePositiveTable, onePositiveDisk) := rfl
  exact ⟨s, hs, hlength, told_of_exec (le_refl 1) hreceived (by decide) hs⟩

end TableRun

end WorkerUnit
