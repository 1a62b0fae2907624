import WorkerUnit.Library.StepSystem
import WorkerUnit.Instance.InstanceList
import WorkerUnit.Scheduler.TaskPool

/-!
# Scheduling the splits of a table and collecting their results

`algorithm/algorithm_scheduler.hpp` and `.cpp`. A call of `sched_algo` is
numbered, and its number stands for the pointer to its `TableData`; the result
of a split carries the number and the index of the split. Calls of `sched_algo`
and of `update_algo_result` interleave: the loop of a call gives away one split
at a time, and a split may report as soon as it has been accepted, so also while
the call still reads the table for its log lines.
-/

namespace WorkerUnit

open StepSystem

/-- A package for `scheduleTask`; the arguments may be a null pointer. -/
structure AlgorithmExportPackage (α : Type*) where
  proc : ProcessStates
  args : Option α

structure CeArguments where
  tableId : Text
  instanceId : Text
  startRow : ℤ
  endRow : ℤ
  columns : ℤ
  deriving DecidableEq, Repr

/-- The process has no `.type`, so its type is zero. -/
def exampleProc : ProcessStates := ⟨0, true, true, true, false⟩

def ceAlgorithm : ProcessStates := ⟨4, true, true, true, false⟩

def ceFinalizeProc : ProcessStates := ⟨4, true, true, true, false⟩

def initExampleAlgo (_ : CeArguments) : AlgorithmExportPackage CeArguments := ⟨exampleProc, none⟩

def initCeAlgorithm (args : CeArguments) : AlgorithmExportPackage CeArguments :=
  ⟨ceAlgorithm, some args⟩

/-- The dispatch table `avial_algo`, of `TOT_ALGO` entries. -/
def avialAlgo : List (CeArguments → AlgorithmExportPackage CeArguments) :=
  [initExampleAlgo, initCeAlgorithm]

/-- The rows of the splits that the loop of `sched_algo` gives away, and the
start row that is left for the last split. -/
def splitLoop (endRowNumber : ℤ) (startRowNumber : ℤ) : List ℕ → List (ℤ × ℤ) × ℤ
  | [] => ([], startRowNumber)
  | i :: is =>
    let (ranges, last) := splitLoop endRowNumber (endRowNumber * i + 1) is
    ((startRowNumber, endRowNumber * i) :: ranges, last)

def splitRanges (rows totalThreads : ℕ) : List (ℤ × ℤ) :=
  let (ranges, startRowNumber) :=
    splitLoop (rows / totalThreads : ℕ) 1 (List.range' 1 (totalThreads - 1))
  ranges ++ [(startRowNumber, (rows : ℤ))]

/-- The first row and the number of rows of each split. -/
def splitBlocks (rows totalThreads : ℕ) : List (ℕ × ℕ) :=
  let each := rows / totalThreads
  (List.range (totalThreads - 1)).map (fun i => (each * i + 1, each)) ++
    [(each * (totalThreads - 1) + 1, rows - each * (totalThreads - 1))]

structure Split where
  table : ℕ
  index : ℕ
  deriving DecidableEq, Repr

/-- What a finalize task gets: the results of the splits, of any type. -/
structure FinalizeArguments (α : Type*) where
  resultVectors : List α
  tableId : Text
  priority : TaskPriority
  deriving DecidableEq, Repr

section Finalize

variable {α : Type*}

def initExampleFinalize (_ : FinalizeArguments α) :
    AlgorithmExportPackage (FinalizeArguments α) :=
  ⟨exampleProc, none⟩

def initCeFinalize (args : FinalizeArguments α) : AlgorithmExportPackage (FinalizeArguments α) :=
  ⟨ceFinalizeProc, some args⟩

/-- The dispatch table `avialable_finalize_algo`. -/
def avialableFinalizeAlgo :
    List (FinalizeArguments α → AlgorithmExportPackage (FinalizeArguments α)) :=
  [initExampleFinalize, initCeFinalize]

end Finalize

structure AlgorithmPackage where
  tableData : ℕ
  resultVectors : List Split
  deriving DecidableEq, Repr

/-- A finalize task that `scheduleTask` accepted, and the table it is for. -/
structure FinalizeTask where
  tableData : ℕ
  args : FinalizeArguments Split
  deriving DecidableEq, Repr

/-- One `dealloc_table_dat`: the table that is deleted and the file that is dropped. -/
structure Release where
  tableData : ℕ
  file : Text
  deriving DecidableEq, Repr

/-- A call of `sched_algo` with the index it looked up, how many of its splits it
has handed to `scheduleTask`, and whether its table has been read for the last time. -/
structure SchedCall where
  tData : TableData
  algoIndex : ℕ
  handed : ℕ
  ended : Bool
  deriving DecidableEq, Repr

/-- `fault` is set by an access to a deleted table or past a dispatch table. -/
structure AlgoState where
  instances : InstanceList
  calls : ℕ
  call : ℕ → Option SchedCall
  algorithmResultMap : Text → Option AlgorithmPackage
  accepted : List Split
  returned : List Split
  finalizeTasks : List FinalizeTask
  releases : List Release
  fault : Bool

inductive AlgoEvent where
  | addInstance (inst : Instance)
  | schedAlgo (tData : TableData)
  | scheduleSplit (table : ℕ)
  | schedAlgoReturns (table : ℕ)
  | updateAlgoResult (result : Split)
  deriving DecidableEq, Repr

namespace AlgoState

def start (instances : InstanceList) : AlgoState :=
  ⟨instances, 0, fun _ => none, fun _ => none, [], [], [], [], false⟩

def linkedAlgorithm (s : AlgoState) (tData : TableData) : ℕ :=
  (s.instances.getInstanceFromId tData.instanceType).linkedAlgorithm

def isReleased (s : AlgoState) (table : ℕ) : Bool := s.releases.any fun r => r.tableData == table

/-- `sched_algo` up to its loop: `insert` keeps an entry that is there. -/
def schedAlgo (s : AlgoState) (tData : TableData) : AlgoState :=
  { s with
    calls := s.calls + 1
    call := Function.update s.call s.calls (some ⟨tData, s.linkedAlgorithm tData, 0, false⟩)
    algorithmResultMap :=
      if (s.algorithmResultMap tData.tableID).isSome then s.algorithmResultMap
      else Function.update s.algorithmResultMap tData.tableID (some ⟨s.calls, []⟩) }

/-- The next split of a call: the loop reads the table and the dispatch table. -/
def scheduleSplit (totalThreads : ℕ) (s : AlgoState) (table : ℕ) : Option AlgoState :=
  match s.call table with
  | none => none
  | some c =>
    match (splitRanges c.tData.metadata.rows totalThreads)[c.handed]? with
    | none => none
    | some (startRow, endRow) =>
      if s.isReleased table then some { s with fault := true }
      else match avialAlgo[c.algoIndex]? with
        | none => some { s with fault := true }
        | some initAlgo =>
          let package := initAlgo ⟨c.tData.tableID, c.tData.instanceType, startRow, endRow,
            c.tData.metadata.columns⟩
          some { s with
            call := Function.update s.call table (some { c with handed := c.handed + 1 })
            accepted := if scheduleTaskAccepts (some package.proc) package.args then
              s.accepted ++ [⟨table, c.handed⟩] else s.accepted }

/-- The reads of the table behind its last split: the log lines at the end of
`sched_algo`, and the one in `update_clean_stages` when `sched_algo` has returned. -/
def schedAlgoReturns (totalThreads : ℕ) (s : AlgoState) (table : ℕ) : Option AlgoState :=
  match s.call table with
  | none => none
  | some c =>
    if c.handed < totalThreads ∨ c.ended then none
    else if s.isReleased table then some { s with fault := true }
    else some { s with call := Function.update s.call table (some { c with ended := true }) }

/-- The branch of `update_algo_result` for a full result vector. -/
def finalize (s : AlgoState) (tableId : Text) (package : AlgorithmPackage) : AlgoState :=
  match s.call package.tableData with
  | none => { s with fault := true }
  | some c =>
    if s.isReleased package.tableData then { s with fault := true }
    else match avialableFinalizeAlgo[s.linkedAlgorithm c.tData]? with
      | none => { s with fault := true }
      | some initFinalize =>
        let args : FinalizeArguments Split :=
          ⟨package.resultVectors, c.tData.tableID, c.tData.priority⟩
        let exportPackage := initFinalize args
        { s with
          finalizeTasks :=
            if scheduleTaskAccepts (some exportPackage.proc) exportPackage.args then
              s.finalizeTasks ++ [⟨package.tableData, args⟩] else s.finalizeTasks
          releases := s.releases ++ [⟨package.tableData, c.tData.tableID⟩]
          algorithmResultMap := Function.update s.algorithmResultMap tableId none }

def updateAlgoResult (totalThreads : ℕ) (s : AlgoState) (tableId : Text) (result : Split) :
    AlgoState :=
  if tableId.isEmpty then s
  else match s.algorithmResultMap tableId with
    | none => s
    | some package =>
      let package := { package with resultVectors := package.resultVectors ++ [result] }
      if package.resultVectors.length = totalThreads then s.finalize tableId package
      else { s with
        algorithmResultMap := Function.update s.algorithmResultMap tableId (some package) }

/-- One step; nothing happens after a fault. -/
def algoStep (totalThreads : ℕ) (s : AlgoState) (e : AlgoEvent) : Option AlgoState :=
  if s.fault then none
  else match e with
    | .addInstance inst => some { s with instances := s.instances.addInstance inst }
    | .schedAlgo tData => some (s.schedAlgo tData)
    | .scheduleSplit table => s.scheduleSplit totalThreads table
    | .schedAlgoReturns table => s.schedAlgoReturns totalThreads table
    | .updateAlgoResult result =>
      match s.call result.table with
      | none => none
      | some c =>
        if result ∈ s.accepted ∧ result ∉ s.returned then
          some ({ s with returned := s.returned ++ [result] }.updateAlgoResult
            totalThreads c.tData.tableID result)
        else none

/-- The results that the splits of a table have reported, in order. -/
def results (s : AlgoState) (table : ℕ) : List Split :=
  s.returned.filter fun x => x.table = table

def finalizeTasksOf (s : AlgoState) (table : ℕ) : List FinalizeTask :=
  s.finalizeTasks.filter fun x => x.tableData = table

def releasesOf (s : AlgoState) (table : ℕ) : List Release :=
  s.releases.filter fun x => x.tableData = table

/-- A table that is handed over has an id that no table in flight has, and an
instance of the candidate elimination algorithm; the last result of a table comes
when its `sched_algo` no longer reads the table. -/
def Trackable (totalThreads : ℕ) (s : AlgoState) : AlgoEvent → Prop
  | .schedAlgo tData => tData.tableID ≠ [] ∧ s.linkedAlgorithm tData = 1 ∧
    s.algorithmResultMap tData.tableID = none
  | .updateAlgoResult result => (s.results result.table).length + 1 = totalThreads →
    ∀ c ∈ s.call result.table, c.ended = true
  | _ => True

instance (totalThreads : ℕ) (s : AlgoState) (e : AlgoEvent) :
    Decidable (Trackable totalThreads s e) :=
  match e with
  | .schedAlgo tData => inferInstanceAs (Decidable (tData.tableID ≠ [] ∧ _ ∧ _))
  | .updateAlgoResult _ => inferInstanceAs (Decidable (_ → ∀ c ∈ _, _))
  | .addInstance _ | .scheduleSplit _ | .schedAlgoReturns _ => isTrue trivial

variable {totalThreads : ℕ}

theorem length_splitLoop (endRowNumber startRowNumber : ℤ) (is : List ℕ) :
    (splitLoop endRowNumber startRowNumber is).1.length = is.length := by
  induction is generalizing startRowNumber with
  | nil => rfl
  | cons i is ih => simp [splitLoop, ih]

theorem length_splitRanges (rows : ℕ) (hT : 1 ≤ totalThreads) :
    (splitRanges rows totalThreads).length = totalThreads := by
  simp only [splitRanges, List.length_append, length_splitLoop, List.length_range',
    List.length_singleton]
  omega

end AlgoState

/-- The splits before the last one hold no more rows than there are. -/
theorem fullSplits_le (rows totalThreads : ℕ) :
    rows / totalThreads * (totalThreads - 1) ≤ rows :=
  (Nat.mul_le_mul_left _ (Nat.sub_le ..)).trans (Nat.div_mul_le_self ..)

theorem splitLoop_range' (each i k : ℕ) :
    splitLoop each (each * i + 1) (List.range' (i + 1) k) =
      ((List.range' i k).map fun i : ℕ => ((each * i + 1 : ℤ), (each * i + each : ℤ)),
        (each * (i + k) + 1 : ℤ)) := by
  induction k generalizing i with
  | zero => simp [splitLoop]
  | succ k ih =>
    have hrest := ih (i + 1)
    rw [List.range'_succ, List.range'_succ, splitLoop]
    push_cast at hrest ⊢
    rw [hrest]
    simp only [List.map_cons]
    congr 2
    ring

/-- The rows that the splits get. -/
theorem splitRanges_eq (rows totalThreads : ℕ) :
    splitRanges rows totalThreads =
      (splitBlocks rows totalThreads).map fun b => ((b.1 : ℤ), (b.1 : ℤ) + b.2 - 1) := by
  have hle := fullSplits_le rows totalThreads
  have hloop := splitLoop_range' (rows / totalThreads) 0 (totalThreads - 1)
  simp only [Nat.cast_zero, mul_zero, zero_add] at hloop
  simp only [splitRanges, splitBlocks, hloop, List.map_append, List.map_map, List.map_singleton,
    ← List.range_eq_range']
  congr 1
  · apply List.map_congr_left
    intro i _
    simp only [Function.comp_apply, Prod.mk.injEq]
    push_cast
    exact ⟨rfl, by ring⟩
  · push_cast [Nat.cast_sub hle]
    congr 2
    ring
theorem flatMap_range'_blocks (each m : ℕ) :
    ((List.range m).map fun i => (each * i + 1, each)).flatMap
        (fun b => List.range' b.1 b.2) = List.range' 1 (each * m) := by
  induction m with
  | zero => rfl
  | succ m ih =>
    rw [List.range_succ, List.map_append, List.flatMap_append, ih]
    simp only [List.map_singleton, List.flatMap_singleton]
    rw [Nat.mul_succ, ← List.range'_append_1, Nat.add_comm 1]

/-- Each data row is in one split, in the order of the file. -/
theorem splitBlocks_cover (rows totalThreads : ℕ) :
    (splitBlocks rows totalThreads).flatMap (fun b => List.range' b.1 b.2) =
      List.range' 1 rows := by
  have hle := fullSplits_le rows totalThreads
  rw [splitBlocks, List.flatMap_append, flatMap_range'_blocks, List.flatMap_singleton,
    Nat.add_comm _ 1, List.range'_append_1, Nat.add_sub_cancel' hle]

theorem splitBlocks_le {rows totalThreads : ℕ} {b : ℕ × ℕ}
    (hb : b ∈ splitBlocks rows totalThreads) : b.1 + b.2 ≤ rows + 1 := by
  have hle := fullSplits_le rows totalThreads
  rcases List.mem_append.mp hb with hb | hb
  · obtain ⟨i, hi, rfl⟩ := List.mem_map.mp hb
    have hi' : i + 1 ≤ totalThreads - 1 := List.mem_range.mp hi
    have hmul := (Nat.mul_le_mul_left (rows / totalThreads) hi').trans hle
    rw [Nat.mul_succ] at hmul
    dsimp only
    omega
  · rw [List.mem_singleton.mp hb]
    dsimp only
    omega

end WorkerUnit
