import WorkerUnit.Algorithm.AlgorithmScheduler
import WorkerUnit.Algorithm.CandidateElimination
import WorkerUnit.DataProcessor.DataCleaner
import WorkerUnit.DataProcessor.DataValidator
import WorkerUnit.Receiver.UserDataParser

/-!
# The phases of one table

A received table is cleaned, validated and handed to the candidate elimination.
`clean_data_finalize` schedules the validators before it deletes the cleaner, so
the validators have read the file before the clean lines are committed, and they
may run before or after. The splits of `sched_algo` are made when every
validator is done.
-/

namespace WorkerUnit

open StepSystem FileDataBaseAccess

inductive CleanStage where
  | running (c : DataCleaner)
  | finished (c : DataCleaner)
  | destroyed

structure Phases (n : ℕ) where
  cleaner : CleanStage
  validators : ValidateRun
  ce : ℕ → Option (CandidateElimination n)

inductive PhaseEvent where
  | cleanDataStart
  | validate (e : ValidateEvent)
  | deleteCleaner
  | initCeAlgorithm (i : ℕ)
  | candidateEliminationStart (i : ℕ)
  deriving DecidableEq, Repr

/-- The task of the split has returned `JOB_DONE`. -/
def ValidateSplit.isDone : ValidateSplit → Bool
  | finished _ => true
  | destroyed => true
  | _ => false

def ValidateSplit.isWaiting : ValidateSplit → Bool
  | waiting => true
  | _ => false

namespace Phases

variable [BoostIequals] (totalThreads : ℕ) (instanceData : InstanceData) (tableData : TableData)
  (confirmValue : Text) {n : ℕ}

/-- After the reception: `init_data_cleaner` has made the cleaner. -/
def start (disk : Disk) : Phases n :=
  ⟨.running (.new disk tableData), .start disk, fun _ => none⟩

def phaseStep (s : Phases n) : PhaseEvent → Option (Phases n)
  | .cleanDataStart =>
    match s.cleaner with
    | .running c =>
      let (status, c) := c.cleanDataStart
      some { s with cleaner := if status = .done then .finished c else .running c }
    | _ => none
  | .validate (.initValidateDataPhase i) =>
    match s.cleaner with
    | .finished _ =>
      (s.validators.validate totalThreads instanceData tableData (.initValidateDataPhase i)).map
        fun validators => { s with validators := validators }
    | _ => none
  | .validate e =>
    (s.validators.validate totalThreads instanceData tableData e).map
      fun validators => { s with validators := validators }
  | .deleteCleaner =>
    match s.cleaner with
    | .finished c =>
      if ∀ i < totalThreads, ¬ (s.validators.split i).isWaiting then
        some { s with
          cleaner := .destroyed
          validators := { s.validators with
            disk := c.fileDataBaseAccess.closeFile s.validators.disk } }
      else none
    | _ => none
  | .initCeAlgorithm i =>
    if ∀ j < totalThreads, (s.validators.split j).isDone then
      (splitRanges tableData.metadata.rows totalThreads)[i]?.map fun range =>
        { s with
          ce := Function.update s.ce i
            (some (.new n s.validators.disk tableData.tableID confirmValue range)) }
    else none
  | .candidateEliminationStart i =>
    match s.ce i with
    | some ce => ce.candidateEliminationStart.map fun r =>
        { s with ce := Function.update s.ce i (if r.1 = .done then none else some r.2) }
    | none => none

/-- The law of the accesses: when the clean phase is done the table has the rows
that are left; a validator reads a row of the file with a cell in each column;
a split of the candidate elimination has only rows of the file, and its next
call finds the rows it asks for. -/
structure RowsInside (s : Phases n) : Prop where
  rows : ∀ c, s.cleaner = .finished c →
    c.fileDataBaseAccess.getTotalRows = tableData.metadata.rows + 1
  validator : ∀ i v, s.validators.split i = .running v → v.iterator < tableData.metadata.rows →
    v.iterator < (fileLines s.validators.disk tableData.tableID).length ∧
      ∃ feildList, v.fileDataBaseAccess.getRowValueList v.iterator = some feildList ∧
        tableData.metadata.columns ≤ feildList.length
  ce : ∀ i ce, s.ce i = some ce →
    (∀ r : ℕ, ce.start ≤ r → r ≤ ce.endRow →
      r < (fileLines s.validators.disk tableData.tableID).length) ∧
    ce.candidateEliminationStart.isSome

/-- The lines of the table are all different, and each data row but the last has
a cell in each column. -/
def WellShaped (lines : List Text) : Prop :=
  lines.Nodup ∧ ∀ r < tableData.metadata.rows, 1 ≤ r → ∀ line ∈ lines[r]?,
    tableData.metadata.columns ≤ (advTokenizer line ',').length

instance (lines : List Text) : Decidable (WellShaped tableData lines) :=
  inferInstanceAs (Decidable (_ ∧ ∀ r < _, 1 ≤ r → ∀ line ∈ _, _))

end Phases

/-- The splits of the validate phase start behind the header. -/
theorem one_le_of_mem_validateRanges {rows totalThreads : ℕ} {range : ℤ × ℤ}
    (h : range ∈ validateRanges rows totalThreads) : 1 ≤ range.1 := by
  have hloop : ∀ (is : List ℕ) (rows multiplier startIndex endIndex : ℤ), 0 ≤ multiplier →
      1 ≤ startIndex → 0 ≤ endIndex →
      ∀ range ∈ validateLoop rows multiplier startIndex endIndex is, 1 ≤ range.1 := by
    intro is
    induction is with
    | nil => exact fun _ _ _ _ _ _ _ _ h => nomatch h
    | cons i is ih =>
      intro rows multiplier startIndex endIndex hmultiplier hstart hend range hrange
      rcases List.mem_cons.mp hrange with rfl | hrange
      · exact hstart
      · have hnext : 0 ≤ endIndex + multiplier * i := by positivity
        refine ih _ _ _ _ hmultiplier (by omega) ?_ range hrange
        split_ifs
        · omega
        · exact hnext
  exact hloop _ _ _ _ _ (by positivity) le_rfl (by positivity) range h

theorem head_validateRanges (rows : ℕ) (hT : 1 ≤ totalThreads) :
    ∃ endIndex, (validateRanges rows totalThreads)[0]? = some (1, endIndex) := by
  obtain ⟨m, rfl⟩ := Nat.exists_eq_add_of_le' hT
  rw [validateRanges, List.range'_succ, validateLoop]
  exact ⟨_, rfl⟩

theorem splitRanges_bounds {rows totalThreads : ℕ} {range : ℤ × ℤ}
    (h : range ∈ splitRanges rows totalThreads) : 1 ≤ range.1 ∧ range.2 ≤ rows := by
  rw [splitRanges_eq] at h
  obtain ⟨b, hb, rfl⟩ := List.mem_map.mp h
  have hle := splitBlocks_le hb
  have hpos : 1 ≤ b.1 := by
    rcases List.mem_append.mp hb with hb | hb
    · obtain ⟨i, _, rfl⟩ := List.mem_map.mp hb
      exact Nat.le_add_left ..
    · rw [List.mem_singleton.mp hb]
      exact Nat.le_add_left ..
  constructor
  · dsimp only
    omega
  · dsimp only
    omega

namespace Phases

variable {totalThreads : ℕ} {instanceData : InstanceData} {tableData : TableData}
  {confirmValue : Text} {n : ℕ} {disk : Disk} {s t : Phases n}

/-- What a validator knows of the file: the rows it has still to read are those
of the file, and its handle is not marked for the commit. -/
structure ValidatorInside (instanceData : InstanceData) (tableData : TableData)
    (lines : List Text) (v : ValidateData) : Prop where
  table_eq : v.tableData = tableData
  instance_eq : v.instanceData = instanceData
  iterator : 1 ≤ v.iterator
  writable : v.fileDataBaseAccess.Writable
  clean : v.fileDataBaseAccess.dataModified = false
  length : v.fileDataBaseAccess.readWriteData.length = lines.length
  unread : ∀ r : ℕ, v.iterator ≤ r → v.fileDataBaseAccess.readWriteData[r]? = lines[r]?

/-- What a run keeps true of a table whose lines are all different: no phase
changes the file. -/
structure Inside (instanceData : InstanceData) (tableData : TableData) (disk : Disk)
    (s : Phases n) : Prop where
  disk_eq : s.validators.disk = disk
  cleaner : ∀ c, s.cleaner = .running c ∨ s.cleaner = .finished c →
    c.fileDataBaseAccess = openFile disk tableData.tableID .rwFile ∧ ∃ k : ℕ, c.iterator = k
  validator : ∀ i v, (s.validators.split i).data? = some v →
    ValidatorInside instanceData tableData (fileLines disk tableData.tableID) v
  ce : ∀ i ce, s.ce i = some ce →
    ce.fileDataBaseAccess = openFile disk tableData.tableID .readFile ∧ 1 ≤ ce.start ∧
      ce.endRow ≤ tableData.metadata.rows

/-- A step of the cleaner finds nothing to delete. -/
theorem cleaner_cleanDataStart (hnodup : (fileLines disk tableData.tableID).Nodup)
    {c : DataCleaner}
    (h : c.fileDataBaseAccess = openFile disk tableData.tableID .rwFile ∧
      ∃ k : ℕ, c.iterator = k) :
    c.cleanDataStart.2.fileDataBaseAccess = openFile disk tableData.tableID .rwFile ∧
      ∃ k : ℕ, c.cleanDataStart.2.iterator = k := by
  obtain ⟨hfile, k, hk⟩ := h
  have hwritable : c.fileDataBaseAccess.Writable := hfile ▸ writable_openFile _
  have hlines : c.fileDataBaseAccess.readWriteData.Nodup := by
    rw [hfile]
    exact hnodup
  rw [DataCleaner.cleanDataStart_of_nodup hwritable hlines hk]
  exact ⟨hfile, k + 1, by simp [hk]⟩

theorem validatorInside_new {startIndex endIndex : ℤ} (hstart : 1 ≤ startIndex) :
    ValidatorInside instanceData tableData (fileLines disk tableData.tableID)
      (.new disk startIndex endIndex tableData instanceData) :=
  ⟨rfl, rfl, hstart, writable_openFile _, rfl, rfl, fun _ _ => rfl⟩

theorem inside_start (disk : Disk) :
    (start tableData disk : Phases n).Inside instanceData tableData disk := by
  refine ⟨rfl, ?_, nofun, nofun⟩
  rintro c (h | h)
  · cases h
    exact ⟨rfl, 0, rfl⟩
  · cases h

theorem Inside.updateCe (hs : s.Inside instanceData tableData disk) (i : ℕ)
    {split : Option (CandidateElimination n)}
    (h : ∀ ce, split = some ce →
      ce.fileDataBaseAccess = openFile disk tableData.tableID .readFile ∧ 1 ≤ ce.start ∧
        ce.endRow ≤ tableData.metadata.rows) :
    ({ s with ce := Function.update s.ce i split } : Phases n).Inside instanceData tableData
      disk := by
  refine ⟨hs.disk_eq, hs.cleaner, hs.validator, fun j ce hce => ?_⟩
  dsimp only at hce
  by_cases hj : j = i
  · subst hj
    rw [Function.update_self] at hce
    exact h ce hce
  · rw [Function.update_of_ne hj] at hce
    exact hs.ce j ce hce

variable [BoostIequals]

theorem phaseStep_cleanDataStart
    (h : s.phaseStep totalThreads instanceData tableData confirmValue .cleanDataStart = some t) :
    ∃ c, s.cleaner = .running c ∧
      (t = { s with cleaner := .running c.cleanDataStart.2 } ∨
        t = { s with cleaner := .finished c.cleanDataStart.2 }) := by
  unfold phaseStep at h
  cases hcleaner : s.cleaner with
  | running c =>
    simp only [hcleaner, Option.some.injEq] at h
    refine ⟨c, rfl, ?_⟩
    split_ifs at h
    · exact Or.inr h.symm
    · exact Or.inl h.symm
  | finished c => simp [hcleaner] at h
  | destroyed => simp [hcleaner] at h

theorem phaseStep_validate {e : ValidateEvent}
    (h : s.phaseStep totalThreads instanceData tableData confirmValue (.validate e) = some t) :
    ∃ validators, s.validators.validate totalThreads instanceData tableData e = some validators ∧
      t = { s with validators := validators } := by
  cases e with
  | initValidateDataPhase i =>
    unfold phaseStep at h
    cases hcleaner : s.cleaner with
    | running c => simp [hcleaner] at h
    | finished c =>
      simp only [hcleaner] at h
      obtain ⟨validators, hvalidate, rfl⟩ := Option.map_eq_some_iff.mp h
      exact ⟨validators, hvalidate, by rw [← hcleaner]⟩
    | destroyed => simp [hcleaner] at h
  | validateDataStart i =>
    obtain ⟨validators, hvalidate, rfl⟩ := Option.map_eq_some_iff.mp h
    exact ⟨validators, hvalidate, rfl⟩
  | validateDataFinalize i =>
    obtain ⟨validators, hvalidate, rfl⟩ := Option.map_eq_some_iff.mp h
    exact ⟨validators, hvalidate, rfl⟩

theorem phaseStep_deleteCleaner
    (h : s.phaseStep totalThreads instanceData tableData confirmValue .deleteCleaner = some t) :
    ∃ c, s.cleaner = .finished c ∧
      t = { s with
        cleaner := .destroyed
        validators := { s.validators with
          disk := c.fileDataBaseAccess.closeFile s.validators.disk } } := by
  unfold phaseStep at h
  cases hcleaner : s.cleaner with
  | running c => simp [hcleaner] at h
  | finished c =>
    simp only [hcleaner] at h
    split_ifs at h
    cases h
    exact ⟨c, rfl, rfl⟩
  | destroyed => simp [hcleaner] at h

theorem phaseStep_candidateEliminationStart {i : ℕ}
    (h : s.phaseStep totalThreads instanceData tableData confirmValue
      (.candidateEliminationStart i) = some t) :
    ∃ ce status ce', s.ce i = some ce ∧ ce.candidateEliminationStart = some (status, ce') ∧
      (t = { s with ce := Function.update s.ce i (some ce') } ∨
        t = { s with ce := Function.update s.ce i none }) := by
  unfold phaseStep at h
  cases hce : s.ce i with
  | none => simp [hce] at h
  | some ce =>
    simp only [hce] at h
    obtain ⟨⟨status, ce'⟩, hstart, rfl⟩ := Option.map_eq_some_iff.mp h
    refine ⟨ce, status, ce', rfl, hstart, ?_⟩
    dsimp only
    split_ifs
    · exact Or.inr rfl
    · exact Or.inl rfl

/-- What one event of the phases can do. -/
theorem phaseStep_cases {e : PhaseEvent}
    (h : s.phaseStep totalThreads instanceData tableData confirmValue e = some t) :
    (∃ c, s.cleaner = .running c ∧
      (t = { s with cleaner := .running c.cleanDataStart.2 } ∨
        t = { s with cleaner := .finished c.cleanDataStart.2 })) ∨
    (∃ e validators, s.validators.validate totalThreads instanceData tableData e = some validators ∧
      t = { s with validators := validators }) ∨
    (∃ c, s.cleaner = .finished c ∧
      t = { s with
        cleaner := .destroyed
        validators := { s.validators with
          disk := c.fileDataBaseAccess.closeFile s.validators.disk } }) ∨
    (∃ i range, range ∈ splitRanges tableData.metadata.rows totalThreads ∧
      t = { s with
        ce := Function.update s.ce i
          (some (.new n s.validators.disk tableData.tableID confirmValue range)) }) ∨
    ∃ i ce status ce', s.ce i = some ce ∧ ce.candidateEliminationStart = some (status, ce') ∧
      (t = { s with ce := Function.update s.ce i (some ce') } ∨
        t = { s with ce := Function.update s.ce i none }) := by
  cases e with
  | cleanDataStart => exact .inl (phaseStep_cleanDataStart h)
  | validate e => exact .inr (.inl ⟨e, phaseStep_validate h⟩)
  | deleteCleaner => exact .inr (.inr (.inl (phaseStep_deleteCleaner h)))
  | initCeAlgorithm i =>
    right
    right
    right
    left
    unfold phaseStep at h
    dsimp only at h
    split_ifs at h
    obtain ⟨range, hrange, rfl⟩ := Option.map_eq_some_iff.mp h
    exact ⟨i, range, List.mem_of_getElem? hrange, rfl⟩
  | candidateEliminationStart i =>
    exact .inr (.inr (.inr (.inr ⟨i, phaseStep_candidateEliminationStart h⟩)))

theorem ValidatorInside.step {lines : List Text} {v w : ValidateData} {status : JobStatus}
    (hv : ValidatorInside instanceData tableData lines v)
    (h : v.validateDataStart = some (status, w)) :
    ValidatorInside instanceData tableData lines w := by
  rcases ValidateData.validateDataStart_cases h with ⟨_, rfl⟩ | ⟨data, _, _, _, rfl, hlength, hrows⟩
  · exact hv
  · have hiterator := hv.iterator
    refine ⟨hv.table_eq, hv.instance_eq, ?_, hv.writable, hv.clean, hlength.trans hv.length, ?_⟩
    · dsimp only
      omega
    · intro r hr
      dsimp only at hr ⊢
      rw [hrows r (by omega)]
      exact hv.unread r (by omega)

theorem Inside.validate {e : ValidateEvent} {validators : ValidateRun}
    (hs : s.Inside instanceData tableData disk)
    (h : s.validators.validate totalThreads instanceData tableData e = some validators) :
    ({ s with validators := validators } : Phases n).Inside instanceData tableData disk := by
  rcases ValidateRun.validate_cases h with ⟨i, startIndex, endIndex, hrange, rfl⟩ |
    ⟨i, v, w, hv, hstep⟩ | ⟨i, v, hv, rfl⟩
  · refine ⟨hs.disk_eq, hs.cleaner, ValidateRun.forall_setSplit hs.validator i ?_, hs.ce⟩
    rintro v ⟨⟩
    rw [hs.disk_eq]
    exact validatorInside_new (one_le_of_mem_validateRanges (List.mem_of_getElem? hrange))
  · have hinside := hs.validator i v (by rw [hv]; rfl)
    rcases hstep with ⟨hstart, rfl⟩ | ⟨hstart, rfl⟩
    · refine ⟨hs.disk_eq, hs.cleaner, ValidateRun.forall_setSplit hs.validator i ?_, hs.ce⟩
      rintro u ⟨⟩
      exact hinside.step hstart
    · refine ⟨hs.disk_eq, hs.cleaner, ValidateRun.forall_setSplit hs.validator i ?_, hs.ce⟩
      rintro u ⟨⟩
      exact hinside.step hstart
  · have hinside := hs.validator i v (by rw [hv]; rfl)
    refine ⟨?_, hs.cleaner, ValidateRun.forall_setSplit hs.validator i nofun, hs.ce⟩
    dsimp only
    rw [closeFile_of_not_modified hinside.clean, hs.disk_eq]

theorem Inside.phaseStep (hnodup : (fileLines disk tableData.tableID).Nodup) {e : PhaseEvent}
    (hs : s.Inside instanceData tableData disk)
    (h : s.phaseStep totalThreads instanceData tableData confirmValue e = some t) :
    t.Inside instanceData tableData disk := by
  rcases phaseStep_cases h with ⟨c, hc, ht⟩ | ⟨e, validators, hvalidate, rfl⟩ | ⟨c, hc, rfl⟩ |
    ⟨i, range, hrange, rfl⟩ | ⟨i, ce, status, ce', hce, hstart, ht⟩
  · have hnext := cleaner_cleanDataStart hnodup (hs.cleaner c (Or.inl hc))
    rcases ht with rfl | rfl
    · refine ⟨hs.disk_eq, ?_, hs.validator, hs.ce⟩
      rintro d (hd | hd)
      · cases hd
        exact hnext
      · cases hd
    · refine ⟨hs.disk_eq, ?_, hs.validator, hs.ce⟩
      rintro d (hd | hd)
      · cases hd
      · cases hd
        exact hnext
  · exact hs.validate hvalidate
  · obtain ⟨hfile, _⟩ := hs.cleaner c (Or.inr hc)
    have hmodified : c.fileDataBaseAccess.dataModified = false := by
      rw [hfile]
      exact openFile_dataModified _ _
    refine ⟨?_, ?_, hs.validator, hs.ce⟩
    · dsimp only
      rw [closeFile_of_not_modified hmodified, hs.disk_eq]
    · rintro d (hd | hd) <;> cases hd
  · apply hs.updateCe i
    rintro ce ⟨⟩
    obtain ⟨hstart, hend⟩ := splitRanges_bounds hrange
    rw [hs.disk_eq]
    exact ⟨rfl, hstart, hend⟩
  · obtain ⟨hfile, hfirst, hlast⟩ := hs.ce i ce hce
    obtain ⟨hfile', hend', hstart', _⟩ :=
      CandidateElimination.candidateEliminationStart_frame hstart
    rcases ht with rfl | rfl
    · apply hs.updateCe i
      rintro d ⟨⟩
      exact ⟨hfile'.trans hfile, hfirst.trans hstart', hend'.trans_le hlast⟩
    · exact hs.updateCe i nofun

/-- While no phase changes a well shaped file, every access stays inside. -/
theorem Inside.rowsInside (hshape : WellShaped tableData (fileLines disk tableData.tableID))
    (hlength : (fileLines disk tableData.tableID).length = tableData.metadata.rows + 1)
    (hs : s.Inside instanceData tableData disk) : s.RowsInside tableData := by
  constructor
  · intro c hc
    rw [(hs.cleaner c (Or.inr hc)).1]
    simp [openFile, getTotalRows, hlength]
  · intro i v hv hlt
    have hinside := hs.validator i v (by rw [hv]; rfl)
    have hfirst := hinside.iterator
    obtain ⟨k, hk⟩ : ∃ k : ℕ, v.iterator = k := ⟨v.iterator.toNat, by omega⟩
    have hk1 : 1 ≤ k := by omega
    have hkrows : k < tableData.metadata.rows := by omega
    have hklines : k < (fileLines disk tableData.tableID).length := by omega
    rw [hs.disk_eq]
    refine ⟨by omega, ?_⟩
    have hline := hinside.unread k hk.le
    rw [List.getElem?_eq_getElem hklines] at hline
    refine ⟨_, by rw [hk]; exact getRowValueList_of_writable hinside.writable k, ?_⟩
    rw [hline]
    exact hshape.2 k hkrows hk1 _ (List.getElem?_eq_getElem hklines)
  · intro i ce hce
    obtain ⟨hfile, hstart, hend⟩ := hs.ce i ce hce
    rw [hs.disk_eq]
    constructor
    · intro r _ hr
      omega
    · exact CandidateElimination.candidateEliminationStart_isSome hfile (by omega) (by omega)

/-- The calls of the cleaner are a run of the phases. -/
theorem exec_cleaner {fuel : ℕ} {c final : DataCleaner} (hc : s.cleaner = .running c)
    (h : Loop.run (fun c : DataCleaner => some c.cleanDataStart) (· = .done) fuel c =
      some final) :
    ∃ es, exec (phaseStep totalThreads instanceData tableData confirmValue) s es =
      some { s with cleaner := .finished final } := by
  induction fuel generalizing s c with
  | zero => cases h
  | succ fuel ih =>
    by_cases hstatus : c.cleanDataStart.1 = .done
    · rw [Loop.run_of_stop (r := c.cleanDataStart.1) (t := c.cleanDataStart.2) rfl
        (decide_eq_true hstatus)] at h
      cases h
      refine ⟨[.cleanDataStart], ?_⟩
      simp [exec_cons, phaseStep, hc, hstatus]
    · rw [Loop.run_of_continue (r := c.cleanDataStart.1) (t := c.cleanDataStart.2) rfl
        (decide_eq_false hstatus)] at h
      obtain ⟨es, hes⟩ := ih (s := { s with cleaner := .running c.cleanDataStart.2 }) rfl h
      refine ⟨.cleanDataStart :: es, ?_⟩
      have hstep : phaseStep totalThreads instanceData tableData confirmValue s .cleanDataStart =
          some { s with cleaner := .running c.cleanDataStart.2 } := by
        simp [phaseStep, hc, hstatus]
      rw [exec_cons, hstep]
      exact hes

/-- The clean phase ends, and leaves each line once. -/
theorem exists_cleaned (totalThreads : ℕ) (instanceData : InstanceData) (tableData : TableData)
    (confirmValue : Text) (n : ℕ) (disk : Disk) :
    ∃ es final, exec (phaseStep totalThreads instanceData tableData confirmValue)
        (start tableData disk : Phases n) es =
          some { (start tableData disk : Phases n) with cleaner := .finished final } ∧
      final.fileDataBaseAccess.Writable ∧ final.fileDataBaseAccess.readWriteData.Nodup ∧
      final.fileDataBaseAccess.readWriteData.Sublist (fileLines disk tableData.tableID) := by
  obtain ⟨final, ⟨fuel, hrun⟩, hwritable, hnodup, hsub⟩ :=
    (DataCleaner.deduplicated_new disk tableData).runsTo
  obtain ⟨es, hes⟩ := exec_cleaner (s := (start tableData disk : Phases n)) rfl hrun
  exact ⟨es, final, hes, hwritable, hnodup, hsub⟩

theorem nodup_of_rowsInside
    (hlength : (fileLines disk tableData.tableID).length = tableData.metadata.rows + 1)
    (hsafe : ∀ es (s : Phases n), exec (phaseStep totalThreads instanceData tableData confirmValue)
      (start tableData disk) es = some s → s.RowsInside tableData) :
    (fileLines disk tableData.tableID).Nodup := by
  obtain ⟨es, final, hes, hwritable, hnodup, hsub⟩ :=
    exists_cleaned totalThreads instanceData tableData confirmValue n disk
  have hrows := (hsafe es _ hes).rows final rfl
  rw [getTotalRows, hwritable.1, hwritable.2] at hrows
  simp at hrows
  have hsame := hsub.eq_of_length (by omega)
  rw [← hsame]
  exact hnodup

/-- A step of one validator is a step of the phases. -/
theorem phaseStep_validateDataStart {i : ℕ} {v w : ValidateData}
    (hv : s.validators.split i = .running v) (h : v.validateDataStart = some (.pending, w)) :
    phaseStep totalThreads instanceData tableData confirmValue s
        (.validate (.validateDataStart i)) =
      some { s with validators := s.validators.setSplit i (.running w) } := by
  simp [phaseStep, ValidateRun.validate, hv, h]

/-- When the law holds in every run, the first validator gets to every row. -/
theorem exists_validator_at (hT : 1 ≤ totalThreads)
    (hlength : (fileLines disk tableData.tableID).length = tableData.metadata.rows + 1)
    (hcolumns : 1 ≤ tableData.metadata.columns)
    (hinstance : tableData.metadata.columns ≤ instanceData.instanceDataMatrix.length)
    (hsafe : ∀ es (s : Phases n), exec (phaseStep totalThreads instanceData tableData confirmValue)
      (start tableData disk) es = some s → s.RowsInside tableData)
    (k : ℕ) (hk : k < tableData.metadata.rows) :
    ∃ es v, ∃ s : Phases n, exec (phaseStep totalThreads instanceData tableData confirmValue)
        (start tableData disk) es = some s ∧ s.Inside instanceData tableData disk ∧
      s.validators.split 0 = .running v ∧ v.iterator = k + 1 := by
  have hnodup := nodup_of_rowsInside hlength hsafe
  have hinside : ∀ es (s : Phases n),
      exec (phaseStep totalThreads instanceData tableData confirmValue)
        (start tableData disk) es = some s → s.Inside instanceData tableData disk :=
    fun es s hes => exec_invariant (fun _ _ _ hs => hs.phaseStep hnodup) (inside_start disk) hes
  induction k with
  | zero =>
    obtain ⟨es, final, hes, _⟩ :=
      exists_cleaned totalThreads instanceData tableData confirmValue n disk
    obtain ⟨endIndex, hrange⟩ := head_validateRanges tableData.metadata.rows hT
    have hstep := exec_snoc (a := .validate (.initValidateDataPhase 0)) hes (by
      simp [phaseStep, ValidateRun.validate, start, ValidateRun.start, hrange]
      rfl)
    exact ⟨_, .new disk 1 endIndex tableData instanceData, _, hstep, hinside _ _ hstep, by simp,
      by simp [ValidateData.new]⟩
  | succ k ih =>
    obtain ⟨es, v, s, hes, hs, hv, hiterator⟩ := ih (by omega)
    have hvalidator := hs.validator 0 v (by rw [hv]; rfl)
    obtain ⟨_, feildList, hfeild, hcells⟩ := (hsafe es s hes).validator 0 v hv (by omega)
    have hat : v.iterator = (k + 1 : ℕ) := by rw [hiterator, Nat.cast_succ]
    rw [hat, getRowValueList_of_writable hvalidator.writable, Option.some.injEq] at hfeild
    rw [← hfeild, ← hvalidator.table_eq] at hcells
    rw [← hvalidator.table_eq] at hk hcolumns
    obtain ⟨w, hw, hnext⟩ := ValidateData.validateDataStart_row hat hk hvalidator.writable
      (by rw [hvalidator.length, hlength, ← hvalidator.table_eq]; omega) hcells
      (by rw [hvalidator.table_eq, hvalidator.instance_eq]; exact hinstance) hcolumns
    have hstep := exec_snoc hes (phaseStep_validateDataStart hv hw)
    refine ⟨_, w, _, hstep, hinside _ _ hstep, by simp, ?_⟩
    rw [hnext]

/-- Every access of every run stays inside the table exactly when the lines of
the text are all different and each data row but the last is wide enough. -/
theorem rowsInside_iff (confirmValue : Text) {getInstanceAliasName : Text → Text} {received : Disk}
    {packet : UserDataPacket} (hT : 1 ≤ totalThreads)
    (hreceived : UserDataParser.processDataPacket getInstanceAliasName received packet =
      some (.success, some tableData, disk))
    (hinstance : tableData.metadata.columns ≤ instanceData.instanceDataMatrix.length) :
    (∀ es (s : Phases (tableData.metadata.columns - 1)),
        exec (phaseStep totalThreads instanceData tableData confirmValue)
          (start tableData disk) es = some s → s.RowsInside tableData) ↔
      WellShaped tableData (splitStringByNewline packet.data) := by
  obtain ⟨hlines, hlength, hcolumns⟩ := UserDataParser.processDataPacket_success hreceived
  rw [← hlines] at hlength ⊢
  constructor
  · intro hsafe
    refine ⟨nodup_of_rowsInside hlength hsafe, ?_⟩
    intro r hr hr1 line hline
    obtain ⟨es, v, s, hes, hs, hv, hiterator⟩ :=
      exists_validator_at hT hlength hcolumns hinstance hsafe (r - 1) (by omega)
    have hvalidator := hs.validator 0 v (by rw [hv]; rfl)
    have hat : v.iterator = (r : ℕ) := by omega
    obtain ⟨_, feildList, hfeild, hcells⟩ := (hsafe es s hes).validator 0 v hv (by omega)
    rw [hat, getRowValueList_of_writable hvalidator.writable, hvalidator.unread r hat.le,
      Option.mem_def.mp hline, Option.some.injEq] at hfeild
    rw [← hfeild] at hcells
    exact hcells
  · intro hshape es s hes
    have hstart : (start tableData disk : Phases (tableData.metadata.columns - 1)).Inside
        instanceData tableData disk := inside_start disk
    exact (exec_invariant (fun _ _ _ hs => Inside.phaseStep hshape.1 hs) hstart hes).rowsInside
      hshape hlength

end Phases

namespace Phases

def packetOf (lines : List Text) : UserDataPacket :=
  ⟨['t'], Records.unrecords '\n' lines, ['i'], .mediumPriority⟩

/-- The validator has read row 1, and row 2 is the last one. -/
theorem rowsInside_distinctRows :
    ∃ s : Phases 0, exec (phaseStep 1 ValidateRun.instanceXY ValidateRun.tableOfTwoRows ['y'])
        (start ValidateRun.tableOfTwoRows (diskOf ['t'] [['h'], ['a'], ['b']]))
        [.cleanDataStart, .cleanDataStart, .cleanDataStart, .cleanDataStart,
          .validate (.initValidateDataPhase 0), .deleteCleaner,
          .validate (.validateDataStart 0)] = some s ∧
      s.RowsInside ValidateRun.tableOfTwoRows := by
  have hreceived : UserDataParser.processDataPacket id (fun _ => none)
      (packetOf [['h'], ['a'], ['b']]) =
        some (.success, some ValidateRun.tableOfTwoRows, diskOf ['t'] [['h'], ['a'], ['b']]) := rfl
  have hinstance : ValidateRun.tableOfTwoRows.metadata.columns ≤
      ValidateRun.instanceXY.instanceDataMatrix.length := by decide
  have hrun : (exec (phaseStep 1 ValidateRun.instanceXY ValidateRun.tableOfTwoRows ['y'])
      (start ValidateRun.tableOfTwoRows (diskOf ['t'] [['h'], ['a'], ['b']]) : Phases 0)
      [.cleanDataStart, .cleanDataStart, .cleanDataStart, .cleanDataStart,
        .validate (.initValidateDataPhase 0), .deleteCleaner,
        .validate (.validateDataStart 0)]).isSome = true := by decide
  obtain ⟨s, hs⟩ := Option.isSome_iff_exists.mp hrun
  exact ⟨s, hs, (rowsInside_iff ['y'] (le_refl 1) hreceived hinstance).mpr (by decide) _ s hs⟩

/-- The second copy of the row is erased, and the table still counts it. -/
theorem not_rowsInside_duplicateRows :
    UserDataParser.processDataPacket id (fun _ => none) (packetOf [['h'], ['a'], ['a']]) =
        some (.success, some ValidateRun.tableOfTwoRows, diskOf ['t'] [['h'], ['a'], ['a']]) ∧
      ¬ ∀ es (s : Phases 0),
        exec (phaseStep 1 ValidateRun.instanceXY ValidateRun.tableOfTwoRows ['y'])
          (start ValidateRun.tableOfTwoRows (diskOf ['t'] [['h'], ['a'], ['a']])) es = some s →
        s.RowsInside ValidateRun.tableOfTwoRows := by
  refine ⟨rfl, ?_⟩
  intro hsafe
  have hnodup := nodup_of_rowsInside (by decide) hsafe
  revert hnodup
  decide

end Phases

end WorkerUnit
