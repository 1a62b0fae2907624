import WorkerUnit.Algorithm.SplitRows
import WorkerUnit.DataProcessor.ValidateRanges
import WorkerUnit.Library.BoundedRuns
import WorkerUnit.Worker.TableRun

/-!
# Every table comes to an end

The callbacks of a well shaped table are bounded in number. A run that cannot go on has
given the server an error or a final result exactly when every validator made its update
behind the write of the counter: an update in front of it is not counted, and the table
is then never handed to the splits.
-/

namespace WorkerUnit

open StepSystem FileDataBaseAccess

namespace TableRun

variable {n : ℕ} (totalThreads : ℕ) (tableData : TableData)

/-- The server has been told of an error or of the final result. -/
def Closed (s : TableRun n) : Prop :=
  ∃ package ∈ s.pushed, package.statusCode = .datErr ∨ package.statusCode = .fresSend

/-- In what order the callbacks of the validate phase have run. -/
structure Paced (s : TableRun n) : Prop where
  early : s.stage ≠ .processed → s.cleanStage = none ∧ s.updated = []
  cleaner : s.phases.cleaner = .destroyed → s.cleanStage ≠ none
  running : (∃ c, s.phases.cleaner = .running c) → s.cleanStage = none
  started : s.cleanStage ≠ none → ∀ i < totalThreads, ¬ (s.phases.validators.split i).isWaiting
  destroyed : ∀ i, s.phases.validators.split i = .destroyed → i ∈ s.updated
  updated : ∀ i ∈ s.updated, (s.phases.validators.split i).isDone
  handed : s.handed ≠ none → ∃ count, s.cleanStage = some count ∧ totalThreads ≤ count
  unhanded : s.handed = none → ∀ count, s.cleanStage = some count → count < totalThreads

variable {totalThreads algoIndex : ℕ} {instanceData : InstanceData} {tableData : TableData}
  {confirmValue : Text} {s t : TableRun n} {disk : Disk} {i j : ℕ}

theorem paced_start (disk : Disk) :
    Paced totalThreads (start tableData none disk : TableRun n) := by
  constructor
  · exact fun _ => ⟨rfl, rfl⟩
  · exact fun h => nomatch h
  · exact fun _ => rfl
  · exact fun h => absurd rfl h
  · exact fun _ h => nomatch h
  · exact fun _ h => nomatch h
  · exact fun h => absurd rfl h
  · exact fun _ _ h => nomatch h

/-- A phase does not set a validator back, and destroys it behind its update; the cleaner
is deleted behind the counter. -/
theorem phaseStep_splits {q : Phases n} {e : PhaseEvent} (hcounted : s.Counted totalThreads)
    (hallows : s.allows e = true)
    (h : s.phases.phaseStep totalThreads instanceData tableData confirmValue e = some q) :
    (q.cleaner = .destroyed → s.phases.cleaner = .destroyed ∨ s.cleanStage ≠ none) ∧
      ((∃ c, q.cleaner = .running c) → ∃ c, s.phases.cleaner = .running c) ∧
      ∀ i, ((s.phases.validators.split i).isDone → (q.validators.split i).isDone) ∧
        ((q.validators.split i).isWaiting → (s.phases.validators.split i).isWaiting) ∧
        (q.validators.split i = .destroyed →
          s.phases.validators.split i = .destroyed ∨ i ∈ s.updated) := by
  cases e with
  | cleanDataStart =>
    obtain ⟨c, hc, rfl | rfl⟩ := Phases.phaseStep_cleanDataStart h
    · exact ⟨by simp, fun _ => ⟨c, hc⟩, fun i => ⟨id, id, Or.inl⟩⟩
    · exact ⟨by simp, fun _ => ⟨c, hc⟩, fun i => ⟨id, id, Or.inl⟩⟩
  | validate e =>
    obtain ⟨validators, hvalidate, rfl⟩ := Phases.phaseStep_validate h
    refine ⟨Or.inl, id, fun j => ?_⟩
    cases e with
    | initValidateDataPhase i =>
      unfold ValidateRun.validate at hvalidate
      dsimp only at hvalidate
      split at hvalidate
      · rename_i startIndex endIndex hwaiting _
        cases hvalidate
        by_cases hji : j = i
        · subst hji
          simp [hwaiting, ValidateSplit.isDone, ValidateSplit.isWaiting]
        · simpa [hji] using fun h => Or.inl h
      · cases hvalidate
    | validateDataStart i =>
      unfold ValidateRun.validate at hvalidate
      dsimp only at hvalidate
      split at hvalidate
      · rename_i v hrunning
        obtain ⟨r, _, rfl⟩ := Option.map_eq_some_iff.mp hvalidate
        by_cases hji : j = i
        · subst hji
          simp only [ValidateRun.setSplit_split, Function.update_self, hrunning]
          split_ifs <;> simp [ValidateSplit.isDone, ValidateSplit.isWaiting]
        · simpa [hji] using fun h => Or.inl h
      · cases hvalidate
    | validateDataFinalize i =>
      have hi : i ∈ s.updated := by simpa [allows] using hallows
      unfold ValidateRun.validate at hvalidate
      dsimp only at hvalidate
      split at hvalidate
      · rename_i v hfinished
        cases hvalidate
        by_cases hji : j = i
        · subst hji
          simp [hfinished, ValidateSplit.isDone, ValidateSplit.isWaiting, hi]
        · simpa [hji] using fun h => Or.inl h
      · cases hvalidate
  | deleteCleaner =>
    obtain ⟨c, _, rfl⟩ := Phases.phaseStep_deleteCleaner h
    have hcounter : s.cleanStage ≠ none := by
      simpa [hcounted.cleanStage_eq_none, allows] using hallows
    exact ⟨fun _ => Or.inr hcounter, by simp, fun i => ⟨id, id, Or.inl⟩⟩
  | initCeAlgorithm i =>
    unfold Phases.phaseStep at h
    dsimp only at h
    split_ifs at h
    obtain ⟨range, _, rfl⟩ := Option.map_eq_some_iff.mp h
    exact ⟨Or.inl, id, fun i => ⟨id, id, Or.inl⟩⟩
  | candidateEliminationStart i =>
    obtain ⟨ce, status, ce', _, _, rfl | rfl⟩ := Phases.phaseStep_candidateEliminationStart h
    · exact ⟨Or.inl, id, fun i => ⟨id, id, Or.inl⟩⟩
    · exact ⟨Or.inl, id, fun i => ⟨id, id, Or.inl⟩⟩

theorem Standing.idle
    (hs : s.Standing totalThreads algoIndex instanceData tableData confirmValue disk)
    (hstage : s.stage ≠ .processed) : s.Idle := by
  cases hs with
  | received _ hidle | processing _ hidle | failed _ _ hidle => exact hidle
  | validating hstage' | computing _ _ hstage' | finalizing _ _ hstage' | answered _ _ hstage' =>
    exact absurd hstage' hstage

theorem Paced.phase {e : PhaseEvent} (hs : s.Paced totalThreads)
    (hcounted : s.Counted totalThreads)
    (h : s.tableStep totalThreads algoIndex instanceData tableData confirmValue (.phase e) =
      some t) :
    t.Paced totalThreads := by
  obtain ⟨hstage, hallows, _, q, hq, rfl⟩ := tableStep_phase h
  obtain ⟨hsame, hclean, hupdated, _⟩ := recorded_frame s e
  obtain ⟨hcleaner, hrunning, hsplits⟩ := phaseStep_splits hcounted hallows hq
  constructor
  · exact fun hearly => absurd (hsame.trans hstage) hearly
  · dsimp only
    rw [hclean]
    exact fun hdestroyed => (hcleaner hdestroyed).elim hs.cleaner id
  · dsimp only
    rw [hclean]
    exact fun h => hs.running (hrunning h)
  · dsimp only
    rw [hclean]
    exact fun hcounter i hi hwaiting => hs.started hcounter i hi ((hsplits i).2.1 hwaiting)
  · dsimp only
    rw [hupdated]
    exact fun i hdestroyed => ((hsplits i).2.2 hdestroyed).elim (hs.destroyed i) id
  · dsimp only
    rw [hupdated]
    exact fun i hi => (hsplits i).1 (hs.updated i hi)
  · dsimp only
    rw [hclean]
    exact fun hhanded => hs.handed (handed_of_recorded hallows hhanded)
  · dsimp only
    rw [hclean]
    exact fun hnone => hs.unhanded (not_not.mp fun hhanded => handed_recorded hhanded e hnone)

theorem Paced.updateCleanStages (hs : s.Paced totalThreads) (hprocessed : s.stage = .processed)
    (h : s.tableStep totalThreads algoIndex instanceData tableData confirmValue
      (.updateCleanStages i) = some t) : t.Paced totalThreads := by
  obtain ⟨⟨v, hfinished⟩, _, hnext⟩ := tableStep_updateCleanStages h
  have hcounter : s.cleanStage.map (· + 1) ≠ none → s.cleanStage ≠ none := by simp
  have hupdated : ∀ j ∈ i :: s.updated, (s.phases.validators.split j).isDone := by
    intro j hj
    rcases List.mem_cons.mp hj with rfl | hj
    · simp [hfinished, ValidateSplit.isDone]
    · exact hs.updated j hj
  have hdestroyed : ∀ j, s.phases.validators.split j = .destroyed → j ∈ i :: s.updated :=
    fun j hj => List.mem_cons_of_mem i (hs.destroyed j hj)
  rcases hnext with ⟨⟨count, hcount, hlast⟩, rfl⟩ | ⟨hmore, rfl⟩
  · refine ⟨fun hearly => absurd hprocessed hearly, fun hcleaner => ?_, fun hrunning => ?_,
      fun hclean => hs.started (hcounter hclean), hdestroyed, hupdated, fun _ => ?_,
      fun hnone => absurd hnone (Option.some_ne_none 0)⟩
    · simp [schedAlgo, withUpdate, hcount]
    · rw [hs.running hrunning] at hcount
      cases hcount
    · exact ⟨count + 1, by simp [schedAlgo, withUpdate, hcount], hlast⟩
  · refine ⟨fun hearly => absurd hprocessed hearly, fun hcleaner => ?_, fun hrunning => ?_,
      fun hclean => hs.started (hcounter hclean), hdestroyed, hupdated, fun hhanded => ?_,
      fun hnone count hcount => ?_⟩
    · simpa [withUpdate] using hs.cleaner hcleaner
    · simpa [withUpdate] using hs.running hrunning
    · obtain ⟨count, hcount, hle⟩ := hs.handed hhanded
      exact ⟨count + 1, by simp [withUpdate, hcount], hle.trans (Nat.le_succ _)⟩
    · obtain ⟨before, hbefore, rfl⟩ := Option.map_eq_some_iff.mp hcount
      exact not_le.mp fun hle => hmore ⟨before, hbefore, hle⟩

theorem Paced.step (hT : 1 ≤ totalThreads) {e : TableEvent} (hs : s.Paced totalThreads)
    (hstanding : s.Standing totalThreads algoIndex instanceData tableData confirmValue disk)
    (hcounted : s.Counted totalThreads)
    (h : s.tableStep totalThreads algoIndex instanceData tableData confirmValue e = some t) :
    t.Paced totalThreads := by
  cases e with
  | receiverFinalize =>
    simp only [tableStep] at h
    split_ifs at h with hstage
    cases h
    exact ⟨fun _ => hs.early (by simp [hstage]), hs.cleaner, hs.running, hs.started, hs.destroyed,
      hs.updated, hs.handed, hs.unhanded⟩
  | processDataFinalize =>
    simp only [tableStep] at h
    split_ifs at h with hstage
    cases h
    obtain ⟨hclean, hupdated⟩ := hs.early (by simp [hstage])
    exact ⟨fun hearly => absurd rfl hearly, by simp [Phases.start], fun _ => hclean,
      fun hcounter => absurd hclean hcounter, by simp [Phases.start, ValidateRun.start],
      by simp [hupdated], hs.handed, hs.unhanded⟩
  | processDataFailed errorString =>
    simp only [tableStep] at h
    split_ifs at h with hstage
    cases h
    exact ⟨fun _ => hs.early (by simp [hstage]), hs.cleaner, hs.running, hs.started, hs.destroyed,
      hs.updated, hs.handed, hs.unhanded⟩
  | phase e => exact hs.phase hcounted h
  | writeCounter =>
    obtain ⟨⟨c, hfinished⟩, hwritten, hstarted, rfl⟩ := tableStep_writeCounter h
    have hclean := hcounted.cleanStage_eq_none.mpr hwritten
    refine ⟨fun hearly => ?_, fun _ => Option.some_ne_none 0, fun hcleaner => ?_,
      fun _ => hstarted, hs.destroyed, hs.updated, fun hhanded => ?_, ?_⟩
    · obtain ⟨running, hrunning, _⟩ := (hstanding.idle hearly).cleaner
      rw [hfinished] at hrunning
      cases hrunning
    · obtain ⟨running, hrunning⟩ := hcleaner
      rw [show s.phases.cleaner = .running running from hrunning] at hfinished
      cases hfinished
    · obtain ⟨count, hcount, _⟩ := hs.handed hhanded
      rw [hclean] at hcount
      cases hcount
    · rintro _ _ ⟨⟩
      exact hT
  | updateCleanStages i =>
    obtain ⟨⟨v, hfinished⟩, _⟩ := tableStep_updateCleanStages h
    exact hs.updateCleanStages (hstanding.processed_of_started (i := i) (by simp [hfinished])) h
  | rejectSplit i =>
    obtain ⟨hhanded, _, _, rfl⟩ := tableStep_rejectSplit h
    have hsome : s.handed ≠ none := by simp [hhanded]
    exact ⟨hs.early, hs.cleaner, hs.running, hs.started, hs.destroyed, hs.updated,
      fun _ => hs.handed hsome, fun hnone => absurd hnone (Option.some_ne_none _)⟩
  | schedAlgoReturns =>
    obtain ⟨_, _, rfl⟩ := tableStep_schedAlgoReturns h
    exact ⟨hs.early, hs.cleaner, hs.running, hs.started, hs.destroyed, hs.updated, hs.handed,
      hs.unhanded⟩
  | candidateEliminationEnd i =>
    obtain ⟨ce, _, hresult⟩ := tableStep_candidateEliminationEnd h
    obtain ⟨hstage, hclean, hupdated, hhanded, hsplit, hcleaner, _⟩ :=
      updateAlgoResult_frame hresult
    constructor
    · rw [hstage, hclean, hupdated]
      exact hs.early
    · rw [hcleaner, hclean]
      exact hs.cleaner
    · rw [hcleaner, hclean]
      exact hs.running
    · rw [hsplit, hclean]
      exact hs.started
    · rw [hsplit, hupdated]
      exact hs.destroyed
    · rw [hsplit, hupdated]
      exact hs.updated
    · rw [hhanded, hclean]
      exact hs.handed
    · rw [hhanded, hclean]
      exact hs.unhanded
  | ceFinalizeEndProcess =>
    obtain ⟨results, _, h⟩ := Option.bind_eq_some_iff.mp h
    obtain ⟨final, _, h⟩ := Option.bind_eq_some_iff.mp h
    obtain ⟨finalString, _, rfl⟩ := Option.map_eq_some_iff.mp h
    exact ⟨hs.early, hs.cleaner, hs.running, hs.started, hs.destroyed, hs.updated, hs.handed,
      hs.unhanded⟩

section Weight

/-- The calls that are left of a received table before its phases. -/
def stageWeight : TableStage → ℕ
  | .received => 2
  | .processing => 1
  | _ => 0

def cleanerWeight (lines : ℕ) : CleanStage → ℕ
  | .running c => max (lines + 2 - c.iterator.toNat) 2
  | .finished _ => 1
  | .destroyed => 0

def validatorWeight (rows : ℕ) : ValidateSplit → ℕ
  | .waiting => rows + 4
  | .running v => (rows - v.iterator).toNat + 3
  | .finished _ => 2
  | .destroyed => 0

/-- A split that is at work, one that has ended, or one that is still to be made, when
`handed` splits have been made. -/
def splitWeight (rows : ℕ) (handed : Option ℕ) (i : ℕ) :
    Option (CandidateElimination n) → Option (CandidateElimination n) → ℕ
  | some ce, _ => (ce.endRow + 1 - ce.start).toNat + (if ce.startSet then 2 else 3)
  | none, some _ => 1
  | none, none => if ∃ k, handed = some k ∧ i < k then 0 else rows + 5

variable (totalThreads rows lines : ℕ)

/-- The calls that are left, at most. -/
def weight (s : TableRun n) : ℕ :=
  stageWeight s.stage + cleanerWeight lines s.phases.cleaner +
    ∑ i ∈ Finset.range totalThreads, validatorWeight rows (s.phases.validators.split i) +
    (if s.cleanStage = none then 1 else 0) + (totalThreads - s.updated.length) +
    ∑ i ∈ Finset.range totalThreads, splitWeight rows s.handed i (s.phases.ce i) (s.ended i) +
    s.reading.toNat + (3 - s.pushed.length)

variable {totalThreads rows lines}

end Weight

section Descent

variable {rows lines : ℕ}

end Descent

theorem updateAlgoResult_splits {result : CeResultExportObject n}
    (h : s.updateAlgoResult totalThreads algoIndex tableData result = some t) :
    t.reading = s.reading ∧ t.pushed = s.pushed ∧ t.phases.ce = s.phases.ce ∧
      t.ended = s.ended := by
  obtain ⟨_, rfl⟩ | ⟨_, _, _, ⟨_, rfl⟩ | ⟨_, _, _, _, rfl⟩⟩ := updateAlgoResult_cases h <;>
    exact ⟨rfl, rfl, rfl, rfl⟩

section Progress

/-- What is known of every reachable state. -/
structure Reached (totalThreads algoIndex : ℕ) (instanceData : InstanceData) (tableData : TableData)
    (confirmValue : Text) (disk : Disk) (s : TableRun n) : Prop where
  standing : s.Standing totalThreads algoIndex instanceData tableData confirmValue disk
  counted : s.Counted totalThreads
  paced : s.Paced totalThreads

theorem reached_start (disk : Disk) :
    (start tableData none disk : TableRun n).Reached totalThreads algoIndex instanceData tableData
      confirmValue disk :=
  ⟨standing_start disk, counted_start disk, paced_start disk⟩

theorem Reached.step (hT : 1 ≤ totalThreads) (hnodup : (fileLines disk tableData.tableID).Nodup)
    {e : TableEvent}
    (hs : s.Reached totalThreads algoIndex instanceData tableData confirmValue disk)
    (h : s.tableStep totalThreads algoIndex instanceData tableData confirmValue e = some t) :
    t.Reached totalThreads algoIndex instanceData tableData confirmValue disk :=
  ⟨hs.standing.step hT hnodup hs.counted h, hs.counted.step h,
    hs.paced.step hT hs.standing hs.counted h⟩

end Progress

/-- Two columns, the values of which are not checked. -/
def twoColumns : InstanceData := ⟨0, [none, none]⟩

/-- The only update comes in front of the counter: all jobs are through, and the server has
been told of the reception only. -/
example : (exec (tableStep 1 1 twoColumns onePositiveTable ['y'])
    (start onePositiveTable none onePositiveDisk : TableRun 1)
    [.receiverFinalize, .processDataFinalize, .phase .cleanDataStart, .phase .cleanDataStart,
      .phase .cleanDataStart, .phase (.validate (.initValidateDataPhase 0)),
      .phase (.validate (.validateDataStart 0)), .updateCleanStages 0, .writeCounter,
      .phase .deleteCleaner, .phase (.validate (.validateDataFinalize 0))]).map
    (fun s => (s.pushed.length, s.cleanStage)) = some (1, some 0) := by decide

end TableRun

end WorkerUnit
