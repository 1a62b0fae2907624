import WorkerUnit.Library.StepSystem

/-!
# The barrier behind the validate phase

`data_processor/data_tracker.cpp`. A `TableData` pointer is a number, and the
global `cleanStageMap` maps pointers to counters. The thread that schedules the
validators writes the counter of the table after the last of them, and each
validator updates the counter when it is done. A run may interleave the calls
for any number of tables.
-/

namespace WorkerUnit

open StepSystem

abbrev CleanStageMap := ℕ → Option ℕ

/-- How a call of `update_clean_stages` ends: it finds no counter and returns
-1, it counts, or it counts and calls `sched_algo`. -/
inductive StageUpdate where
  | notFound
  | counted
  | scheduled
  deriving DecidableEq, Repr

def updateCleanStages (totalThreads : ℕ) (cleanStageMap : CleanStageMap) (tableData : ℕ) :
    StageUpdate × CleanStageMap :=
  match cleanStageMap tableData with
  | some count =>
    let cleanStageMap := Function.update cleanStageMap tableData (some (count + 1))
    if count + 1 ≥ totalThreads then (.scheduled, cleanStageMap) else (.counted, cleanStageMap)
  | none => (.notFound, cleanStageMap)

/-- The validate phase of one table: the validators scheduled so far, whether
the counter has been written, and how the calls before and after it ended. -/
structure ValidatePhase where
  validators : ℕ
  written : Bool
  early : List StageUpdate
  late : List StageUpdate
  deriving DecidableEq, Repr

namespace ValidatePhase

def updates (p : ValidatePhase) : List StageUpdate := p.early ++ p.late

def record (p : ValidatePhase) (result : StageUpdate) : ValidatePhase :=
  if p.written then { p with late := p.late ++ [result] }
  else { p with early := p.early ++ [result] }

end ValidatePhase

structure Tracker where
  cleanStageMap : CleanStageMap
  phase : ℕ → ValidatePhase

inductive TrackerEvent where
  | initValidateDataPhase (tableData : ℕ)
  | writeCounter (tableData : ℕ)
  | updateCleanStages (tableData : ℕ)
  deriving DecidableEq, Repr

namespace Tracker

def start (cleanStageMap : CleanStageMap) : Tracker := ⟨cleanStageMap, fun _ => ⟨0, false, [], []⟩⟩

/-- The calls of `schedule_validate_phase` in their order, and one call of each
validator at any time after it has been scheduled. -/
def track (totalThreads : ℕ) (s : Tracker) : TrackerEvent → Option Tracker
  | .initValidateDataPhase tableData =>
    let p := s.phase tableData
    if p.validators < totalThreads then
      some { s with
        phase := Function.update s.phase tableData { p with validators := p.validators + 1 } }
    else none
  | .writeCounter tableData =>
    let p := s.phase tableData
    if p.validators = totalThreads ∧ p.written = false then
      some ⟨Function.update s.cleanStageMap tableData (some 0),
        Function.update s.phase tableData { p with written := true }⟩
    else none
  | .updateCleanStages tableData =>
    let p := s.phase tableData
    if p.updates.length < p.validators then
      let r := WorkerUnit.updateCleanStages totalThreads s.cleanStageMap tableData
      some ⟨r.2, Function.update s.phase tableData (p.record r.1)⟩
    else none

/-- The counter is written and every validator has made its call. -/
def Completed (totalThreads : ℕ) (s : Tracker) (tableData : ℕ) : Prop :=
  (s.phase tableData).written = true ∧ (s.phase tableData).updates.length = totalThreads

/-- Every call but the last counts, and the last calls `sched_algo`. -/
def FiresOnce (totalThreads : ℕ) (s : Tracker) (tableData : ℕ) : Prop :=
  (s.phase tableData).updates = List.replicate (totalThreads - 1) .counted ++ [.scheduled]

/-- The call comes from a validator of a table whose counter has been written. -/
def UpdatesAfterWrite (tableData : ℕ) (s : Tracker) (e : TrackerEvent) : Prop :=
  e = .updateCleanStages tableData → (s.phase tableData).written = true

def UpdatesBeforeWrite (tableData : ℕ) (s : Tracker) (e : TrackerEvent) : Prop :=
  e = .updateCleanStages tableData → (s.phase tableData).written = false

/-- How the call ends that follows `i` others, when the counter was `entry` before them. -/
def updateFrom (totalThreads : ℕ) (entry : Option ℕ) (i : ℕ) : StageUpdate :=
  match entry with
  | some count => if count + i + 1 ≥ totalThreads then .scheduled else .counted
  | none => .notFound

def updatesFrom (totalThreads : ℕ) (entry : Option ℕ) (n : ℕ) : List StageUpdate :=
  (List.range n).map (updateFrom totalThreads entry)

/-- What a run keeps true of the phase of one table. -/
structure Counted (totalThreads : ℕ) (cleanStageMap : CleanStageMap) (tableData : ℕ)
    (s : Tracker) : Prop where
  early : (s.phase tableData).early =
    updatesFrom totalThreads (cleanStageMap tableData) (s.phase tableData).early.length
  late : (s.phase tableData).late =
    updatesFrom totalThreads (some 0) (s.phase tableData).late.length
  unwritten : (s.phase tableData).written = false → (s.phase tableData).late = [] ∧
    s.cleanStageMap tableData =
      (cleanStageMap tableData).map (· + (s.phase tableData).early.length)
  written : (s.phase tableData).written = true →
    s.cleanStageMap tableData = some (s.phase tableData).late.length

variable {totalThreads : ℕ} {cleanStageMap : CleanStageMap} {tableData : ℕ} {s t : Tracker}

theorem counted_start : Counted totalThreads cleanStageMap tableData (start cleanStageMap) := by
  constructor <;> simp [start, updatesFrom]

theorem updatesFrom_succ (entry : Option ℕ) (n : ℕ) :
    updatesFrom totalThreads entry n ++ [updateFrom totalThreads entry n] =
      updatesFrom totalThreads entry (n + 1) := by
  simp [updatesFrom, List.range_succ]

/-- The call that follows `n` others. -/
theorem updateCleanStages_eq (totalThreads : ℕ) {entry : Option ℕ} {n : ℕ}
    (h : cleanStageMap tableData = entry.map (· + n)) :
    (updateCleanStages totalThreads cleanStageMap tableData).1 = updateFrom totalThreads entry n ∧
      (updateCleanStages totalThreads cleanStageMap tableData).2 tableData =
        entry.map (· + (n + 1)) := by
  cases entry with
  | none => simp_all [updateCleanStages, updateFrom]
  | some count =>
    simp only [Option.map_some] at h
    simp only [updateCleanStages, updateFrom, h, Option.map_some]
    split_ifs <;> simp [Nat.add_assoc]

theorem updateCleanStages_of_ne {other : ℕ} (hne : tableData ≠ other) :
    (updateCleanStages totalThreads cleanStageMap other).2 tableData = cleanStageMap tableData := by
  unfold updateCleanStages
  split
  · split_ifs <;> simp [hne]
  · rfl

/-- What a step does to one table: it leaves its counter and its calls alone, it
writes the counter, or it is a call of one of its validators. -/
theorem track_cases {e : TrackerEvent} (ht : track totalThreads s e = some t) (tableData : ℕ) :
    (e ≠ .updateCleanStages tableData ∧ t.cleanStageMap tableData = s.cleanStageMap tableData ∧
      ∃ validators, t.phase tableData = { s.phase tableData with validators := validators }) ∨
    (e ≠ .updateCleanStages tableData ∧ (s.phase tableData).written = false ∧
      t.cleanStageMap tableData = some 0 ∧
      t.phase tableData = { s.phase tableData with written := true }) ∨
    (e = .updateCleanStages tableData ∧
      t.cleanStageMap = (updateCleanStages totalThreads s.cleanStageMap tableData).2 ∧
      t.phase tableData = (s.phase tableData).record
        (updateCleanStages totalThreads s.cleanStageMap tableData).1) := by
  cases e with
  | initValidateDataPhase other =>
    left
    simp only [track] at ht
    split_ifs at ht
    cases ht
    by_cases hother : tableData = other
    · subst hother
      exact ⟨by simp, rfl, _, Function.update_self ..⟩
    · exact ⟨by simp, rfl, _, Function.update_of_ne hother ..⟩
  | writeCounter other =>
    simp only [track] at ht
    split_ifs at ht with hw
    cases ht
    by_cases hother : tableData = other
    · subst hother
      right; left
      exact ⟨by simp, hw.2, Function.update_self .., Function.update_self ..⟩
    · left
      exact ⟨by simp, Function.update_of_ne hother .., _, Function.update_of_ne hother ..⟩
  | updateCleanStages other =>
    simp only [track] at ht
    split_ifs at ht
    cases ht
    by_cases hother : tableData = other
    · subst hother
      right; right
      exact ⟨rfl, rfl, Function.update_self ..⟩
    · left
      exact ⟨by simpa using Ne.symm hother, updateCleanStages_of_ne hother, _,
        Function.update_of_ne hother ..⟩

theorem Counted.step (h : Counted totalThreads cleanStageMap tableData s) {e : TrackerEvent}
    (ht : track totalThreads s e = some t) : Counted totalThreads cleanStageMap tableData t := by
  rcases track_cases ht tableData with ⟨_, hmap, v, hp⟩ | ⟨_, hw, hmap, hp⟩ | ⟨_, hmap, hp⟩
  · constructor <;> simp only [hp, hmap]
    · exact h.early
    · exact h.late
    · exact h.unwritten
    · exact h.written
  · constructor <;> simp only [hp, hmap]
    · exact h.early
    · exact h.late
    · simp
    · simp [(h.unwritten hw).1]
  · cases hw : (s.phase tableData).written with
    | false =>
      obtain ⟨hlate, hentry⟩ := h.unwritten hw
      obtain ⟨hresult, hnext⟩ := updateCleanStages_eq totalThreads hentry
      simp only [ValidatePhase.record, hw, Bool.false_eq_true, ↓reduceIte, hresult] at hp
      constructor <;> simp only [hp, hmap]
      · rw [List.length_append, List.length_singleton, ← updatesFrom_succ, ← h.early]
      · exact h.late
      · intro _
        exact ⟨hlate, by simpa using hnext⟩
      · simp
    | true =>
      have hentry : s.cleanStageMap tableData =
          (some 0).map (· + (s.phase tableData).late.length) := by
        simpa using h.written hw
      obtain ⟨hresult, hnext⟩ := updateCleanStages_eq totalThreads hentry
      simp only [ValidatePhase.record, hw, ↓reduceIte, hresult] at hp
      constructor <;> simp only [hp, hmap]
      · exact h.early
      · rw [List.length_append, List.length_singleton, ← updatesFrom_succ, ← h.late]
      · simp
      · intro _
        simpa using hnext

theorem early_eq_nil_iff {e : TrackerEvent} (ht : track totalThreads s e = some t) :
    (t.phase tableData).early = [] ↔
      (s.phase tableData).early = [] ∧ UpdatesAfterWrite tableData s e := by
  rcases track_cases ht tableData with ⟨he, _, v, hp⟩ | ⟨he, _, _, hp⟩ | ⟨he, _, hp⟩
  · simp [hp, UpdatesAfterWrite, he]
  · simp [hp, UpdatesAfterWrite, he]
  · rw [hp]
    cases hw : (s.phase tableData).written <;>
      simp [ValidatePhase.record, UpdatesAfterWrite, he, hw]

theorem late_eq_nil_iff {e : TrackerEvent} (ht : track totalThreads s e = some t) :
    (t.phase tableData).late = [] ↔
      (s.phase tableData).late = [] ∧ UpdatesBeforeWrite tableData s e := by
  rcases track_cases ht tableData with ⟨he, _, v, hp⟩ | ⟨he, _, _, hp⟩ | ⟨he, _, hp⟩
  · simp [hp, UpdatesBeforeWrite, he]
  · simp [hp, UpdatesBeforeWrite, he]
  · rw [hp]
    cases hw : (s.phase tableData).written <;>
      simp [ValidatePhase.record, UpdatesBeforeWrite, he, hw]

theorem updatesFrom_eq_replicate_iff (entry : Option ℕ) (n : ℕ) :
    updatesFrom totalThreads entry n = List.replicate n .counted ↔
      ∀ i < n, updateFrom totalThreads entry i = .counted := by
  simp [updatesFrom, List.eq_replicate_iff]

/-- All calls of a table fire the barrier once, at the last of them, exactly when
the counter started at zero or there is one call and a counter. -/
theorem updatesFrom_eq_iff (hT : 1 ≤ totalThreads) (entry : Option ℕ) :
    updatesFrom totalThreads entry totalThreads =
        List.replicate (totalThreads - 1) .counted ++ [.scheduled] ↔
      ∃ count, entry = some count ∧ (count = 0 ∨ totalThreads = 1) := by
  obtain ⟨n, rfl⟩ : ∃ n, totalThreads = n + 1 := ⟨totalThreads - 1, by omega⟩
  have hsplit : updatesFrom (n + 1) entry (n + 1) = List.replicate n .counted ++ [.scheduled] ↔
      (∀ i < n, updateFrom (n + 1) entry i = .counted) ∧
        updateFrom (n + 1) entry n = .scheduled := by
    rw [← updatesFrom_succ, ← updatesFrom_eq_replicate_iff]
    constructor
    · intro h
      obtain ⟨hinit, hlast⟩ := List.append_inj' h rfl
      exact ⟨hinit, List.singleton_inj.mp hlast⟩
    · rintro ⟨hinit, hlast⟩
      rw [hinit, hlast]
  rw [Nat.add_sub_cancel, hsplit]
  cases entry with
  | none => simp [updateFrom]
  | some count =>
    simp only [updateFrom, ge_iff_le, ite_eq_right_iff, reduceCtorEq, imp_false, not_le,
      ite_eq_left_iff, not_lt, Option.some.injEq, exists_eq_left']
    constructor
    · rintro ⟨hinit, _⟩
      by_contra hne
      have := hinit (n - 1) (by omega)
      omega
    · intro h
      refine ⟨fun i hi => by omega, by omega⟩

theorem early_eq_nil_iff_guarded {events : List TrackerEvent}
    (h : exec (track totalThreads) (start cleanStageMap) events = some s) :
    (s.phase tableData).early = [] ↔
      Guarded (track totalThreads) (UpdatesAfterWrite tableData) (start cleanStageMap) events := by
  have hiff := guarded_iff (P := fun _ => True) (C := fun s => (s.phase tableData).early = [])
    (fun _ _ _ _ ht => ⟨trivial, early_eq_nil_iff ht⟩) trivial h
  exact hiff.trans (and_iff_right rfl)

theorem late_eq_nil_iff_guarded {events : List TrackerEvent}
    (h : exec (track totalThreads) (start cleanStageMap) events = some s) :
    (s.phase tableData).late = [] ↔
      Guarded (track totalThreads) (UpdatesBeforeWrite tableData) (start cleanStageMap) events := by
  have hiff := guarded_iff (P := fun _ => True) (C := fun s => (s.phase tableData).late = [])
    (fun _ _ _ _ ht => ⟨trivial, late_eq_nil_iff ht⟩) trivial h
  exact hiff.trans (and_iff_right rfl)

/-- With calls on both sides of the write the last call does not fire. -/
theorem Counted.not_firesOnce (h : Counted totalThreads cleanStageMap tableData s)
    (hc : s.Completed totalThreads tableData) (hearly : (s.phase tableData).early ≠ [])
    (hlate : (s.phase tableData).late ≠ []) : ¬ s.FiresOnce totalThreads tableData := by
  obtain ⟨m, hm⟩ : ∃ m, (s.phase tableData).late.length = m + 1 :=
    Nat.exists_eq_succ_of_ne_zero (by simpa using hlate)
  have hlt : m + 1 < totalThreads := by
    have hlength := hc.2
    have hpos := List.length_pos_iff.mpr hearly
    rw [ValidatePhase.updates, List.length_append] at hlength
    omega
  have hlast : updateFrom totalThreads (some 0) m = .counted := by
    simp [updateFrom]
    omega
  intro hfires
  rw [FiresOnce, ValidatePhase.updates, h.late, hm, ← updatesFrom_succ, ← List.append_assoc,
    hlast] at hfires
  have := (List.append_inj' hfires rfl).2
  simp at this

/-- In every run that completes the validate phase of a table the barrier fires
exactly once, at the last call, if and only if no validator calls before the
counter is written, or all do and meet a counter left under the same pointer
that is zero or that a single call only has to find. -/
theorem firesOnce_iff (hT : 1 ≤ totalThreads) (events : List TrackerEvent)
    (h : exec (track totalThreads) (start cleanStageMap) events = some s)
    (hc : s.Completed totalThreads tableData) :
    s.FiresOnce totalThreads tableData ↔
      Guarded (track totalThreads) (UpdatesAfterWrite tableData) (start cleanStageMap) events ∨
      Guarded (track totalThreads) (UpdatesBeforeWrite tableData) (start cleanStageMap) events ∧
        ∃ count, cleanStageMap tableData = some count ∧ (count = 0 ∨ totalThreads = 1) := by
  have hcounted : Counted totalThreads cleanStageMap tableData s :=
    exec_invariant (fun _ _ _ hs ht => hs.step ht) counted_start h
  rw [← early_eq_nil_iff_guarded h, ← late_eq_nil_iff_guarded h]
  have hlength := hc.2
  simp only [ValidatePhase.updates, List.length_append] at hlength
  by_cases he : (s.phase tableData).early = []
  · have hall : (s.phase tableData).late.length = totalThreads := by simpa [he] using hlength
    rw [FiresOnce, ValidatePhase.updates, hcounted.late, hall, he, List.nil_append,
      updatesFrom_eq_iff hT]
    simp
  · by_cases hl : (s.phase tableData).late = []
    · have hall : (s.phase tableData).early.length = totalThreads := by simpa [hl] using hlength
      rw [FiresOnce, ValidatePhase.updates, hcounted.early, hall, hl, List.append_nil,
        updatesFrom_eq_iff hT]
      have hne : updatesFrom totalThreads (cleanStageMap tableData) totalThreads ≠ [] := by
        simpa [updatesFrom] using Nat.ne_of_gt hT
      simp [hne]
    · simpa [he, hl] using hcounted.not_firesOnce hc he hl

/-- Two validators that finish after the counter is written. -/
def counterFirst : List TrackerEvent :=
  [.initValidateDataPhase 0, .initValidateDataPhase 0, .writeCounter 0, .updateCleanStages 0,
    .updateCleanStages 0]

theorem firesOnce_counterFirst :
    ∃ s, exec (track 2) (start fun _ => none) counterFirst = some s ∧ s.FiresOnce 2 0 := by
  have hphase : ((exec (track 2) (start fun _ => none) counterFirst).map fun s => s.phase 0) =
      some ⟨2, true, [], [.counted, .scheduled]⟩ := by decide
  obtain ⟨s, hs, hp⟩ := Option.map_eq_some_iff.mp hphase
  refine ⟨s, hs, (firesOnce_iff (by decide) counterFirst hs ?_).mpr (.inl ?_)⟩
  · rw [Completed, hp]
    decide
  · exact (early_eq_nil_iff_guarded hs).mp (by rw [hp])

/-- The first of two validators finishes before the second is scheduled. -/
theorem not_firesOnce_early_validator :
    ¬ ∀ totalThreads, 1 ≤ totalThreads → ∀ events s tableData,
      exec (track totalThreads) (start fun _ => none) events = some s →
      s.Completed totalThreads tableData → s.FiresOnce totalThreads tableData := by
  intro h
  have hphase : ((exec (track 2) (start fun _ => none) [.initValidateDataPhase 0,
      .updateCleanStages 0, .initValidateDataPhase 0, .writeCounter 0,
      .updateCleanStages 0]).map fun s => s.phase 0) =
      some ⟨2, true, [.notFound], [.counted]⟩ := by decide
  obtain ⟨s, hs, hp⟩ := Option.map_eq_some_iff.mp hphase
  have hfires := h 2 (by decide) _ s 0 hs (by rw [Completed, hp]; decide)
  rw [FiresOnce, hp] at hfires
  exact absurd hfires (by decide)

end Tracker

end WorkerUnit
