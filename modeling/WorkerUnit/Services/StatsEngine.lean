import WorkerUnit.Algorithm.SplitRows
import WorkerUnit.Library.StepSystem
import WorkerUnit.Services.FileDataBaseAccess

/-!
# The queue times of the tasks

`services/stats_engine.cpp`. A task's start is put at the back of `timeBefore`, and
its end is compared with the front. The front is removed under the test that the list
is empty, so it stays, and every end is compared with the first start.
-/

namespace WorkerUnit

open StepSystem

/-- What the timers read and write; the list holds nanoseconds since the epoch, the
vector milliseconds, and `δ` is the type `double`. -/
structure StatisticsEngine (δ : Type*) where
  statisticsArraySize : ℤ
  averageQueueTime : δ
  queueTimeVector : List ℤ
  timeBefore : List ℤ
  timeAfter : ℤ
  deriving DecidableEq, Repr

/-- The count of the `duration_cast`, as an `int`. -/
def milliseconds (nanoseconds : ℤ) : ℤ := wrapInt (nanoseconds.tdiv 1000000)

namespace StatisticsEngine

variable {δ : Type*}

/-- The constructor. -/
def new [Zero δ] (statisticsArraySize : ℤ) : StatisticsEngine δ :=
  ⟨statisticsArraySize, 0, [], [], 0⟩

variable (average : List ℤ → δ) (truncate : δ → ℤ)

/-- The sum and the quotient are those of `double`s, and the average is truncated when
it is put back. -/
def calculateAvgTimerVector (engine : StatisticsEngine δ) : StatisticsEngine δ :=
  if engine.queueTimeVector.length = 0 then engine
  else
    let finalAverage := average engine.queueTimeVector
    { engine with queueTimeVector := [truncate finalAverage], averageQueueTime := finalAverage }

def updateTimerBefore (engine : StatisticsEngine δ) (now : ℤ) : StatisticsEngine δ :=
  { engine with timeBefore := engine.timeBefore ++ [now] }

/-- `pop_front`, which is undefined on an empty list. -/
def popFront : List ℤ → Option (List ℤ)
  | [] => none
  | _ :: rest => some rest

/-- The time that is recorded, and the engine after it; `front` of an empty list is
undefined. -/
def updateTimerAfter (engine : StatisticsEngine δ) (now : ℤ) :
    Option (ℤ × StatisticsEngine δ) :=
  engine.timeBefore.head?.bind fun front =>
    let recorded := milliseconds (now - front)
    let engine := { engine with
      timeAfter := now, queueTimeVector := engine.queueTimeVector ++ [recorded] }
    -- the test is the wrong way round
    let popped := if engine.timeBefore.length = 0 then popFront engine.timeBefore
      else some engine.timeBefore
    popped.map fun timeBefore =>
      let engine := { engine with timeBefore := timeBefore }
      (recorded, if engine.queueTimeVector.length ≥ toSizeT engine.statisticsArraySize then
        engine.calculateAvgTimerVector average truncate else engine)

theorem timeBefore_calculateAvgTimerVector (engine : StatisticsEngine δ) :
    (engine.calculateAvgTimerVector average truncate).timeBefore = engine.timeBefore := by
  unfold calculateAvgTimerVector
  split_ifs <;> rfl

/-- An end reads the front of the list and leaves it there. -/
theorem updateTimerAfter_cons {engine : StatisticsEngine δ} {front : ℤ} {rest : List ℤ}
    (h : engine.timeBefore = front :: rest) (now : ℤ) :
    ∃ next, engine.updateTimerAfter average truncate now =
      some (milliseconds (now - front), next) ∧ next.timeBefore = front :: rest := by
  simp only [updateTimerAfter, h, List.head?_cons, Option.bind_some, List.length_cons,
    Nat.add_one_ne_zero, if_false, Option.map_some]
  refine ⟨_, rfl, ?_⟩
  split_ifs
  · exact timeBefore_calculateAvgTimerVector average truncate _
  · rfl

end StatisticsEngine

/-- One call, at the time of the clock. -/
inductive TimerCall where
  | updateTimerBefore (now : ℤ)
  | updateTimerAfter (now : ℤ)
  deriving DecidableEq, Repr

def TimerCall.isBefore : TimerCall → Bool
  | updateTimerBefore _ => true
  | updateTimerAfter _ => false

/-- An engine with the times of the calls so far and everything that was recorded. -/
structure TimerRun (δ : Type*) where
  engine : StatisticsEngine δ
  started : List ℤ
  ended : List ℤ
  recorded : List ℤ

namespace TimerRun

variable {δ : Type*}

def start [Zero δ] (statisticsArraySize : ℤ) : TimerRun δ :=
  ⟨.new statisticsArraySize, [], [], []⟩

def call (average : List ℤ → δ) (truncate : δ → ℤ) (s : TimerRun δ) :
    TimerCall → Option (TimerRun δ)
  | .updateTimerBefore now => some { s with
      engine := s.engine.updateTimerBefore now, started := s.started ++ [now] }
  | .updateTimerAfter now => (s.engine.updateTimerAfter average truncate now).map fun r =>
      { s with engine := r.2, ended := s.ended ++ [now], recorded := s.recorded ++ [r.1] }

/-- The `k`-th end is recorded with the `k`-th start, and the list holds the starts
that have no end yet. -/
structure MatchLaw (s : TimerRun δ) : Prop where
  recorded : s.recorded =
    List.zipWith (fun ended started => milliseconds (ended - started)) s.ended s.started
  unmatched : s.engine.timeBefore = s.started.drop s.ended.length

/-- What every run keeps: no start is removed, and each end is recorded with the first
of them. -/
structure FirstStart (s : TimerRun δ) : Prop where
  kept : s.engine.timeBefore = s.started
  recorded : s.recorded =
    s.ended.map fun ended => milliseconds (ended - s.started.headD 0)
  first : s.started = [] → s.ended = []

variable {average : List ℤ → δ} {truncate : δ → ℤ} {s t : TimerRun δ} {now : ℤ}

theorem firstStart_start [Zero δ] (statisticsArraySize : ℤ) :
    (start statisticsArraySize : TimerRun δ).FirstStart := ⟨rfl, rfl, fun _ => rfl⟩

/-- The first start is the same after a start that is not the first one. -/
theorem headD_append {started : List ℤ} (h : started ≠ []) (now : ℤ) :
    (started ++ [now]).headD 0 = started.headD 0 := by
  obtain ⟨first, rest, rfl⟩ := List.exists_cons_of_ne_nil h
  rfl

/-- A start keeps what every run keeps. -/
theorem FirstStart.updateTimerBefore (h : s.FirstStart)
    (ht : s.call average truncate (.updateTimerBefore now) = some t) :
    t.FirstStart ∧ t.started = s.started ++ [now] ∧ t.ended = s.ended := by
  cases ht
  refine ⟨⟨?_, ?_, ?_⟩, rfl, rfl⟩
  · rw [StatisticsEngine.updateTimerBefore, h.kept]
  · by_cases hstarted : s.started = []
    · rw [h.recorded, h.first hstarted, List.map_nil, List.map_nil]
    · rw [h.recorded, headD_append hstarted]
  · intro hnil
    simp at hnil

variable (average truncate) in
/-- An end finds a start when there has been one. -/
theorem FirstStart.exists_updateTimerAfter (h : s.FirstStart) (hstarted : s.started ≠ [])
    (now : ℤ) : ∃ t, s.call average truncate (.updateTimerAfter now) = some t := by
  obtain ⟨first, rest, heq⟩ := List.exists_cons_of_ne_nil hstarted
  obtain ⟨next, hnext, _⟩ := StatisticsEngine.updateTimerAfter_cons average truncate
    (h.kept.trans heq) now
  exact ⟨_, by rw [call, hnext, Option.map_some]⟩

/-- An end keeps what every run keeps. -/
theorem FirstStart.updateTimerAfter (h : s.FirstStart)
    (ht : s.call average truncate (.updateTimerAfter now) = some t) :
    t.FirstStart ∧ t.started = s.started ∧ t.ended = s.ended ++ [now] ∧ s.started ≠ [] := by
  cases hstarted : s.started with
  | nil => simp [call, StatisticsEngine.updateTimerAfter, h.kept, hstarted] at ht
  | cons first rest =>
    obtain ⟨next, hnext, hlist⟩ := StatisticsEngine.updateTimerAfter_cons average truncate
      (h.kept.trans hstarted) now
    rw [call, hnext] at ht
    cases ht
    refine ⟨⟨hlist.trans hstarted.symm, ?_, fun hnil => ?_⟩, hstarted, rfl, by simp⟩
    · rw [h.recorded, hstarted, List.map_append]
      rfl
    · exact absurd (hstarted.symm.trans hnil) (List.cons_ne_nil first rest)

/-- Each call keeps what every run keeps. -/
theorem FirstStart.step (h : s.FirstStart) {c : TimerCall}
    (ht : s.call average truncate c = some t) : t.FirstStart := by
  cases c with
  | updateTimerBefore now => exact (h.updateTimerBefore ht).1
  | updateTimerAfter now => exact (h.updateTimerAfter ht).1

/-- The law holds until the first end: the start of that end stays in the list. -/
theorem FirstStart.matchLaw_iff (h : s.FirstStart) : s.MatchLaw ↔ s.ended = [] := by
  constructor
  · intro law
    by_contra hended
    have hstarted : 0 < s.started.length :=
      List.length_pos_iff.mpr fun hnil => hended (h.first hnil)
    have hlength := congrArg List.length (h.kept.symm.trans law.unmatched)
    rw [List.length_drop] at hlength
    have hpos := List.length_pos_iff.mpr hended
    omega
  · intro hended
    constructor
    · rw [h.recorded, hended, List.map_nil, List.zipWith_nil_left]
    · rw [h.kept, hended, List.length_nil, List.drop_zero]

end TimerRun

open TimerRun

variable {δ : Type*} [Zero δ] {average : List ℤ → δ} {truncate : δ → ℤ}
  {statisticsArraySize : ℤ} {calls earlier : List TimerCall} {s : TimerRun δ}

/-- In every prefix there are at least as many starts as ends. -/
def Balanced (calls : List TimerCall) : Prop :=
  ∀ earlier, earlier <+: calls →
    earlier.countP (fun c => !c.isBefore) ≤ earlier.countP TimerCall.isBefore

instance : DecidablePred Balanced := fun calls =>
  decidable_of_iff (∀ earlier ∈ calls.inits,
      earlier.countP (fun c => !c.isBefore) ≤ earlier.countP TimerCall.isBefore)
    (by simp only [List.mem_inits, Balanced])

/-- No call reads or pops an empty list, and after each call the ends so far have been
matched with the starts in order. -/
def FifoLaw (average : List ℤ → δ) (truncate : δ → ℤ) (statisticsArraySize : ℤ)
    (calls : List TimerCall) : Prop :=
  (∃ s, exec (call average truncate) (.start statisticsArraySize) calls = some s) ∧
    Always (call average truncate) MatchLaw (.start statisticsArraySize) calls

theorem Balanced.of_prefix (h : Balanced calls) (hearlier : earlier <+: calls) :
    Balanced earlier := fun first hfirst => h first (hfirst.trans hearlier)

/-- Along every run the recorded times are those to the first start, whatever the
order of the calls. -/
theorem firstStart_of_exec
    (hrun : exec (call average truncate) (.start statisticsArraySize) calls = some s) :
    s.FirstStart :=
  exec_invariant (fun _ _ _ h ht => h.step ht) (firstStart_start statisticsArraySize) hrun

variable (average truncate statisticsArraySize) in
/-- A balanced run is defined to its end. -/
theorem Balanced.exists_exec (h : Balanced calls) :
    ∃ s, exec (call average truncate) (.start statisticsArraySize) calls = some s ∧
      s.started.length = calls.countP TimerCall.isBefore ∧
      s.ended.length = calls.countP fun c => !c.isBefore := by
  induction calls using List.reverseRecOn with
  | nil => exact ⟨_, rfl, rfl, rfl⟩
  | append_singleton calls c ih =>
    obtain ⟨s, hrun, hstarted, hended⟩ := ih (h.of_prefix (List.prefix_append calls [c]))
    have hfirst := firstStart_of_exec hrun
    cases c with
    | updateTimerBefore now =>
      refine ⟨_, exec_snoc hrun rfl, ?_, ?_⟩
      · simp [hstarted, TimerCall.isBefore]
      · simp [hended, TimerCall.isBefore]
    | updateTimerAfter now =>
      have hcount := h (calls ++ [.updateTimerAfter now]) List.prefix_rfl
      simp only [List.countP_append, List.countP_singleton, TimerCall.isBefore] at hcount
      have hne : s.started ≠ [] := by
        rw [← List.length_pos_iff, hstarted]
        simp at hcount
        omega
      obtain ⟨t, ht⟩ := hfirst.exists_updateTimerAfter average truncate hne now
      obtain ⟨_, hsame, hmore, _⟩ := hfirst.updateTimerAfter ht
      refine ⟨t, exec_snoc hrun ht, ?_, ?_⟩
      · simp [hsame, hstarted, TimerCall.isBefore]
      · simp [hmore, hended, TimerCall.isBefore]

/-- The times of a balanced run are matched first-in first-out exactly when it ends no
task. -/
theorem fifoLaw_iff (average : List ℤ → δ) (truncate : δ → ℤ) (statisticsArraySize : ℤ)
    (calls : List TimerCall) (h : Balanced calls) :
    FifoLaw average truncate statisticsArraySize calls ↔ ∀ c ∈ calls, c.isBefore = true := by
  constructor
  · rintro ⟨_, hlaw⟩ c hc
    obtain ⟨s, hrun, _, hended⟩ := h.exists_exec average truncate statisticsArraySize
    have hnone := (firstStart_of_exec hrun).matchLaw_iff.mp (hlaw calls s List.prefix_rfl hrun)
    rw [hnone, List.length_nil, eq_comm, List.countP_eq_zero] at hended
    simpa using hended c hc
  · intro hall
    obtain ⟨s, hrun, _⟩ := h.exists_exec average truncate statisticsArraySize
    refine ⟨⟨s, hrun⟩, fun earlier t hearlier ht => ?_⟩
    obtain ⟨t', ht', _, hended⟩ := (h.of_prefix hearlier).exists_exec average truncate
      statisticsArraySize
    cases ht.symm.trans ht'
    have hzero : earlier.countP (fun c => !c.isBefore) = 0 := by
      rw [List.countP_eq_zero]
      intro c hc
      simp [hall c (hearlier.mem hc)]
    rw [hzero, List.length_eq_zero_iff] at hended
    exact (firstStart_of_exec ht).matchLaw_iff.mpr hended

/-- The average without rounding. -/
def exactAverage (times : List ℤ) : ℚ := (times.sum : ℚ) / times.length

def towardZero (finalAverage : ℚ) : ℤ := finalAverage.num.tdiv finalAverage.den

/-- Two tasks start and none ends. -/
theorem fifoLaw_twoStarts :
    FifoLaw exactAverage towardZero 100 [.updateTimerBefore 0, .updateTimerBefore 5000000] :=
  (fifoLaw_iff exactAverage towardZero 100 [.updateTimerBefore 0, .updateTimerBefore 5000000]
    (by decide)).mpr (by decide)

/-- One task waits from 0 to 10 ms and another one from 5 to 12 ms. -/
def twoTasks : List TimerCall :=
  [.updateTimerBefore 0, .updateTimerBefore 5000000, .updateTimerAfter 10000000,
    .updateTimerAfter 12000000]

/-- The second wait is recorded as 12 ms, and both starts are still in the list. -/
theorem not_fifoLaw_twoTasks :
    Balanced twoTasks ∧
      (exec (call exactAverage towardZero) (.start 100) twoTasks).map
        (fun s => (s.recorded, s.engine.timeBefore)) = some ([10, 12], [0, 5000000]) ∧
      ¬ FifoLaw exactAverage towardZero 100 twoTasks := by
  refine ⟨by decide, rfl, fun h => ?_⟩
  have hrecorded := (h.2 twoTasks _ List.prefix_rfl rfl).recorded
  revert hrecorded
  decide

end WorkerUnit
