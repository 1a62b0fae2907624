import WorkerUnit.Scheduler.LoopBody

/-!
# What rebalancing may move

A call of `rebalance_thread_queues` with no other thread acting, with a record of
the jobs it moves. A queue that is chosen as free is empty, so it and the busy one
have room together for the jobs of the busy one, and together they wait as long as
the busy one did.
-/

namespace WorkerUnit

variable {n : ℕ}

/-- A job, the two queues, and the target as it was when it was chosen. -/
structure Move (n : ℕ) where
  job : QueueJob
  source : Fin n
  target : Fin n
  chosen : Option ThreadQueue

/-- The state of the scheduler thread, the queue that was chosen as free, and the
moves that were made. -/
structure BalanceRun (n : ℕ) where
  sched : SchedState n
  chosen : Option ThreadQueue
  moves : List (Move n)

/-- The job is neither running nor finalized, and the target had no unfinished job. -/
def Move.Allowed (m : Move n) : Prop :=
  m.job.isJobStatusSet .running = false ∧ m.job.isJobStatusSet .finalized = false ∧
    ∃ queue, m.chosen = some queue ∧ ∀ slot, queue.occupied slot = none

/-- The state after a move. -/
def SchedState.afterMove (s : SchedState n) (free busy : Fin n) (slot place : Fin queueSize)
    (job : QueueJob) : SchedState n :=
  (s.setQueue busy ((s.threadQueueList busy).remove slot)).setQueue free
    ((s.threadQueueList free).place place job)

namespace BalanceRun

def start (s : SchedState n) : BalanceRun n := ⟨s, none, []⟩

/-- What the next step of the scheduler thread moves. -/
def moved (r : BalanceRun n) : List (Move n) :=
  match r.sched.stage with
  | .moving _ freeThreadId busiestThreadId =>
    match (r.sched.threadQueueList busiestThreadId).popJob with
    | some (some job, _) => [⟨job, busiestThreadId, freeThreadId, r.chosen⟩]
    | _ => []
  | _ => []

/-- The queue that the scheduler thread has chosen, as it is when it is chosen. -/
def choose (r : BalanceRun n) (t : SchedState n) : Option ThreadQueue :=
  match t.stage with
  | .freeFound _ freeThreadId => some (t.threadQueueList freeThreadId)
  | _ => r.chosen

/-- A step of `rebalance_thread_queues`. -/
def step (r : BalanceRun n) : Option (SchedStage n × BalanceRun n) :=
  r.sched.rebalance.map fun t => (t.stage, ⟨t, r.choose t, r.moves ++ r.moved⟩)

/-- Between the two states the queues are the same, or one job has left its slot for a free
one of its target, and the record says so. -/
def Recorded (r r' : BalanceRun n) : Prop :=
  (r'.moves = r.moves ∧ r'.sched.threadQueueList = r.sched.threadQueueList) ∨
    ∃ m slot place, r'.moves = r.moves ++ [m] ∧
      (r.sched.threadQueueList m.source).occupied slot = some m.job ∧
      (r.sched.threadQueueList m.target).jobSlotDone place = true ∧
      r'.sched.threadQueueList =
        (r.sched.afterMove m.target m.source slot place m.job).threadQueueList

end BalanceRun

namespace SchedState

/-- The longest wait time of a queue. -/
def largestWaitTime (s : SchedState n) : ℕ :=
  Finset.univ.sup fun i => (s.threadQueueList i).getTotalWaitTime

/-- A call ends, makes only moves that are allowed, keeps the counters right, and
makes no queue wait longer than the longest did. All wait times that it can read
are representable, and the moves are all that changes the queues. -/
structure RebalancesSafely (s : SchedState n) : Prop where
  ends : ∃ fuel r, Loop.run BalanceRun.step (· = .idle) fuel (.start s) = some r ∧
    s.rebalanceThreadQueues fuel = some r.sched ∧
    (∀ m ∈ r.moves, m.Allowed) ∧
    (∀ i, (r.sched.threadQueueList i).Counted) ∧
    r.sched.largestWaitTime ≤ s.largestWaitTime
  representable : ∀ fuel, ∀ r ∈ Loop.visited BalanceRun.step (· = .idle) fuel (.start s),
    ∀ i, (r.sched.threadQueueList i).getTotalWaitTime < 2 ^ 31
  recorded : ∀ fuel, ∀ r ∈ Loop.visited BalanceRun.step (· = .idle) fuel (.start s),
    ∀ stage r', r.step = some (stage, r') → r.Recorded r'

/-- The free queue and the busy one have room for the jobs of both, and wait together
no longer than the bound. -/
structure Shares (s : SchedState n) (bound : ℕ) (free busy : Fin n) : Prop where
  ne : free ≠ busy
  jobs : (s.threadQueueList free).totalJobsInQueue + (s.threadQueueList busy).totalJobsInQueue ≤
    queueSize
  wait : (s.threadQueueList free).getTotalWaitTime +
    (s.threadQueueList busy).getTotalWaitTime ≤ bound

variable {s : SchedState n} {bound : ℕ} {free busy : Fin n} {slot place : Fin queueSize}
  {job : QueueJob}

theorem getEmptyThreadQueue_idle (hq : ∀ i, (s.threadQueueList i).Counted)
    (h : getEmptyThreadQueue s.threadQueueList = some free) (slot : Fin queueSize) :
    (s.threadQueueList free).occupied slot = none := by
  have hzero := List.find?_some h
  exact (hq free).getTotalWaitTime_eq_zero_iff.mp (of_decide_eq_true hzero) slot

/-- An empty queue and another one share the jobs of that one. -/
theorem shares_of_idle (hq : ∀ i, (s.threadQueueList i).Counted)
    (hwait : ∀ i, (s.threadQueueList i).getTotalWaitTime ≤ bound)
    (hidle : ∀ slot, (s.threadQueueList free).occupied slot = none) (hne : busy ≠ free) :
    s.Shares bound free busy where
  ne := hne.symm
  jobs := by
    have hload : Slots.load (s.threadQueueList free).occupied = 0 := by
      rw [funext hidle, Slots.load, Slots.countIf_empty]
    rw [(hq free).total, hload, Nat.cast_zero, zero_add]
    exact (hq busy).total_le
  wait := by
    rw [(hq free).getTotalWaitTime_eq_zero_iff.mpr hidle, zero_add]
    exact hwait busy

/-- While the free queue waits less than the busy one, it has room. -/
theorem Shares.room (h : s.Shares bound free busy) (hq : ∀ i, (s.threadQueueList i).Counted)
    (hless : (s.threadQueueList free).getTotalWaitTime <
      (s.threadQueueList busy).getTotalWaitTime) :
    (s.threadQueueList free).totalJobsInQueue < queueSize := by
  have hbusy : (s.threadQueueList busy).totalJobsInQueue ≠ 0 := by
    intro hzero
    rw [ThreadQueue.getTotalWaitTime.eq_1 (s.threadQueueList busy), if_pos hzero] at hless
    exact Nat.not_lt_zero _ hless
  have hnonneg := (hq busy).total_nonneg
  have hjobs := h.jobs
  omega

theorem afterMove_free :
    (s.afterMove free busy slot place job).threadQueueList free =
      (s.threadQueueList free).place place job := Function.update_self ..

theorem afterMove_busy (hne : free ≠ busy) :
    (s.afterMove free busy slot place job).threadQueueList busy =
      (s.threadQueueList busy).remove slot := by
  simp [afterMove, setQueue, Function.update_of_ne hne.symm]

theorem afterMove_other {i : Fin n} (hfree : i ≠ free) (hbusy : i ≠ busy) :
    (s.afterMove free busy slot place job).threadQueueList i = s.threadQueueList i := by
  simp [afterMove, setQueue, Function.update_of_ne hfree, Function.update_of_ne hbusy]

/-- A move changes the two queues and no other. -/
theorem forall_afterMove {P : ThreadQueue → Prop} (hne : free ≠ busy)
    (hs : ∀ i, P (s.threadQueueList i)) (hfree : P ((s.threadQueueList free).place place job))
    (hbusy : P ((s.threadQueueList busy).remove slot)) (i : Fin n) :
    P ((s.afterMove free busy slot place job).threadQueueList i) := by
  by_cases hifree : i = free
  · subst hifree
    rw [afterMove_free]
    exact hfree
  · by_cases hibusy : i = busy
    · subst hibusy
      rw [afterMove_busy hne]
      exact hbusy
    · rw [afterMove_other hifree hibusy]
      exact hs i

/-- After a move the two queues still share their jobs. -/
theorem Shares.afterMove (h : s.Shares bound free busy)
    (hq : ∀ i, (s.threadQueueList i).Counted)
    (hjob : (s.threadQueueList busy).occupied slot = some job)
    (hplace : (s.threadQueueList free).jobSlotDone place = true) :
    (s.afterMove free busy slot place job).Shares bound free busy where
  ne := h.ne
  jobs := by
    have hjobs := h.jobs
    rw [afterMove_free, afterMove_busy h.ne]
    simp only [ThreadQueue.place, ThreadQueue.remove]
    omega
  wait := by
    have hwait := h.wait
    have hput := (hq free).wait_place hplace job
    have htaken := (hq busy).wait_remove hjob
    rw [afterMove_free, afterMove_busy h.ne]
    omega

end SchedState

namespace BalanceRun

/-- The queue that was chosen had no unfinished job. -/
def ChosenIdle (chosen : Option ThreadQueue) : Prop :=
  ∃ queue, chosen = some queue ∧ ∀ slot, queue.occupied slot = none

/-- What holds at a stage of the scheduler thread. -/
def StageSafe (s : SchedState n) (chosen : Option ThreadQueue) (bound : ℕ) : Prop :=
  match s.stage with
  | .freeFound _ free => ChosenIdle chosen ∧ ∀ slot, (s.threadQueueList free).occupied slot = none
  | .testing _ free busy => ChosenIdle chosen ∧ s.Shares bound free busy
  | .moving _ free busy => ChosenIdle chosen ∧ s.Shares bound free busy ∧
      (s.threadQueueList free).getTotalWaitTime < (s.threadQueueList busy).getTotalWaitTime
  | _ => True

structure Safe (bound : ℕ) (r : BalanceRun n) : Prop where
  queues : ∀ i, (r.sched.threadQueueList i).Counted
  wait : ∀ i, (r.sched.threadQueueList i).getTotalWaitTime ≤ bound
  moves : ∀ m ∈ r.moves, m.Allowed
  stage : StageSafe r.sched r.chosen bound

variable {r r' : BalanceRun n} {bound : ℕ} {stage : SchedStage n}

theorem Safe.stageOk (h : r.Safe bound) : r.sched.StageOk := by
  have hstage := h.stage
  unfold StageSafe at hstage
  unfold SchedState.StageOk
  cases hs : r.sched.stage with
  | idle => trivial
  | balancing i => trivial
  | freeFound i free => trivial
  | testing i free busy =>
    rw [hs] at hstage
    exact hstage.2.ne
  | moving i free busy =>
    rw [hs] at hstage
    exact ⟨hstage.2.1.ne, hstage.2.1.room h.queues hstage.2.2⟩

/-- A step that only goes on to another stage. -/
theorem Safe.goTo (h : r.Safe bound) {chosen : Option ThreadQueue}
    (hstage : StageSafe { r.sched with stage := stage } chosen bound) :
    Safe bound ⟨{ r.sched with stage := stage }, chosen, r.moves⟩ :=
  ⟨h.queues, h.wait, h.moves, hstage⟩

theorem Safe.move (h : r.Safe bound) {i : ℕ} {free busy : Fin n}
    (hs : r.sched.stage = .moving i free busy) (hstep : r.step = some (stage, r')) :
    r'.Safe bound := by
  have hstage := h.stage
  simp only [StageSafe, hs] at hstage
  obtain ⟨hchosen, hshares, hless⟩ := hstage
  obtain ⟨t, ht, heq⟩ := Option.map_eq_some_iff.mp hstep
  cases heq
  rcases SchedState.rebalance_moving h.queues hs hshares.ne (hshares.room h.queues hless) with
    ⟨hpop, _, hnext⟩ | ⟨slot, job, place, hjob, hsteal, hplace, hpop, hnext⟩
  · cases ht.symm.trans hnext
    have hmoved : r.moved = [] := by simp [moved, hs, hpop]
    rw [hmoved, List.append_nil]
    exact h.goTo trivial
  · cases ht.symm.trans hnext
    have hmoved : r.moved = [⟨job, busy, free, r.chosen⟩] := by simp [moved, hs, hpop]
    have hafter := hshares.afterMove h.queues hjob hplace
    have hwait := hafter.wait
    rw [SchedState.afterMove_free, SchedState.afterMove_busy hshares.ne] at hwait
    rw [hmoved]
    constructor
    · exact SchedState.forall_afterMove hshares.ne h.queues ((h.queues free).place hplace job)
        ((h.queues busy).remove hjob)
    · exact SchedState.forall_afterMove (P := fun q => q.getTotalWaitTime ≤ bound) hshares.ne h.wait
        (by omega) (by omega)
    · intro m hm
      rcases List.mem_append.mp hm with hm | hm
      · exact h.moves m hm
      · rw [List.mem_singleton.mp hm]
        simp only [ThreadQueue.stealable, Bool.and_eq_true, Bool.not_eq_true'] at hsteal
        exact ⟨hsteal.1, hsteal.2, hchosen⟩
    · exact ⟨hchosen, ⟨hafter.ne, hafter.jobs, hafter.wait⟩⟩

/-- A step that moves no job. -/
theorem step_of_not_moving (h : ∀ i free busy, r.sched.stage ≠ .moving i free busy)
    (hstep : r.step = some (stage, r')) :
    ∃ t, r.sched.rebalance = some t ∧ r' = ⟨t, r.choose t, r.moves⟩ := by
  have hmoved : r.moved = [] := by
    unfold moved
    split
    · rename_i i free busy hs
      exact absurd hs (h i free busy)
    · rfl
  obtain ⟨t, ht, heq⟩ := Option.map_eq_some_iff.mp hstep
  rw [hmoved, List.append_nil] at heq
  cases heq
  exact ⟨t, ht, rfl⟩

theorem Safe.step (h : r.Safe bound) (hstep : r.step = some (stage, r')) : r'.Safe bound := by
  have hstage := h.stage
  unfold StageSafe at hstage
  cases hs : r.sched.stage with
  | moving i free busy => exact h.move hs hstep
  | idle =>
    obtain ⟨t, ht, rfl⟩ := step_of_not_moving (by simp [hs]) hstep
    simp only [SchedState.rebalance, hs] at ht
    split_ifs at ht
    · cases ht
      simp only [choose, hs]
      exact h
    · cases ht
      exact h.goTo trivial
  | balancing i =>
    obtain ⟨t, ht, rfl⟩ := step_of_not_moving (by simp [hs]) hstep
    simp only [SchedState.rebalance, hs] at ht
    split_ifs at ht
    · split at ht
      · cases ht
        exact h.goTo trivial
      · rename_i free hfree
        cases ht
        have hidle := SchedState.getEmptyThreadQueue_idle h.queues hfree
        exact h.goTo ⟨⟨_, rfl, hidle⟩, hidle⟩
    · cases ht
      exact h.goTo trivial
  | freeFound i free =>
    rw [hs] at hstage
    obtain ⟨t, ht, rfl⟩ := step_of_not_moving (by simp [hs]) hstep
    simp only [SchedState.rebalance, hs] at ht
    split at ht
    · cases ht
      exact h.goTo trivial
    · split_ifs at ht with hsame
      · cases ht
        exact h.goTo trivial
      · cases ht
        have hshares := SchedState.shares_of_idle h.queues h.wait hstage.2 hsame
        exact h.goTo ⟨hstage.1, hshares.ne, hshares.jobs, hshares.wait⟩
  | testing i free busy =>
    rw [hs] at hstage
    obtain ⟨t, ht, rfl⟩ := step_of_not_moving (by simp [hs]) hstep
    simp only [SchedState.rebalance, hs] at ht
    split_ifs at ht with hless
    · cases ht
      exact h.goTo ⟨hstage.1, ⟨hstage.2.ne, hstage.2.jobs, hstage.2.wait⟩, hless⟩
    · cases ht
      exact h.goTo trivial

theorem Safe.recorded (h : r.Safe bound) (hstep : r.step = some (stage, r')) :
    r.Recorded r' := by
  cases hs : r.sched.stage with
  | moving i free busy =>
    have hstage := h.stage
    simp only [StageSafe, hs] at hstage
    obtain ⟨_, hshares, hless⟩ := hstage
    obtain ⟨t, ht, heq⟩ := Option.map_eq_some_iff.mp hstep
    cases heq
    rcases SchedState.rebalance_moving h.queues hs hshares.ne
      (hshares.room h.queues hless) with
      ⟨hpop, _, hnext⟩ | ⟨slot, job, place, hjob, _, hplace, hpop, hnext⟩
    · cases ht.symm.trans hnext
      exact .inl ⟨by simp [moved, hs, hpop], rfl⟩
    · cases ht.symm.trans hnext
      refine .inr ⟨⟨job, busy, free, r.chosen⟩, slot, place, ?_, hjob, hplace, rfl⟩
      simp [moved, hs, hpop]
  | _ =>
    obtain ⟨t, ht, rfl⟩ := step_of_not_moving (by simp [hs]) hstep
    rcases SchedState.rebalance_cases ht with ⟨stage, rfl⟩ | ⟨_, _, _, _, _, hmoving, _⟩
    · exact .inl ⟨rfl, rfl⟩
    · cases hs.symm.trans hmoving

/-- The record does not change what is done. -/
theorem run_sched (fuel : ℕ) (r : BalanceRun n) :
    r.sched.rebalanceThreadQueues fuel =
      (Loop.run BalanceRun.step (· = .idle) fuel r).map (·.sched) := by
  refine Loop.run_map (f := BalanceRun.sched) (fun r => ?_) fuel r
  simp only [BalanceRun.step, Option.map_map, Function.comp_def]

theorem safe_start {s : SchedState n} (hs : s.stage = .idle)
    (hq : ∀ i, (s.threadQueueList i).Counted) : (start s).Safe s.largestWaitTime where
  queues := hq
  wait := fun i => Finset.le_sup (f := fun i => (s.threadQueueList i).getTotalWaitTime)
    (Finset.mem_univ i)
  moves := nofun
  stage := by
    unfold StageSafe
    rw [show (start s).sched.stage = .idle from hs]
    trivial

/-- A step from a safe state ends the call or decreases the measure. -/
theorem Safe.decreases (h : r.Safe bound) : ∃ stage r', r.step = some (stage, r') ∧
    (decide (stage = .idle) = true ∨
      r'.Safe bound ∧ r'.sched.rebalanceMeasure < r.sched.rebalanceMeasure) := by
  obtain ⟨t, ht, hless⟩ := SchedState.rebalance_decreases h.queues h.stageOk
  have hstep : ∃ r', r.step = some (t.stage, r') ∧ r'.sched = t := by
    unfold BalanceRun.step
    rw [ht]
    exact ⟨_, rfl, rfl⟩
  obtain ⟨r', hr', hsched⟩ := hstep
  refine ⟨t.stage, r', hr', hless.imp (fun hidle => decide_eq_true hidle) fun hless => ?_⟩
  rw [hsched]
  exact ⟨h.step hr', hless⟩

/-- From a safe state the call ends in one. -/
theorem Safe.exists_run (h : r.Safe bound) {fuel : ℕ}
    (hfuel : r.sched.rebalanceMeasure < fuel) :
    ∃ r', Loop.run BalanceRun.step (· = .idle) fuel r = some r' ∧ r'.Safe bound := by
  obtain ⟨r', hr'⟩ := Loop.run_of_measure (P := Safe bound)
    (μ := fun r : BalanceRun n => r.sched.rebalanceMeasure) (fun _ hu => hu.decreases) h hfuel
  exact ⟨r', hr', (Loop.run_invariant (fun _ _ _ hu hstep => hu.step hstep) h hr').1⟩

end BalanceRun

namespace SchedState

/-- Whatever the jobs of the queues and their slices are, a call of
`rebalance_thread_queues` is safe when their sum is representable. -/
theorem rebalancesSafely (s : SchedState n) (hs : s.stage = .idle)
    (hq : ∀ i, (s.threadQueueList i).Counted)
    (hsum : ∑ i, (s.threadQueueList i).getTotalWaitTime < 2 ^ 31) : s.RebalancesSafely := by
  have hstart := BalanceRun.safe_start hs hq
  constructor
  · obtain ⟨r, hr, hsafe⟩ := hstart.exists_run (Nat.lt_succ_self s.rebalanceMeasure)
    have hsched := BalanceRun.run_sched (s.rebalanceMeasure + 1) (BalanceRun.start s)
    exact ⟨_, r, hr, hsched.trans (by rw [hr]; rfl), hsafe.moves, hsafe.queues,
      Finset.sup_le fun i _ => hsafe.wait i⟩
  · intro fuel r hr i
    have hsafe := Loop.visited_invariant (fun _ _ _ hu hstep => hu.step hstep) hstart fuel r hr
    have hlargest : s.largestWaitTime ≤ ∑ i, (s.threadQueueList i).getTotalWaitTime :=
      Finset.sup_le fun j hj => Finset.single_le_sum
        (f := fun i => (s.threadQueueList i).getTotalWaitTime) (fun _ _ => Nat.zero_le _) hj
    exact ((hsafe.wait i).trans hlargest).trans_lt hsum
  · intro fuel r hr stage r' hstep
    have hsafe := Loop.visited_invariant (fun _ _ _ hu hstep => hu.step hstep) hstart fuel r hr
    exact hsafe.recorded hstep

/-- A call with these queues. -/
def ofQueues (threadQueueList : Fin n → ThreadQueue) : SchedState n :=
  ⟨[], threadQueueList, .idle, [], [], 0⟩

/-- A queue without jobs, and one with two jobs that wait, of which one has a slice. -/
def twoWaiting : SchedState 2 :=
  let procTable := ProcessTable.registered 0 ⟨1, true, true, true, true⟩ .lowPriority
  let queue := ThreadQueue.new fun _ => none
  ofQueues ![queue, (queue.place 0 ⟨5, procTable, false⟩).place 1 (.new procTable)]

theorem rebalancesSafely_twoWaiting : twoWaiting.RebalancesSafely := by
  have hnew := (ThreadQueue.sound_new fun _ => none).counted
  refine rebalancesSafely twoWaiting rfl (fun i => ?_) (by decide)
  fin_cases i
  · exact hnew
  · exact (hnew.place rfl _).place rfl _

end SchedState

end WorkerUnit
