import WorkerUnit.Scheduler.BusiestQueue
import WorkerUnit.Scheduler.LoadRounds
import WorkerUnit.Scheduler.RebalanceSafety

/-!
# Threads that stay idle

A call of `rebalance_thread_queues` makes a round of balancing in each pass of its
loop, and there are enough passes for all rounds. The last candidate is the one that
gives, so one queue whose jobs are running holds up those before it.
-/

namespace WorkerUnit

variable {n : ℕ}

namespace ThreadQueue

/-- The unfinished jobs, and those that `popJob` may take. -/
def load (q : ThreadQueue) : Load := ⟨Slots.load q.occupied, Slots.countIf stealable q.occupied⟩

variable {q : ThreadQueue} {slot : Fin queueSize} {job : QueueJob}

theorem load_jobs_le (q : ThreadQueue) : q.load.jobs ≤ queueSize := by
  have hle := Slots.load_le_card q.occupied
  rwa [Fintype.card_fin] at hle

theorem load_stealable_le (q : ThreadQueue) : q.load.stealable ≤ q.load.jobs :=
  Slots.countIf_le_load stealable q.occupied

theorem Sound.total_eq (h : q.Sound) : q.totalJobsInQueue = q.load.jobs := h.total

theorem Sound.wait_eq (h : q.Sound) : q.getTotalWaitTime = 999 * q.load.jobs := by
  have hwait := h.getTotalWaitTime_eq
  rw [h.total_eq] at hwait
  exact_mod_cast hwait

theorem load_jobs_eq_zero_iff (q : ThreadQueue) :
    q.load.jobs = 0 ↔ ∀ slot, q.occupied slot = none := by
  constructor
  · intro hzero slot
    cases hslot : q.occupied slot with
    | none => rfl
    | some job =>
      have hpos : 0 < Slots.load q.occupied := Slots.countIf_pos hslot rfl
      exact absurd hzero hpos.ne'
  · intro hnone
    simp only [load, funext hnone, Slots.load, Slots.countIf_empty]

theorem load_stealable_pos_iff (q : ThreadQueue) :
    0 < q.load.stealable ↔ ∃ slot job, q.occupied slot = some job ∧ stealable job = true := by
  constructor
  · intro hpos
    exact Slots.exists_of_countIf_ne_zero hpos.ne'
  · rintro ⟨slot, job, hjob, hsteal⟩
    exact Slots.countIf_pos hjob hsteal

theorem load_place (hslot : q.jobSlotDone slot = true) (hsteal : stealable job = true) :
    (q.place slot job).load = ⟨q.load.jobs + 1, q.load.stealable + 1⟩ := by
  have hnone := occupied_of_done hslot
  rw [load, occupied_place, Slots.load, Slots.countIf_put hnone, Slots.countIf_put hnone,
    if_pos hsteal]
  rfl

theorem load_remove (hjob : q.occupied slot = some job) (hsteal : stealable job = true) :
    (q.remove slot).load = ⟨q.load.jobs - 1, q.load.stealable - 1⟩ := by
  have hall := Slots.countIf_clear (p := fun _ => true) hjob
  have htaken := Slots.countIf_clear (p := stealable) hjob
  rw [if_pos rfl] at hall
  rw [if_pos hsteal] at htaken
  rw [load, occupied_remove, Slots.load, Nat.eq_sub_of_add_eq hall, Nat.eq_sub_of_add_eq htaken]
  rfl

end ThreadQueue

namespace SchedState

/-- A call of `rebalance_thread_queues`, or the rest of one, ends in `t`. -/
def Returns (s t : SchedState n) : Prop := ∃ fuel, s.rebalanceThreadQueues fuel = some t

def loads (s : SchedState n) (i : Fin n) : Load := (s.threadQueueList i).load

/-- No queue has no unfinished job while another one has two, of which one is neither
running nor finalized. -/
def FeedsIdle (s : SchedState n) : Prop :=
  ¬ ∃ idle busy, (∀ slot, (s.threadQueueList idle).occupied slot = none) ∧
    2 ≤ Slots.load (s.threadQueueList busy).occupied ∧
    ∃ slot job, (s.threadQueueList busy).occupied slot = some job ∧
      job.isJobStatusSet .running = false ∧ job.isJobStatusSet .finalized = false

variable {s t u : SchedState n} {free busy : Fin n} {slot place : Fin queueSize}
  {job : QueueJob}

theorem feedsIdle_iff_not_starved (s : SchedState n) : s.FeedsIdle ↔ ¬ Starved s.loads := by
  apply not_congr
  constructor
  · rintro ⟨idle, busy, hidle, hbusy, slot, job, hjob, hrunning, hfinalized⟩
    refine ⟨⟨idle, (ThreadQueue.load_jobs_eq_zero_iff _).mpr hidle⟩, busy, hbusy, ?_⟩
    exact (ThreadQueue.load_stealable_pos_iff _).mpr
      ⟨slot, job, hjob, by simp [ThreadQueue.stealable, hrunning, hfinalized]⟩
  · rintro ⟨⟨idle, hidle⟩, busy, hbusy, hpos⟩
    obtain ⟨slot, job, hjob, hsteal⟩ := (ThreadQueue.load_stealable_pos_iff _).mp hpos
    simp only [ThreadQueue.stealable, Bool.and_eq_true, Bool.not_eq_true'] at hsteal
    exact ⟨idle, busy, (ThreadQueue.load_jobs_eq_zero_iff _).mp hidle, hbusy, slot, job, hjob,
      hsteal⟩

theorem Returns.of_stop (h : s.rebalance = some t) (ht : t.stage = .idle) : s.Returns t :=
  Loop.Ends.of_stop (by rw [h]; rfl) (decide_eq_true ht)

theorem Returns.of_continue (h : s.rebalance = some u) (hu : u.stage ≠ .idle)
    (ht : u.Returns t) : s.Returns t :=
  Loop.Ends.of_continue (by rw [h]; rfl) (decide_eq_false hu) ht

theorem Returns.unique (ht : s.Returns t) (hu : s.Returns u) : t = u := Loop.Ends.unique ht hu

theorem getEmptyThreadQueue_none (hq : ∀ i, (s.threadQueueList i).Sound)
    (h : getEmptyThreadQueue s.threadQueueList = none) (i : Fin n) : (s.loads i).jobs ≠ 0 := by
  have hwait := List.find?_eq_none.mp h i (List.mem_finRange i)
  rw [decide_eq_true_eq, (hq i).wait_eq] at hwait
  exact fun hzero => hwait (by rw [show (s.threadQueueList i).load.jobs = 0 from hzero])

/-- The queue that is found is the first one without jobs. -/
theorem getEmptyThreadQueue_some (hq : ∀ i, (s.threadQueueList i).Sound)
    (h : getEmptyThreadQueue s.threadQueueList = some free) :
    (s.loads free).jobs = 0 ∧ ∀ i < free, (s.loads i).jobs ≠ 0 := by
  obtain ⟨hfree, before, after, hsplit, hbefore⟩ := List.find?_eq_some_iff_append.mp h
  rw [decide_eq_true_eq, (hq free).wait_eq] at hfree
  refine ⟨by unfold loads; omega, fun i hi hzero => ?_⟩
  have hsorted := List.pairwise_lt_finRange n
  rw [hsplit, List.pairwise_append, List.pairwise_cons] at hsorted
  have hmem := List.mem_finRange i
  rw [hsplit, List.mem_append, List.mem_cons] at hmem
  rcases hmem with hmem | rfl | hmem
  · have hwait := hbefore i hmem
    rw [Bool.not_eq_true', decide_eq_false_iff_not, (hq i).wait_eq] at hwait
    exact hwait (by rw [show (s.threadQueueList i).load.jobs = 0 from hzero])
  · exact absurd hi (lt_irrefl _)
  · exact absurd (hsorted.2.1.1 i hmem) hi.asymm

theorem getBusiestThreadQueue_eq (hq : ∀ i, (s.threadQueueList i).Sound) :
    getBusiestThreadQueue s.threadQueueList =
      FirstLeast.searchLast fun i => 2 ≤ (s.loads i).jobs :=
  getBusiestThreadQueue_eq_searchLast fun i => (hq i).counted

/-- Without a queue of two jobs none is found. -/
theorem getBusiestThreadQueue_none (hq : ∀ i, (s.threadQueueList i).Sound)
    (h : getBusiestThreadQueue s.threadQueueList = none) (i : Fin n) : (s.loads i).jobs < 2 := by
  rw [getBusiestThreadQueue_eq hq, FirstLeast.searchLast_eq_none_iff] at h
  exact not_le.mp (h i)

/-- The queue that is found is the last one with two jobs. -/
theorem getBusiestThreadQueue_some (hq : ∀ i, (s.threadQueueList i).Sound)
    (h : getBusiestThreadQueue s.threadQueueList = some busy) : LastBusy s.loads busy := by
  rw [getBusiestThreadQueue_eq hq, FirstLeast.searchLast_eq_some_iff] at h
  exact ⟨h.candidate, fun i hi => not_le.mp (h.last i hi)⟩

/-- What the inner loop moves from a queue to one that has fewer jobs. -/
def balanced (source target : Load) : ℕ :=
  min source.stealable ((source.jobs - target.jobs + 1) / 2)

theorem loads_afterMove (hne : free ≠ busy)
    (hjob : (s.threadQueueList busy).occupied slot = some job)
    (hsteal : ThreadQueue.stealable job = true)
    (hplace : (s.threadQueueList free).jobSlotDone place = true) :
    (s.afterMove free busy slot place job).loads = transfer s.loads busy free 1 := by
  funext i
  by_cases hfree : i = free
  · subst hfree
    rw [transfer, Function.update_self, loads, afterMove_free,
      ThreadQueue.load_place hplace hsteal]
    rfl
  · by_cases hbusy : i = busy
    · subst hbusy
      rw [transfer, Function.update_of_ne hfree, Function.update_self, loads, afterMove_busy hne,
        ThreadQueue.load_remove hjob hsteal]
      rfl
    · rw [transfer, Function.update_of_ne hfree, Function.update_of_ne hbusy, loads,
        afterMove_other hfree hbusy]
      rfl

/-- One job is moved, or there is none and the pass is over. -/
theorem move_step {i : ℕ} (hq : ∀ i, (s.threadQueueList i).Sound) (hne : free ≠ busy)
    (hs : s.stage = .moving i free busy)
    (hroom : (s.threadQueueList free).totalJobsInQueue < queueSize) :
    ∃ u : SchedState n, (∀ i, (u.threadQueueList i).Sound) ∧ (∀ t, u.Returns t → s.Returns t) ∧
      (u.stage = .balancing (i + 1) ∧ u.loads = s.loads ∧ (s.loads busy).stealable = 0 ∨
        u.stage = .testing i free busy ∧ u.loads = transfer s.loads busy free 1 ∧
          0 < (s.loads busy).stealable) := by
  rcases rebalance_moving (fun i => (hq i).counted) hs hne hroom with
    ⟨_, hkept, hnext⟩ | ⟨slot, job, place, hjob, hsteal, hplace, _, hnext⟩
  · have hnone : (s.loads busy).stealable = 0 := by
      by_contra hpos
      obtain ⟨slot, job, hjob, hsteal⟩ :=
        (ThreadQueue.load_stealable_pos_iff _).mp (Nat.pos_of_ne_zero hpos)
      rw [hkept slot job hjob] at hsteal
      cases hsteal
    exact ⟨{ s with stage := .balancing (i + 1) }, hq, fun t ht => .of_continue hnext (by simp) ht,
      .inl ⟨rfl, rfl, hnone⟩⟩
  · have hsound := forall_afterMove hne hq ((hq free).place hplace ((hq busy).slice hjob))
      ((hq busy).remove (ThreadQueue.occupied_eq_some.mp hjob).1)
    have hpos : 0 < (s.loads busy).stealable :=
      (ThreadQueue.load_stealable_pos_iff _).mpr ⟨slot, job, hjob, hsteal⟩
    exact ⟨{ s.afterMove free busy slot place job with stage := .testing i free busy }, hsound,
      fun t ht => .of_continue hnext (by simp) ht,
      .inr ⟨rfl, loads_afterMove hne hjob hsteal hplace, hpos⟩⟩

/-- The inner loop ends with the queues as they are, or moves one more job. -/
theorem balance_step {i : ℕ} (hq : ∀ i, (s.threadQueueList i).Sound) (hne : free ≠ busy)
    (hs : s.stage = .testing i free busy) :
    ∃ u : SchedState n, (∀ i, (u.threadQueueList i).Sound) ∧ (∀ t, u.Returns t → s.Returns t) ∧
      (u.stage = .balancing (i + 1) ∧ u.loads = s.loads ∧
          balanced (s.loads busy) (s.loads free) = 0 ∨
        u.stage = .testing i free busy ∧ u.loads = transfer s.loads busy free 1 ∧
          (s.loads free).jobs < (s.loads busy).jobs ∧ 0 < (s.loads busy).stealable) := by
  have htest : (s.threadQueueList free).getTotalWaitTime <
      (s.threadQueueList busy).getTotalWaitTime ↔ (s.loads free).jobs < (s.loads busy).jobs := by
    rw [(hq free).wait_eq, (hq busy).wait_eq]
    exact Nat.mul_lt_mul_left (by decide)
  by_cases hless : (s.loads free).jobs < (s.loads busy).jobs
  · have hmoving : s.rebalance = some { s with stage := .moving i free busy } := by
      simp only [rebalance, hs]
      rw [if_pos (htest.mpr hless)]
    have hroom : (s.threadQueueList free).totalJobsInQueue < queueSize := by
      rw [(hq free).total_eq]
      exact_mod_cast hless.trans_le (s.threadQueueList busy).load_jobs_le
    obtain ⟨u, hu, hreturns, hnext⟩ :=
      move_step (s := { s with stage := .moving i free busy }) hq hne rfl hroom
    have hrest : ∀ t, u.Returns t → s.Returns t := fun t ht =>
      .of_continue hmoving (by simp) (hreturns t ht)
    rcases hnext with ⟨hstage, hsame, hnone⟩ | ⟨hstage, hmoved, hpos⟩
    · have hzero : balanced (s.loads busy) (s.loads free) = 0 :=
        Nat.le_zero.mp ((Nat.min_le_left ..).trans_eq hnone)
      exact ⟨u, hu, hrest, .inl ⟨hstage, hsame, hzero⟩⟩
    · exact ⟨u, hu, hrest, .inr ⟨hstage, hmoved, hless, hpos⟩⟩
  · have hdone : s.rebalance = some { s with stage := .balancing (i + 1) } := by
      simp only [rebalance, hs]
      rw [if_neg (mt htest.mp hless)]
    have hzero : balanced (s.loads busy) (s.loads free) = 0 := by
      rw [balanced, Nat.sub_eq_zero_of_le (not_lt.mp hless)]
      exact Nat.min_zero _
    exact ⟨{ s with stage := .balancing (i + 1) }, hq,
      fun t ht => .of_continue hdone (by simp) ht, .inl ⟨rfl, rfl, hzero⟩⟩

/-- The inner loop evens out two queues as far as the jobs of the busy one allow. -/
theorem balance_queues {i : ℕ} (hq : ∀ i, (s.threadQueueList i).Sound) (hne : free ≠ busy)
    (hs : s.stage = .testing i free busy) :
    ∃ u : SchedState n, u.stage = .balancing (i + 1) ∧ (∀ i, (u.threadQueueList i).Sound) ∧
      u.loads = transfer s.loads busy free (balanced (s.loads busy) (s.loads free)) ∧
      ∀ t, u.Returns t → s.Returns t := by
  generalize hk : (s.loads busy).stealable = k
  induction k generalizing s with
  | zero =>
    obtain ⟨u, hu, hreturns, ⟨hstage, hloads, hzero⟩ | ⟨_, _, _, hpos⟩⟩ := balance_step hq hne hs
    · exact ⟨u, hstage, hu, by rw [hloads, hzero, transfer_zero], hreturns⟩
    · omega
  | succ k ih =>
    obtain ⟨u, hu, hreturns, ⟨hstage, hloads, hzero⟩ | ⟨hstage, hloads, hless, hpos⟩⟩ :=
      balance_step hq hne hs
    · exact ⟨u, hstage, hu, by rw [hloads, hzero, transfer_zero], hreturns⟩
    · have hsource : u.loads busy = (s.loads busy).less 1 := by
        rw [hloads, transfer, Function.update_of_ne hne.symm, Function.update_self]
      have htarget : u.loads free = (s.loads free).more 1 := by
        rw [hloads, transfer, Function.update_self]
      obtain ⟨v, hv, hsound, hmoved, hrest⟩ := ih hu hstage (by rw [hsource, Load.less, hk]; rfl)
      refine ⟨v, hv, hsound, ?_, fun t ht => hreturns t (hrest t ht)⟩
      rw [hmoved, hsource, htarget, hloads, transfer_add hne.symm]
      congr 1
      simp only [balanced, Load.less, Load.more]
      omega

/-- Between a queue without jobs and the last busy one the inner loop makes a round. -/
theorem round_of_balanced (hq : LastBusy s.loads busy) (hempty : (s.loads free).jobs = 0)
    (hfirst : ∀ i < free, (s.loads i).jobs ≠ 0) (hsteal : 0 < (s.loads busy).stealable)
    (hu : u.loads = transfer s.loads busy free (balanced (s.loads busy) (s.loads free))) :
    Round free busy s.loads u.loads where
  toLastBusy := hq
  empty := by
    have hle := (s.threadQueueList free).load_stealable_le
    exact Load.ext hempty (Nat.le_zero.mp (hempty ▸ hle))
  first := hfirst
  stealable := hsteal
  result := by
    have hbusy := hq.busy
    have hfull : (s.loads busy).jobs ≤ queueSize := (s.threadQueueList busy).load_jobs_le
    have hlump : balanced (s.loads busy) (s.loads free) = (s.loads busy).lump := by
      simp only [queueSize] at hfull
      simp only [balanced, Load.lump, Load.spare, hempty]
      omega
    rw [hu, hlump]

/-- A pass of the loop ends the call, changes nothing, or makes a round. -/
theorem balance_pass {i : ℕ} (hq : ∀ i, (s.threadQueueList i).Sound) (hs : s.stage = .balancing i)
    (hi : i + 1 < n) :
    (Settled s.loads ∧ ∃ u, s.Returns u ∧ u.loads = s.loads) ∨
      ∃ u : SchedState n, u.stage = .balancing (i + 1) ∧ (∀ i, (u.threadQueueList i).Sound) ∧
        (∀ t, u.Returns t → s.Returns t) ∧
        (Settled s.loads ∧ u.loads = s.loads ∨ ∃ free busy, Round free busy s.loads u.loads) := by
  have hlt : (i : ℤ) < (n : ℤ) - 1 := by omega
  cases hfree : getEmptyThreadQueue s.threadQueueList with
  | none =>
    have hstop : s.rebalance = some { s with stage := .idle } := by
      simp only [rebalance, hs, if_pos hlt, hfree]
    exact .inl ⟨.inl (getEmptyThreadQueue_none hq hfree), _, .of_stop hstop rfl, rfl⟩
  | some free =>
    have hfound : s.rebalance = some { s with stage := .freeFound i free } := by
      simp only [rebalance, hs, if_pos hlt, hfree]
    obtain ⟨hempty, hfirst⟩ := getEmptyThreadQueue_some hq hfree
    cases hbusy : getBusiestThreadQueue s.threadQueueList with
    | none =>
      have hstop : rebalance { s with stage := .freeFound i free } =
          some { s with stage := .idle } := by
        simp only [rebalance, hbusy]
      exact .inl ⟨.inr (.inl (getBusiestThreadQueue_none hq hbusy)), _,
        .of_continue hfound (by simp) (.of_stop hstop rfl), rfl⟩
    | some busy =>
      have hlast := getBusiestThreadQueue_some hq hbusy
      have hne : busy ≠ free := by
        rintro rfl
        have hjobs := hlast.busy
        omega
      have htesting : rebalance { s with stage := .freeFound i free } =
          some { s with stage := .testing i free busy } := by
        simp only [rebalance, hbusy, if_neg hne]
      obtain ⟨u, hstage, hu, hloads, hreturns⟩ :=
        balance_queues (s := { s with stage := .testing i free busy }) hq hne.symm rfl
      refine .inr ⟨u, hstage, hu, fun t ht => .of_continue hfound (by simp)
        (.of_continue htesting (by simp) (hreturns t ht)), ?_⟩
      rcases Nat.eq_zero_or_pos (s.loads busy).stealable with hnone | hsteal
      · have hstuck : u.loads = s.loads := by
          have hnothing : balanced (s.loads busy) (s.loads free) = 0 := by
            rw [balanced, hnone, Nat.zero_min]
          exact hloads.trans ((congrArg _ hnothing).trans (transfer_zero s.loads busy free))
        exact .inl ⟨.inr (.inr ⟨busy, hlast, hnone⟩), hstuck⟩
      · exact .inr ⟨free, busy, round_of_balanced hlast hempty hfirst hsteal hloads⟩

/-- While the passes that are left are as many as the idle queues, the call ends as it
was foreseen. -/
theorem returns_as_foreseen {i : ℕ} (hq : ∀ i, (s.threadQueueList i).Sound)
    (hs : s.stage = .balancing i) (hleft : idle s.loads + i < n ∨ Settled s.loads) :
    ∃ t, s.Returns t ∧ (Starved t.loads ↔ Starves s.loads) := by
  generalize hk : n - (i + 1) = k
  induction k generalizing s i with
  | zero =>
    have hstop : s.rebalance = some { s with stage := .idle } := by
      simp only [rebalance, hs]
      rw [if_neg (by omega)]
    have hsettled : Settled s.loads := by
      refine hleft.elim (fun hidle => ?_) id
      have hnone : idle s.loads = 0 := by omega
      rw [idle, Finset.card_eq_zero, Finset.filter_eq_empty_iff] at hnone
      exact .inl fun j => hnone (Finset.mem_univ j)
    exact ⟨_, .of_stop hstop rfl, hsettled.starved_iff⟩
  | succ k ih =>
    rcases balance_pass hq hs (by omega) with
      ⟨hsettled, t, ht, hsame⟩ | ⟨u, hstage, hu, hreturns, ⟨hsettled, hsame⟩ | ⟨free, busy, hround⟩⟩
    · exact ⟨t, ht, by rw [hsame]; exact hsettled.starved_iff⟩
    · obtain ⟨t, ht, hstarved⟩ := ih hu hstage (.inr (by rwa [hsame])) (by omega)
      exact ⟨t, hreturns t ht, by rw [hstarved, hsame]⟩
    · have hidle := hround.idle_eq
      have hpasses := hleft.resolve_right hround.not_settled
      obtain ⟨t, ht, hstarved⟩ := ih hu hstage (.inl (by omega)) (by omega)
      exact ⟨t, hreturns t ht, hstarved.trans hround.starves_iff.symm⟩

/-- The first pass has enough passes before it, or no queue is to be balanced. -/
theorem idle_lt_or_settled (x : Fin n → Load) : idle x < n ∨ Settled x := by
  by_cases hall : ∀ i, (x i).jobs = 0
  · right
    right
    left
    intro i
    rw [hall i]
    exact Nat.zero_lt_two
  · left
    push Not at hall
    obtain ⟨i, hi⟩ := hall
    have hproper : (Finset.univ.filter fun i => (x i).jobs = 0) ⊂ Finset.univ :=
      Finset.filter_ssubset.mpr ⟨i, Finset.mem_univ i, hi⟩
    have hless := Finset.card_lt_card hproper
    rwa [Finset.card_univ, Fintype.card_fin] at hless

/-- A call returns, and it ends as it was foreseen. -/
theorem exists_returns (hs : s.stage = .idle) (hq : ∀ i, (s.threadQueueList i).Sound) :
    ∃ t, s.Returns t ∧ (Starved t.loads ↔ Starves s.loads) := by
  by_cases hslots : getTotalEmptySlots s.threadQueueList ≤ 0
  · have hstop : s.rebalance = some s := by
      simp only [rebalance, hs, if_pos hslots]
    have hbusy : ∀ i, (s.loads i).jobs ≠ 0 := by
      intro i hzero
      have hfull := full_of_noEmptySlots hq hslots i
      rw [(hq i).total_eq, show (s.threadQueueList i).load.jobs = 0 from hzero] at hfull
      exact absurd hfull (by decide)
    have hsettled : Settled s.loads := .inl hbusy
    exact ⟨s, .of_stop hstop hs, hsettled.starved_iff⟩
  · have hbalancing : s.rebalance = some { s with stage := .balancing 0 } := by
      simp only [rebalance, hs, if_neg hslots]
    obtain ⟨t, ht, hstarved⟩ := returns_as_foreseen (s := { s with stage := .balancing 0 }) hq rfl
      (idle_lt_or_settled s.loads)
    exact ⟨t, .of_continue hbalancing (by simp) ht, hstarved⟩

/-- A call of `rebalance_thread_queues` returns, and it leaves no queue idle beside jobs
that could be moved unless the loads tell that it will. -/
theorem feedsIdle_iff (s : SchedState n) (hs : s.stage = .idle)
    (hq : ∀ i, (s.threadQueueList i).Sound) :
    (∃ t, s.Returns t) ∧ ∀ t, s.Returns t → (t.FeedsIdle ↔ ¬ Starves s.loads) := by
  obtain ⟨t, ht, hstarved⟩ := exists_returns hs hq
  constructor
  · exact ⟨t, ht⟩
  · intro u hu
    rw [← ht.unique hu, feedsIdle_iff_not_starved]
    exact not_congr hstarved

/-- A queue without jobs, one with two jobs that wait, and one with two others. -/
def pairsOfJobs (last : QueueJob) : SchedState 3 :=
  let queue := ThreadQueue.new fun _ => none
  let pair (job : QueueJob) := (queue.place 0 job).place 1 job
  ofQueues ![queue, pair (.new (.registered 0 ⟨1, true, true, true, true⟩ .lowPriority)), pair last]

theorem sound_pairsOfJobs {last : QueueJob} (hlast : last.cpuSliceMs = 0) (i : Fin 3) :
    ((pairsOfJobs last).threadQueueList i).Sound := by
  have hnew := ThreadQueue.sound_new fun _ => none
  fin_cases i
  · exact hnew
  · exact (hnew.place rfl rfl).place rfl rfl
  · exact (hnew.place rfl hlast).place rfl hlast

/-- A job that waits, and the same job after its first run. -/
def waitingJob : QueueJob := .new (.registered 1 ⟨1, true, true, true, true⟩ .lowPriority)

def runningJob : QueueJob := waitingJob.setJobStatus .running

theorem feedsIdle_waitingJobs : (∃ t, (pairsOfJobs waitingJob).Returns t) ∧
    ∀ t, (pairsOfJobs waitingJob).Returns t → t.FeedsIdle := by
  obtain ⟨hreturn, hfeeds⟩ := feedsIdle_iff (pairsOfJobs waitingJob) rfl (sound_pairsOfJobs rfl)
  exact ⟨hreturn, fun t ht => (hfeeds t ht).mpr (by decide)⟩

/-- The jobs that wait stay where they are, and the first thread stays idle. -/
theorem not_feedsIdle_runningJobs : ¬ ∀ s : SchedState 3, s.stage = .idle →
    (∀ i, (s.threadQueueList i).Sound) → ∀ t, s.Returns t → t.FeedsIdle := by
  intro h
  have hloads : ((pairsOfJobs runningJob).rebalanceThreadQueues 20).map
      (fun t => (t.loads 0, t.loads 1)) = some (⟨0, 0⟩, ⟨2, 2⟩) := by decide
  obtain ⟨t, ht, hpair⟩ := Option.map_eq_some_iff.mp hloads
  obtain ⟨hidle, hbusy⟩ := Prod.mk.inj hpair
  have hfeeds := h _ rfl (sound_pairsOfJobs rfl) t ⟨20, ht⟩
  rw [feedsIdle_iff_not_starved] at hfeeds
  exact hfeeds ⟨⟨0, by rw [hidle]⟩, 1, by rw [hbusy]; decide⟩

end SchedState

end WorkerUnit
