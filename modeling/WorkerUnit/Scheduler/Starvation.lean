import Mathlib.Data.List.TakeWhile
import WorkerUnit.Scheduler.PoolOrder

/-!
# Overtaking in the task pool

Each insertion counts for the tasks it is made ahead of. `pushTask` ages these
tasks, but the promotion of a starved task changes nothing except its counter,
so a task can be overtaken without bound.
-/

namespace WorkerUnit

open StepSystem

/-- `overtakes` counts, by the number of its process table, the insertions made
ahead of a task since it was pushed. -/
structure AgingRun where
  taskPool : TaskPool
  allocated : ℕ
  overtakes : ℕ → ℕ

inductive AgingEvent where
  | pushTask (processState : ProcessStates) (poolPriority : TaskPriority)
  | popTask
  deriving DecidableEq

namespace AgingRun

def start : AgingRun := ⟨[], 0, fun _ => 0⟩

/-- The addresses of the tasks that an insertion is made ahead of. -/
def passedAddresses (s : AgingRun) (poolPriority : TaskPriority) : List ℕ :=
  (s.taskPool.passed poolPriority).map (·.procTable.address)

/-- The counter of a new task starts at zero. -/
def agingStep (s : AgingRun) : AgingEvent → Option AgingRun
  | .pushTask processState poolPriority =>
    some
      { taskPool := s.taskPool.pushTask
          ⟨.registered s.allocated processState poolPriority, poolPriority, 0⟩
        allocated := s.allocated + 1
        overtakes := fun address => s.overtakes address +
          if address ∈ s.passedAddresses poolPriority then 1 else 0 }
  | .popTask =>
    match s.taskPool.popTask with
    | none => some s
    | some (_, taskPool) => some { s with taskPool := taskPool }

/-- No waiting task has been overtaken more than `bound` times. -/
def OvertakenAtMost (bound : ℕ) (s : AgingRun) : Prop :=
  ∀ task ∈ s.taskPool, s.overtakes task.procTable.address ≤ bound

/-- The insertion passes no task whose counter is over its limit. -/
def PassesNoStarved (s : AgingRun) (e : AgingEvent) : Prop :=
  ∀ processState poolPriority, e = .pushTask processState poolPriority →
    ∀ task ∈ s.taskPool.passed poolPriority,
      ¬ task.starveCounter > getStarveLimit task.starveCounter

/-- As long as no counter was over its limit, it is the number of overtakings. -/
structure Counted (s : AgingRun) : Prop where
  nodup : (s.taskPool.map (·.procTable.address)).Nodup
  address_lt : ∀ task ∈ s.taskPool, task.procTable.address < s.allocated
  fresh : ∀ address, s.allocated ≤ address → s.overtakes address = 0
  counter : ∀ task ∈ s.taskPool, task.starveCounter = s.overtakes task.procTable.address
  counter_le : ∀ task ∈ s.taskPool, task.starveCounter ≤ 4

variable {s t : AgingRun}

theorem counted_start : start.Counted where
  nodup := List.nodup_nil
  address_lt := nofun
  fresh := fun _ _ => rfl
  counter := nofun
  counter_le := nofun

/-- The limit of a counter is its own entry of the table, so the first counter
over its limit is four. -/
theorem starved_iff {c : ℕ} (hc : c ≤ 4) : c > getStarveLimit c ↔ c = 4 := by
  interval_cases c <;> decide

theorem overtaken_of_not_starved {task : TaskData} (hle : task.starveCounter ≤ 4)
    (h : ¬ task.starveCounter > getStarveLimit task.starveCounter) :
    task.overtaken.starveCounter = task.starveCounter + 1 ∧ task.starveCounter + 1 ≤ 4 := by
  have hne : task.starveCounter ≠ 4 := fun he => h ((starved_iff hle).mpr he)
  rw [TaskData.overtaken, if_neg h]
  dsimp only
  omega

theorem mem_passed {taskSink : TaskPool} {poolPriority : TaskPriority} {task : TaskData}
    (h : task ∈ taskSink.passed poolPriority) : task ∈ taskSink :=
  (List.dropWhile_suffix _).subset h

theorem mem_passedAddresses {poolPriority : TaskPriority} {task : TaskData}
    (h : task ∈ s.taskPool.passed poolPriority) :
    task.procTable.address ∈ s.passedAddresses poolPriority :=
  List.mem_map.mpr ⟨task, h, rfl⟩

/-- A task that keeps its place is not among the passed ones. -/
theorem Counted.kept_notMem (h : s.Counted) {poolPriority : TaskPriority} {task : TaskData}
    (ht : task ∈ s.taskPool.kept poolPriority) :
    task.procTable.address ∉ s.passedAddresses poolPriority := by
  have hnodup := h.nodup
  rw [← TaskPool.kept_append_passed s.taskPool poolPriority, List.map_append] at hnodup
  exact fun hmem => (List.nodup_append.mp hnodup).2.2 _ (List.mem_map_of_mem ht) _ hmem rfl

theorem Counted.new_notMem (h : s.Counted) (poolPriority : TaskPriority) :
    s.allocated ∉ s.passedAddresses poolPriority := by
  intro hmem
  obtain ⟨task, htask, haddress⟩ := List.mem_map.mp hmem
  have hlt := h.address_lt task (mem_passed htask)
  omega

theorem Counted.nodup_pushTask (h : s.Counted) (processState : ProcessStates)
    (poolPriority : TaskPriority) :
    ((s.taskPool.pushTask ⟨.registered s.allocated processState poolPriority, poolPriority, 0⟩).map
      (·.procTable.address)).Nodup := by
  have hperm := (TaskPool.procTables_pushTask s.taskPool
    ⟨.registered s.allocated processState poolPriority, poolPriority, 0⟩).map (·.address)
  have hmap : ∀ pool : TaskPool, pool.procTables.map (·.address) =
      pool.map (·.procTable.address) := by
    intro pool
    rw [TaskPool.procTables, List.map_map]
    rfl
  rw [List.map_cons, hmap, hmap] at hperm
  refine hperm.nodup_iff.mpr (List.nodup_cons.mpr ⟨?_, h.nodup⟩)
  intro hmem
  obtain ⟨task, htask, haddress⟩ := List.mem_map.mp hmem
  exact absurd (h.address_lt task htask) (by simp [haddress, ProcessTable.registered])

/-- What is in the pool after a push that passes no starved task. -/
theorem Counted.pushTask (h : s.Counted) {processState : ProcessStates}
    {poolPriority : TaskPriority}
    (hstarved : s.PassesNoStarved (.pushTask processState poolPriority))
    (ht : s.agingStep (.pushTask processState poolPriority) = some t) : t.Counted := by
  have hnodup := h.nodup_pushTask processState poolPriority
  simp only [agingStep, Option.some.injEq] at ht
  subst ht
  have htasks : ∀ task ∈ s.taskPool.pushTask
      ⟨.registered s.allocated processState poolPriority, poolPriority, 0⟩,
      task.procTable.address < s.allocated + 1 ∧ task.starveCounter ≤ 4 ∧
        task.starveCounter = s.overtakes task.procTable.address +
          if task.procTable.address ∈ s.passedAddresses poolPriority then 1 else 0 := by
    intro task htask
    rw [TaskPool.pushTask_eq] at htask
    rcases List.mem_append.mp htask with hkept | hrest
    · have hold : task ∈ s.taskPool := List.takeWhile_subset _ hkept
      have hlt := h.address_lt task hold
      refine ⟨by omega, h.counter_le task hold, ?_⟩
      rw [if_neg (h.kept_notMem hkept), h.counter task hold, Nat.add_zero]
    · rcases List.mem_cons.mp hrest with rfl | hpassed
      · refine ⟨Nat.lt_succ_self _, Nat.zero_le _, ?_⟩
        simp [ProcessTable.registered, h.new_notMem poolPriority, h.fresh _ le_rfl]
      · obtain ⟨old, hold, rfl⟩ := List.mem_map.mp hpassed
        have hmem := mem_passed hold
        obtain ⟨hnext, hle⟩ := overtaken_of_not_starved (h.counter_le old hmem)
          (hstarved processState poolPriority rfl old hold)
        have hlt := h.address_lt old hmem
        rw [TaskPool.overtaken_procTable, hnext, if_pos (mem_passedAddresses hold),
          ← h.counter old hmem]
        omega
  refine ⟨hnodup, fun task htask => (htasks task htask).1, ?_,
    fun task htask => (htasks task htask).2.2, fun task htask => (htasks task htask).2.1⟩
  intro address hle
  dsimp only at hle ⊢
  have hnot : address ∉ s.passedAddresses poolPriority := by
    intro hmem
    obtain ⟨task, htask, haddress⟩ := List.mem_map.mp hmem
    have hlt := h.address_lt task (mem_passed htask)
    omega
  rw [if_neg hnot, h.fresh address (by omega)]

/-- A starved task that is passed has been overtaken five times. -/
theorem Counted.passesNoStarved (h : s.Counted) {processState : ProcessStates}
    {poolPriority : TaskPriority} (ht : s.agingStep (.pushTask processState poolPriority) = some t)
    (hle : t.OvertakenAtMost 4) : s.PassesNoStarved (.pushTask processState poolPriority) := by
  rintro _ _ ⟨⟩ task hpassed hstarved
  simp only [agingStep, Option.some.injEq] at ht
  subst ht
  have hmem := mem_passed hpassed
  have hfour := (starved_iff (h.counter_le task hmem)).mp hstarved
  have hnew : task.overtaken ∈ s.taskPool.pushTask
      ⟨.registered s.allocated processState poolPriority, poolPriority, 0⟩ := by
    rw [TaskPool.pushTask_eq]
    exact List.mem_append_right _ (List.mem_cons_of_mem _ (List.mem_map_of_mem hpassed))
  have hbound := hle _ hnew
  simp only [TaskPool.overtaken_procTable] at hbound
  rw [if_pos (mem_passedAddresses hpassed), ← h.counter task hmem, hfour] at hbound
  omega

theorem Counted.popTask (h : s.Counted) (ht : s.agingStep .popTask = some t) : t.Counted := by
  cases hpool : s.taskPool with
  | nil =>
    simp only [agingStep, hpool, TaskPool.popTask, Option.some.injEq] at ht
    exact ht ▸ h
  | cons task rest =>
    simp only [agingStep, hpool, TaskPool.popTask, Option.some.injEq] at ht
    subst ht
    have hsub : ∀ x ∈ rest, x ∈ s.taskPool := fun x hx => hpool ▸ List.mem_cons_of_mem _ hx
    have hnodup := h.nodup
    rw [hpool] at hnodup
    exact ⟨(List.nodup_cons.mp hnodup).2, fun x hx => h.address_lt x (hsub x hx), h.fresh,
      fun x hx => h.counter x (hsub x hx), fun x hx => h.counter_le x (hsub x hx)⟩

theorem Counted.overtakenAtMost (h : s.Counted) : s.OvertakenAtMost 4 := by
  intro task htask
  rw [← h.counter task htask]
  exact h.counter_le task htask

theorem Counted.step (h : s.Counted) {e : AgingEvent} (ht : s.agingStep e = some t) :
    (t.OvertakenAtMost 4 ↔ s.PassesNoStarved e) ∧ (s.PassesNoStarved e → t.Counted) := by
  cases e with
  | pushTask processState poolPriority =>
    exact step_iff_of_kept (fun ht => ht.overtakenAtMost) (h.passesNoStarved ht)
      fun hg => h.pushTask hg ht
  | popTask =>
    exact step_iff_of_met (fun ht => ht.overtakenAtMost) nofun (h.popTask ht)

theorem exec_agingStep (events : List AgingEvent) : ∃ s, exec agingStep start events = some s := by
  apply exec_total
  intro s e
  cases e with
  | pushTask processState poolPriority => exact ⟨_, rfl⟩
  | popTask => cases h : s.taskPool <;> simp [agingStep, h, TaskPool.popTask]

/-- In every state of a run no waiting task has been overtaken more than four
times, exactly when no push passes a task whose counter is over its limit. -/
theorem overtaking_bounded_iff (events : List AgingEvent) :
    Always agingStep (OvertakenAtMost 4) start events ↔
      Guarded agingStep PassesNoStarved start events := by
  obtain ⟨s, hs⟩ := exec_agingStep events
  exact always_iff_guarded (fun _ h => h.overtakenAtMost) (fun _ _ _ h ht => h.step ht)
    counted_start hs

/-- A receiver task and `k` compute tasks of high priority. -/
def overtakenTimes (k : ℕ) : List AgingEvent :=
  .pushTask ⟨1, true, false, true, true⟩ .nonPreemtable ::
    List.replicate k (.pushTask ⟨4, true, true, true, false⟩ .highPriority)

/-- A waiting task of a smaller priority value is passed. -/
theorem mem_passed_of_lt {taskSink : TaskPool} {poolPriority : TaskPriority} {task : TaskData}
    (h : task ∈ taskSink) (hlt : task.poolPriority.value < poolPriority.value) :
    task ∈ taskSink.passed poolPriority := by
  rw [← taskSink.kept_append_passed poolPriority] at h
  refine (List.mem_append.mp h).resolve_left fun hkept => ?_
  simpa [hlt] using List.mem_takeWhile_imp hkept

theorem exec_overtakenTimes (k : ℕ) :
    ∃ s, exec agingStep start (overtakenTimes k) = some s ∧
      ∃ task ∈ s.taskPool, task.poolPriority = .nonPreemtable ∧
        s.overtakes task.procTable.address = k := by
  induction k with
  | zero => exact ⟨_, rfl, _, List.mem_singleton_self _, rfl, rfl⟩
  | succ k ih =>
    obtain ⟨s, hs, task, htask, hpriority, hcount⟩ := ih
    have hevents : overtakenTimes (k + 1) =
        overtakenTimes k ++ [.pushTask ⟨4, true, true, true, false⟩ .highPriority] := by
      simp [overtakenTimes, List.replicate_succ']
    have hlt : task.poolPriority.value < TaskPriority.highPriority.value := by
      rw [hpriority]
      decide
    have hpassed := mem_passed_of_lt htask hlt
    refine ⟨_, hevents ▸ exec_snoc hs rfl, task.overtaken, ?_, ?_, ?_⟩
    · rw [TaskPool.pushTask_eq]
      exact List.mem_append_right _ (List.mem_cons_of_mem _ (List.mem_map_of_mem hpassed))
    · rw [TaskPool.overtaken_poolPriority, hpriority]
    · dsimp only
      rw [TaskPool.overtaken_procTable, if_pos (mem_passedAddresses hpassed), hcount]

/-- The receiver task is overtaken by every compute task. -/
theorem not_overtaking_bounded :
    ¬ ∃ bound, ∀ events, Always agingStep (OvertakenAtMost bound) start events := by
  rintro ⟨bound, h⟩
  obtain ⟨s, hs, task, htask, _, hcount⟩ := exec_overtakenTimes (bound + 1)
  have hle := h _ _ s (List.prefix_refl _) hs task htask
  omega

end AgingRun

end WorkerUnit
