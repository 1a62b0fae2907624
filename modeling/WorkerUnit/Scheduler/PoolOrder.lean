import WorkerUnit.Library.StableQueue
import WorkerUnit.Library.StepSystem
import WorkerUnit.Scheduler.TaskPool

/-!
# The order of the task pool

`pushTask` keeps the pool sorted with the largest priority value in front, while
the documented order gives the most urgent class the smallest value. A task that
leaves the pool is the most urgent one exactly when all waiting tasks have the
same priority.
-/

namespace WorkerUnit

open StepSystem

namespace TaskPool

/-- The tasks that keep their place when a task of this priority is pushed. -/
def kept (taskSink : TaskPool) (poolPriority : TaskPriority) : TaskPool :=
  taskSink.takeWhile fun task => !decide (task.poolPriority.value < poolPriority.value)

/-- The tasks that a task of this priority is inserted ahead of. -/
def passed (taskSink : TaskPool) (poolPriority : TaskPriority) : TaskPool :=
  taskSink.dropWhile fun task => !decide (task.poolPriority.value < poolPriority.value)

@[simp] theorem overtaken_poolPriority (task : TaskData) :
    task.overtaken.poolPriority = task.poolPriority := by
  unfold TaskData.overtaken
  split_ifs <;> rfl

theorem kept_append_passed (taskSink : TaskPool) (poolPriority : TaskPriority) :
    taskSink.kept poolPriority ++ taskSink.passed poolPriority = taskSink :=
  List.takeWhile_append_dropWhile

/-- The new task goes between the tasks that keep their place and the others. -/
theorem pushTask_eq (taskSink : TaskPool) (taskData : TaskData) :
    taskSink.pushTask taskData = taskSink.kept taskData.poolPriority ++
      taskData :: (taskSink.passed taskData.poolPriority).map TaskData.overtaken := by
  induction taskSink with
  | nil => rfl
  | cons task rest ih =>
    by_cases hlt : task.poolPriority.value < taskData.poolPriority.value
    · simp [pushTask, kept, passed, hlt]
    · simpa [pushTask, kept, passed, hlt] using ih

/-- The largest priority value is in front. -/
def Sorted (taskSink : TaskPool) : Prop :=
  taskSink.Pairwise fun a b => b.poolPriority.value ≤ a.poolPriority.value

/-- To what the aging leaves alone, `pushTask` is an insertion. -/
theorem map_pushTask {γ : Type*} (f : TaskData → γ) (value : γ → ℕ)
    (hf : ∀ task : TaskData, f task.overtaken = f task)
    (hvalue : ∀ task, value (f task) = task.poolPriority.value) (taskSink : TaskPool)
    (taskData : TaskData) :
    (taskSink.pushTask taskData).map f =
      StableQueue.enqueue value (f taskData) (taskSink.map f) := by
  induction taskSink with
  | nil => rfl
  | cons task rest ih =>
    by_cases hlt : task.poolPriority.value < taskData.poolPriority.value
    · simp [pushTask, StableQueue.enqueue, hvalue, hlt, hf, Function.comp_def]
    · simp [pushTask, StableQueue.enqueue, hvalue, hlt, ih]

theorem Sorted.pushTask {taskSink : TaskPool} (h : taskSink.Sorted) (taskData : TaskData) :
    (taskSink.pushTask taskData).Sorted := by
  have hsorted : StableQueue.Sorted TaskPriority.value (taskSink.map (·.poolPriority)) :=
    List.pairwise_map.mpr h
  have hpush := hsorted.enqueue taskData.poolPriority
  rw [← map_pushTask (·.poolPriority) TaskPriority.value overtaken_poolPriority fun _ => rfl]
    at hpush
  exact List.pairwise_map.mp hpush

end TaskPool

/-- The pool, and the number of process tables allocated so far. -/
structure PoolRun where
  taskPool : TaskPool
  allocated : ℕ
  deriving DecidableEq

inductive PoolEvent where
  | scheduleTask (newProc : ProcessStates) (args : Option Unit) (priority : TaskPriority)
      (starveCounter : ℕ)
  | getScheduledTask
  deriving DecidableEq

namespace PoolRun

def start : PoolRun := ⟨[], 0⟩

/-- A call that fails leaves the pool as it is. -/
def poolStep (s : PoolRun) : PoolEvent → Option PoolRun
  | .scheduleTask newProc args priority starveCounter =>
    match scheduleTask s.taskPool s.allocated starveCounter newProc args priority with
    | none => some s
    | some taskPool => some ⟨taskPool, s.allocated + 1⟩
  | .getScheduledTask =>
    match s.taskPool.popTask with
    | none => some s
    | some (_, taskPool) => some { s with taskPool := taskPool }

/-- The documented order: `NON_PREEMTABLE` is the most urgent class. -/
def UrgentAs (a b : TaskData) : Prop := a.poolPriority.value ≤ b.poolPriority.value

instance (a b : TaskData) : Decidable (UrgentAs a b) := inferInstanceAs (Decidable (_ ≤ _))

/-- A task that `getScheduledTask` returns is as urgent as every task left. -/
def ServesUrgent (s : PoolRun) (e : PoolEvent) : Prop :=
  e = .getScheduledTask → ∀ task rest, s.taskPool.popTask = some (task, rest) →
    ∀ waiting ∈ rest, UrgentAs task waiting

/-- When `getScheduledTask` is called, all waiting tasks have one priority. -/
def OnePriority (s : PoolRun) (e : PoolEvent) : Prop :=
  e = .getScheduledTask →
    ∀ a ∈ s.taskPool, ∀ b ∈ s.taskPool, a.poolPriority = b.poolPriority

variable {s t : PoolRun} {e : PoolEvent}

theorem sorted_start : start.taskPool.Sorted := List.Pairwise.nil

theorem sorted_step (hs : s.taskPool.Sorted) (ht : s.poolStep e = some t) : t.taskPool.Sorted := by
  cases e with
  | scheduleTask newProc args priority starveCounter =>
    simp only [poolStep, scheduleTask] at ht
    split_ifs at ht
    · cases ht
      exact hs.pushTask _
    · cases ht
      exact hs
  | getScheduledTask =>
    cases hpool : s.taskPool with
    | nil =>
      simp only [poolStep, hpool, TaskPool.popTask, Option.some.injEq] at ht
      exact ht ▸ hs
    | cons task rest =>
      simp only [poolStep, hpool, TaskPool.popTask, Option.some.injEq] at ht
      subst ht
      rw [hpool] at hs
      exact (List.pairwise_cons.mp hs).2

theorem value_injective : Function.Injective TaskPriority.value := by
  intro a b h
  cases a <;> cases b <;> first | rfl | cases h

/-- The front of a sorted pool is as urgent as the rest when nothing differs. -/
theorem servesUrgent_iff_onePriority (hs : s.taskPool.Sorted) (e : PoolEvent) :
    s.ServesUrgent e ↔ s.OnePriority e := by
  apply imp_congr_right
  intro _
  cases hpool : s.taskPool with
  | nil => simp [TaskPool.popTask]
  | cons task rest =>
    rw [hpool] at hs
    have hfront := (List.pairwise_cons.mp hs).1
    constructor
    · intro hurgent
      have hsame : ∀ x ∈ task :: rest, x.poolPriority = task.poolPriority := by
        intro x hx
        rcases List.mem_cons.mp hx with rfl | hx
        · rfl
        · exact value_injective (le_antisymm (hfront x hx) (hurgent task rest rfl x hx))
      intro a ha b hb
      rw [hsame a ha, hsame b hb]
    · rintro hone _ _ ⟨⟩ waiting hwaiting
      have hsame := hone task (List.mem_cons_self ..) waiting (List.mem_cons_of_mem _ hwaiting)
      exact (congrArg TaskPriority.value hsame).le

/-- In every run, `getScheduledTask` serves the most urgent task at each call
exactly when the waiting tasks have one priority at each call. -/
theorem servesUrgent_iff (events : List PoolEvent) :
    Guarded poolStep ServesUrgent start events ↔ Guarded poolStep OnePriority start events :=
  guarded_congr (fun _ _ _ hs ht => sorted_step hs ht)
    (fun _ e hs => servesUrgent_iff_onePriority hs e) sorted_start events

/-- A receiver task waits while a task of low priority is served. -/
theorem not_servesUrgent_lowFirst : ¬ ∀ events, Guarded poolStep ServesUrgent start events := by
  intro h
  have hrun := h [.scheduleTask ⟨1, true, false, true, true⟩ (some ()) .nonPreemtable 0,
    .scheduleTask ⟨4, true, true, true, false⟩ (some ()) .lowPriority 0, .getScheduledTask]
  have hserved := ((hrun.2 _ rfl).2 _ rfl).1 rfl _ _ rfl _ (List.mem_singleton_self _)
  exact absurd hserved (by decide)

end PoolRun

end WorkerUnit
