import Mathlib.Data.List.ReduceOption
import WorkerUnit.Library.StableQueue
import WorkerUnit.Scheduler.PoolOrder

/-!
# The task pool as a stable priority queue

`pushTask` ages the tasks it goes ahead of, but what a task waits for stays as it
was pushed. Any sequence of calls serves the tasks as a queue would that looks
for the earliest arrival of the largest priority value.
-/

namespace WorkerUnit

open StableQueue

/-- What a task in the pool waits with: its process and its priority. -/
abbrev WaitingTask := ProcessTable × TaskPriority

def TaskData.waiting (task : TaskData) : WaitingTask := (task.procTable, task.poolPriority)

def WaitingTask.value (task : WaitingTask) : ℕ := task.2.value

inductive PoolCall where
  | pushTask (taskData : TaskData)
  | popTask
  deriving DecidableEq

/-- The pool, the tasks pushed so far, and what the calls of `popTask` gave. -/
structure PoolCalls where
  taskSink : TaskPool
  pushed : List WaitingTask
  popped : List (Option WaitingTask)
  deriving DecidableEq

namespace PoolCalls

def start : PoolCalls := ⟨[], [], []⟩

def call (s : PoolCalls) : PoolCall → PoolCalls
  | .pushTask taskData =>
    { s with taskSink := s.taskSink.pushTask taskData, pushed := s.pushed ++ [taskData.waiting] }
  | .popTask =>
    match s.taskSink.popTask with
    | none => { s with popped := s.popped ++ [none] }
    | some (task, rest) => { s with taskSink := rest, popped := s.popped ++ [some task.waiting] }

/-- The tasks that wait in the order in which they were pushed. -/
def arrive (waiting : List WaitingTask) : PoolCall → List WaitingTask
  | .pushTask taskData => waiting ++ [taskData.waiting]
  | .popTask => serve WaitingTask.value waiting

/-- The pool is sorted, holds the tasks that wait with equal priorities in the
order of the pushes, has lost and copied none, and pops the earliest pushed task
of the largest priority value. -/
structure Stable (s : PoolCalls) (waiting : List WaitingTask) : Prop where
  sorted : s.taskSink.Sorted
  pushOrder : ∀ p, (s.taskSink.filter (·.poolPriority = p)).map TaskData.waiting =
    waiting.filter (·.2 = p)
  sublist : waiting.Sublist s.pushed
  accounted : s.pushed.Perm (s.popped.reduceOption ++ s.taskSink.map TaskData.waiting)
  fails : s.taskSink.popTask = none ↔ s.taskSink = []
  serves : ∀ task rest, s.taskSink.popTask = some (task, rest) →
    next? WaitingTask.value waiting = some task.waiting

@[simp] theorem overtaken_waiting (task : TaskData) : task.overtaken.waiting = task.waiting := by
  simp [TaskData.waiting]

/-- The pool holds the tasks that wait, and every pushed task waits or was popped. -/
structure Kept (s : PoolCalls) (waiting : List WaitingTask) : Prop where
  holds : Holds WaitingTask.value (s.taskSink.map TaskData.waiting) waiting
  sublist : waiting.Sublist s.pushed
  accounted : s.pushed.Perm (s.popped.reduceOption ++ s.taskSink.map TaskData.waiting)

variable {s : PoolCalls} {waiting : List WaitingTask}

theorem kept_start : start.Kept [] := ⟨holds_nil, .slnil, .nil⟩

theorem Kept.call (h : s.Kept waiting) (c : PoolCall) : (s.call c).Kept (arrive waiting c) := by
  cases c with
  | pushTask taskData =>
    have hholds : Holds WaitingTask.value
        ((s.taskSink.pushTask taskData).map TaskData.waiting) (waiting ++ [taskData.waiting]) := by
      rw [TaskPool.map_pushTask _ WaitingTask.value overtaken_waiting fun _ => rfl]
      exact h.holds.enqueue taskData.waiting
    have hsame : ((s.taskSink.map TaskData.waiting) ++ [taskData.waiting]).Perm
        ((s.taskSink.pushTask taskData).map TaskData.waiting) :=
      (h.holds.perm.append_right _).trans hholds.perm.symm
    refine ⟨hholds, h.sublist.append_right _, (h.accounted.append_right _).trans ?_⟩
    rw [List.append_assoc]
    exact hsame.append_left _
  | popTask =>
    cases hpool : s.taskSink with
    | nil =>
      have hwaiting : waiting = [] := h.holds.nil_iff.mp (by simp [hpool])
      have hcall : s.call .popTask = { s with popped := s.popped ++ [none] } := by
        simp [PoolCalls.call, hpool, TaskPool.popTask]
      have haccounted := h.accounted
      subst hwaiting
      rw [hcall]
      refine ⟨h.holds, List.nil_sublist _, ?_⟩
      simpa [List.reduceOption_append] using haccounted
    | cons task rest =>
      have hcall : s.call .popTask =
          { s with taskSink := rest, popped := s.popped ++ [some task.waiting] } := by
        simp [PoolCalls.call, hpool, TaskPool.popTask]
      have hholds := h.holds
      have haccounted := h.accounted
      rw [hpool, List.map_cons] at hholds haccounted
      rw [hcall]
      refine ⟨hholds.front.2, List.eraseP_sublist.trans h.sublist, ?_⟩
      simpa [List.reduceOption_append, List.reduceOption_singleton] using haccounted

/-- What a pool that holds the waiting tasks is like. -/
theorem Kept.stable (h : s.Kept waiting) : s.Stable waiting where
  sorted := List.pairwise_map.mp h.holds.sorted
  pushOrder p := by
    have hvalue : ∀ task : WaitingTask, task.value = p.value ↔ task.2 = p :=
      fun _ => PoolRun.value_injective.eq_iff
    have halike := h.holds.alike p.value
    simp only [hvalue, List.filter_map] at halike
    exact halike
  sublist := h.sublist
  accounted := h.accounted
  fails := by cases s.taskSink <;> simp [TaskPool.popTask]
  serves task rest hpop := by
    have hholds := h.holds
    cases hpool : s.taskSink with
    | nil => simp [hpool, TaskPool.popTask] at hpop
    | cons front others =>
      simp only [hpool, TaskPool.popTask, Option.some.injEq, Prod.mk.injEq] at hpop
      rw [hpool, List.map_cons, hpop.1] at hholds
      exact hholds.front.1

theorem kept_calls (calls : List PoolCall) :
    (calls.foldl call start).Kept (calls.foldl arrive []) := by
  induction calls using List.reverseRecOn with
  | nil => exact kept_start
  | append_singleton calls c ih =>
    rw [List.foldl_append, List.foldl_append]
    exact ih.call c

/-- After any sequence of calls the pool is a stable priority queue. -/
theorem stable_calls (calls : List PoolCall) :
    (calls.foldl call start).Stable (calls.foldl arrive []) := (kept_calls calls).stable

end PoolCalls

end WorkerUnit
