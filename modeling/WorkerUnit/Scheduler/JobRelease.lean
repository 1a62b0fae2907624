import WorkerUnit.Library.StepSystem
import WorkerUnit.Scheduler.ThreadQueue

/-!
# The release of completed jobs

A completed job leaves its slot free for the next one, but it is deleted only when
the scheduler flushes the queue. The jobs that a queue accepts are numbered in the
order in which it accepts them; the constructor leaves pointers in the slots that
are no job's.
-/

namespace WorkerUnit

open StepSystem

/-- What the pointer of a slot refers to: the `k`-th job that the queue accepted, or
whatever the slot held before its queue was constructed. -/
inductive Allocation where
  | uninitialised
  | job (k : ℕ)
  deriving DecidableEq, Repr

/-- A queue with what its pointers refer to, the jobs marked complete so far, and
everything that has been deleted. -/
structure QueueRun where
  queue : ThreadQueue
  allocations : Fin queueSize → Allocation
  added : ℕ
  marked : List ℕ
  deleted : List Allocation

inductive QueueCall where
  | addNewTask (job : QueueJob)
  | popJob
  | getNextTask
  | markTaskAsComplete
  | flushFinishedJobs
  | setJobStatus (slot : Fin queueSize) (status : JobStatus)
  deriving DecidableEq, Repr

namespace QueueRun

def start (jobQueue : Fin queueSize → Option QueueJob) : QueueRun :=
  ⟨.new jobQueue, fun _ => .uninitialised, 0, [], []⟩

/-- What a slot points to; nothing for a null pointer. -/
def held (s : QueueRun) (i : Fin queueSize) : Option Allocation :=
  (s.queue.jobQueue i).map fun _ => s.allocations i

/-- What `flushFinishedJobs` deletes. -/
def flushed (s : QueueRun) : List Allocation :=
  (List.finRange queueSize).filterMap fun i => if s.queue.jobSlotDone i then s.held i else none

/-- One call. The slot that `addNewTask` takes is the first free one, and to mark a
slot that points to no job is undefined. -/
def call (s : QueueRun) : QueueCall → Option QueueRun
  | .addNewTask job =>
    match (List.finRange queueSize).find? s.queue.jobSlotDone with
    | some i => some { s with
        queue := (s.queue.addNewTask (some job)).2
        allocations := Function.update s.allocations i (.job s.added)
        added := s.added + 1 }
    | none => some { s with queue := (s.queue.addNewTask (some job)).2 }
  | .popJob => s.queue.popJob.map fun r => { s with queue := r.2 }
  | .getNextTask => some { s with queue := s.queue.getNextTask.2 }
  | .markTaskAsComplete =>
    match s.held s.queue.head with
    | some (.job k) => some { s with
        queue := s.queue.markTaskAsComplete, marked := s.marked ++ [k] }
    | _ => none
  | .flushFinishedJobs => some { s with
      queue := s.queue.flushFinishedJobs, deleted := s.deleted ++ s.flushed }
  | .setJobStatus slot status => some { s with queue := s.queue.setJobStatus slot status }

/-- Nothing is deleted but jobs that were marked complete, each of them once, and a
job that was marked is deleted or waits for it in its slot, which is free. -/
structure ReleaseLaw (s : QueueRun) : Prop where
  onlyMarked : ∀ a ∈ s.deleted, ∃ k ∈ s.marked, a = .job k
  once : s.deleted.Nodup
  kept : ∀ k ∈ s.marked, .job k ∈ s.deleted ∨
    ∃ i, s.queue.jobSlotDone i = true ∧ s.held i = some (.job k)

/-- A flush finds nothing uninitialised in a free slot, and an addition takes a slot
whose completed job has been deleted. -/
def Releases (s : QueueRun) : QueueCall → Prop
  | .flushFinishedJobs => ∀ i, s.queue.jobSlotDone i = true → s.held i ≠ some .uninitialised
  | .addNewTask _ => ∀ i, (List.finRange queueSize).find? s.queue.jobSlotDone = some i →
      s.held i = none ∨ s.held i = some .uninitialised
  | _ => True

instance (s : QueueRun) (c : QueueCall) : Decidable (s.Releases c) := by
  unfold Releases
  cases c <;> exact inferInstance

end QueueRun

/-- The slots, free or not, with what they point to: a job is in one slot, and a free
slot points to jobs that are complete. -/
structure Released (free : Fin queueSize → Bool) (held : Fin queueSize → Option Allocation)
    (added : ℕ) (marked : List ℕ) (deleted : List Allocation) : Prop where
  fresh : ∀ i k, held i = some (.job k) → k < added
  distinct : ∀ i j k, held i = some (.job k) → held j = some (.job k) → i = j
  complete : ∀ i k, free i = true → held i = some (.job k) → k ∈ marked
  markedFresh : ∀ k ∈ marked, k < added
  onlyMarked : ∀ a ∈ deleted, ∃ k ∈ marked, a = .job k
  once : deleted.Nodup
  gone : ∀ i, ∀ a ∈ deleted, held i ≠ some a
  kept : ∀ k ∈ marked, .job k ∈ deleted ∨ ∃ i, free i = true ∧ held i = some (.job k)

namespace Released

variable {free : Fin queueSize → Bool} {held : Fin queueSize → Option Allocation} {added : ℕ}
  {marked : List ℕ} {deleted : List Allocation} {i : Fin queueSize}

/-- A new job takes a free slot that points to no other job. -/
theorem place (h : Released free held added marked deleted)
    (hi : ∀ k, held i ≠ some (.job k)) :
    Released (Function.update free i false) (Function.update held i (some (.job added)))
      (added + 1) marked deleted := by
  have hslot : ∀ j a, Function.update held i (some (.job added)) j = some a →
      (j = i ∧ a = .job added) ∨ held j = some a := by
    intro j a hj
    rw [Function.update_apply, ite_eq_iff] at hj
    rcases hj with ⟨hji, hj⟩ | ⟨-, hj⟩
    · exact .inl ⟨hji, (Option.some.inj hj).symm⟩
    · exact .inr hj
  have hnew : ∀ j, held j ≠ some (.job added) :=
    fun j hj => lt_irrefl _ (h.fresh j added hj)
  constructor
  · intro j k hj
    rcases hslot j _ hj with ⟨-, hk⟩ | hj
    · cases hk
      exact Nat.lt_succ_self _
    · exact Nat.lt_succ_of_lt (h.fresh j k hj)
  · intro j l k hj hl
    rcases hslot j _ hj with ⟨hji, hk⟩ | hj
    · cases hk
      rcases hslot l _ hl with ⟨hli, -⟩ | hl
      · exact hji.trans hli.symm
      · exact absurd hl (hnew l)
    · rcases hslot l _ hl with ⟨-, hk⟩ | hl
      · cases hk
        exact absurd hj (hnew j)
      · exact h.distinct j l k hj hl
  · intro j k hfree hj
    have hji : j ≠ i := by
      rintro rfl
      simp at hfree
    rw [Function.update_of_ne hji] at hfree hj
    exact h.complete j k hfree hj
  · exact fun k hk => Nat.lt_succ_of_lt (h.markedFresh k hk)
  · exact h.onlyMarked
  · exact h.once
  · intro j a ha hj
    rcases hslot j a hj with ⟨-, rfl⟩ | hj
    · obtain ⟨k, hk, hsame⟩ := h.onlyMarked _ ha
      cases hsame
      exact absurd (h.markedFresh _ hk) (lt_irrefl _)
    · exact h.gone j a ha hj
  · intro k hk
    apply (h.kept k hk).imp_right
    rintro ⟨j, hfree, hj⟩
    have hji : j ≠ i := fun heq => hi k (heq ▸ hj)
    exact ⟨j, by rwa [Function.update_of_ne hji], by rwa [Function.update_of_ne hji]⟩

/-- A job is taken out of a slot that is not free. -/
theorem remove (h : Released free held added marked deleted) (hi : free i = false) :
    Released (Function.update free i true) (Function.update held i none) added marked deleted := by
  have hold : ∀ j a, Function.update held i none j = some a → j ≠ i ∧ held j = some a := by
    intro j a hj
    have hji : j ≠ i := by
      rintro rfl
      simp at hj
    exact ⟨hji, by rwa [Function.update_of_ne hji] at hj⟩
  constructor
  · exact fun j k hj => h.fresh j k (hold j _ hj).2
  · exact fun j l k hj hl => h.distinct j l k (hold j _ hj).2 (hold l _ hl).2
  · intro j k hfree hj
    obtain ⟨hji, hj⟩ := hold j _ hj
    rw [Function.update_of_ne hji] at hfree
    exact h.complete j k hfree hj
  · exact h.markedFresh
  · exact h.onlyMarked
  · exact h.once
  · exact fun j a ha hj => h.gone j a ha (hold j a hj).2
  · intro k hk
    apply (h.kept k hk).imp_right
    rintro ⟨j, hfree, hj⟩
    have hji : j ≠ i := by
      rintro rfl
      rw [hi] at hfree
      cases hfree
    exact ⟨j, by rwa [Function.update_of_ne hji], by rwa [Function.update_of_ne hji]⟩

/-- The job of a slot is marked complete. -/
theorem mark (h : Released free held added marked deleted) {k : ℕ}
    (hi : held i = some (.job k)) :
    Released (Function.update free i true) held added (marked ++ [k]) deleted := by
  constructor
  · exact h.fresh
  · exact h.distinct
  · intro j l hfree hj
    rw [List.mem_append, List.mem_singleton]
    by_cases hji : j = i
    · rw [hji, hi] at hj
      cases hj
      exact .inr rfl
    · rw [Function.update_of_ne hji] at hfree
      exact .inl (h.complete j l hfree hj)
  · intro l hl
    rcases List.mem_append.mp hl with hl | hl
    · exact h.markedFresh l hl
    · rw [List.mem_singleton.mp hl]
      exact h.fresh i k hi
  · intro a ha
    obtain ⟨l, hl, hsame⟩ := h.onlyMarked a ha
    exact ⟨l, List.mem_append_left _ hl, hsame⟩
  · exact h.once
  · exact h.gone
  · intro l hl
    rcases List.mem_append.mp hl with hl | hl
    · apply (h.kept l hl).imp_right
      rintro ⟨j, hfree, hj⟩
      refine ⟨j, ?_, hj⟩
      by_cases hji : j = i
      · rw [hji, Function.update_self]
      · rwa [Function.update_of_ne hji]
    · rw [List.mem_singleton.mp hl]
      exact .inr ⟨i, Function.update_self .., hi⟩

/-- The pointers of the free slots. -/
def freed (free : Fin queueSize → Bool) (held : Fin queueSize → Option Allocation) :
    List Allocation :=
  (List.finRange queueSize).filterMap fun i => if free i then held i else none

theorem mem_freed {a : Allocation} :
    a ∈ freed free held ↔ ∃ i, free i = true ∧ held i = some a := by
  simp [freed, List.mem_filterMap]

/-- Where all of them are jobs, these are complete. -/
theorem exists_marked_of_mem_freed (h : Released free held added marked deleted)
    (hjobs : ∀ i, free i = true → held i ≠ some .uninitialised) {a : Allocation}
    (ha : a ∈ freed free held) : ∃ k ∈ marked, a = .job k := by
  obtain ⟨i, hfree, hi⟩ := mem_freed.mp ha
  cases a with
  | uninitialised => exact absurd hi (hjobs i hfree)
  | job k => exact ⟨k, h.complete i k hfree hi, rfl⟩

theorem nodup_freed (h : Released free held added marked deleted)
    (hjobs : ∀ i, free i = true → held i ≠ some .uninitialised) : (freed free held).Nodup := by
  apply (List.nodup_finRange queueSize).filterMap
  intro i j a hi hj
  have hslot : ∀ i, a ∈ (if free i then held i else none) → free i = true ∧ held i = some a := by
    intro i hi
    cases hfree : free i <;> simp_all
  obtain ⟨hfree, hi⟩ := hslot i hi
  obtain ⟨-, hj⟩ := hslot j hj
  obtain ⟨k, -, rfl⟩ := h.exists_marked_of_mem_freed hjobs (mem_freed.mpr ⟨i, hfree, hi⟩)
  exact h.distinct i j k hi hj

/-- What is in the free slots is deleted, where all of it are jobs. -/
theorem flush (h : Released free held added marked deleted)
    (hjobs : ∀ i, free i = true → held i ≠ some .uninitialised) :
    Released free (fun i => if free i then none else held i) added marked
      (deleted ++ freed free held) := by
  have hold : ∀ i a, (if free i then none else held i) = some a →
      free i = false ∧ held i = some a := by
    intro i a hi
    cases hfree : free i <;> simp_all
  constructor
  · exact fun i k hi => h.fresh i k (hold i _ hi).2
  · exact fun i j k hi hj => h.distinct i j k (hold i _ hi).2 (hold j _ hj).2
  · intro i k hfree hi
    rw [(hold i _ hi).1] at hfree
    cases hfree
  · exact h.markedFresh
  · intro a ha
    rcases List.mem_append.mp ha with ha | ha
    · exact h.onlyMarked a ha
    · exact h.exists_marked_of_mem_freed hjobs ha
  · rw [List.nodup_append']
    refine ⟨h.once, h.nodup_freed hjobs, ?_⟩
    intro a ha hnew
    obtain ⟨i, -, hi⟩ := mem_freed.mp hnew
    exact h.gone i a ha hi
  · intro i a ha hi
    obtain ⟨hbusy, hi⟩ := hold i a hi
    rcases List.mem_append.mp ha with ha | ha
    · exact h.gone i a ha hi
    · obtain ⟨k, -, rfl⟩ := h.exists_marked_of_mem_freed hjobs ha
      obtain ⟨j, hfree, hj⟩ := mem_freed.mp ha
      rw [h.distinct i j k hi hj, hfree] at hbusy
      cases hbusy
  · intro k hk
    left
    rcases h.kept k hk with hgone | ⟨i, hfree, hi⟩
    · exact List.mem_append_left _ hgone
    · exact List.mem_append_right _ (mem_freed.mpr ⟨i, hfree, hi⟩)

end Released

namespace QueueRun

variable {s t : QueueRun}

/-- The jobs of the queue and of the record are released as they should. -/
def Sound (s : QueueRun) : Prop :=
  Released s.queue.jobSlotDone s.held s.added s.marked s.deleted

theorem Sound.law (h : s.Sound) : s.ReleaseLaw := ⟨h.onlyMarked, h.once, h.kept⟩

theorem sound_start (jobQueue : Fin queueSize → Option QueueJob) : (start jobQueue).Sound := by
  have hheld : ∀ i a, (start jobQueue).held i = some a → a = .uninitialised := by
    intro i a hi
    obtain ⟨_, _, rfl⟩ := Option.map_eq_some_iff.mp hi
    rfl
  constructor
  · intro i k hi
    cases hheld i _ hi
  · intro i j k hi
    cases hheld i _ hi
  · intro i k _ hi
    cases hheld i _ hi
  · simp [start]
  · simp [start]
  · simp [start]
  · simp [start]
  · simp [start]

/-- The slots after an addition that takes a slot. -/
theorem held_place (s : QueueRun) (i : Fin queueSize) (job : QueueJob) :
    held { s with
      queue := s.queue.place i job
      allocations := Function.update s.allocations i (.job s.added)
      added := s.added + 1 } = Function.update s.held i (some (.job s.added)) := by
  funext j
  by_cases hj : j = i
  · subst hj
    simp [held, ThreadQueue.place]
  · simp [held, ThreadQueue.place, hj]

theorem held_remove (s : QueueRun) (i : Fin queueSize) :
    held { s with queue := s.queue.remove i } = Function.update s.held i none := by
  funext j
  by_cases hj : j = i
  · subst hj
    simp [held, ThreadQueue.remove]
  · simp [held, ThreadQueue.remove, hj]

theorem held_setJobStatus (s : QueueRun) (slot : Fin queueSize) (status : JobStatus) :
    held { s with queue := s.queue.setJobStatus slot status } = s.held := by
  funext j
  by_cases hj : j = slot
  · subst hj
    simp [held, ThreadQueue.setJobStatus, Function.comp_def]
  · simp [held, ThreadQueue.setJobStatus, hj]

theorem held_markTaskAsComplete (s : QueueRun) (marked : List ℕ) :
    held { s with queue := s.queue.markTaskAsComplete, marked := marked } = s.held :=
  s.held_setJobStatus s.queue.head .done

theorem held_flushFinishedJobs (s : QueueRun) (deleted : List Allocation) :
    held { s with queue := s.queue.flushFinishedJobs, deleted := deleted } =
      fun i => if s.queue.jobSlotDone i then none else s.held i := by
  funext i
  cases hi : s.queue.jobSlotDone i <;> simp [held, ThreadQueue.flushFinishedJobs, hi]

/-- The job of a slot that a new one takes is neither deleted nor in any slot
afterwards. -/
theorem Sound.lost (h : s.Sound) {i : Fin queueSize} {job : QueueJob} {k : ℕ}
    (hfree : s.queue.jobSlotDone i = true) (hheld : s.held i = some (.job k)) :
    ¬ ReleaseLaw { s with
      queue := s.queue.place i job
      allocations := Function.update s.allocations i (.job s.added)
      added := s.added + 1 } := by
  intro law
  rcases law.kept k (h.complete i k hfree hheld) with hgone | ⟨j, -, hj⟩
  · exact h.gone i _ hgone hheld
  · rw [held_place, Function.update_apply, ite_eq_iff] at hj
    rcases hj with ⟨-, hj⟩ | ⟨hji, hj⟩
    · cases hj
      exact lt_irrefl _ (h.fresh i _ hheld)
    · exact hji (h.distinct j i k hj hheld)

/-- An addition loses the completed job of the slot that it takes. -/
theorem releases_addNewTask (h : s.Sound) {job : QueueJob}
    (ht : s.call (.addNewTask job) = some t) :
    (t.ReleaseLaw ↔ s.Releases (.addNewTask job)) ∧ (s.Releases (.addNewTask job) → t.Sound) := by
  simp only [call] at ht
  split at ht
  · rename_i i hfind
    have hplace : (s.queue.addNewTask (some job)).2 = s.queue.place i job := by
      simp [ThreadQueue.addNewTask, hfind]
    rw [hplace] at ht
    cases ht
    have hkeep : s.Releases (.addNewTask job) → Sound { s with
        queue := s.queue.place i job
        allocations := Function.update s.allocations i (.job s.added)
        added := s.added + 1 } := by
      intro hreleases
      have hfree : ∀ k, s.held i ≠ some (.job k) := by
        intro k hk
        rcases hreleases i hfind with hnone | huninit
        · cases hk.symm.trans hnone
        · cases hk.symm.trans huninit
      unfold Sound
      rw [held_place]
      exact Released.place h hfree
    refine step_iff_of_kept Sound.law (fun law j hj => ?_) hkeep
    cases hfind.symm.trans hj
    cases hheld : s.held i with
    | none => exact .inl rfl
    | some a =>
      cases a with
      | uninitialised => exact .inr rfl
      | job k => exact absurd law (h.lost (List.find?_some hfind) hheld)
  · rename_i hfind
    have hsame : (s.queue.addNewTask (some job)).2 = s.queue := by
      simp [ThreadQueue.addNewTask, hfind]
    rw [hsame] at ht
    cases ht
    have hreleases : s.Releases (.addNewTask job) := by
      intro i hi
      cases hfind.symm.trans hi
    exact step_iff_of_met Sound.law hreleases h

/-- A flush deletes everything that the free slots point to. -/
theorem releases_flushFinishedJobs (h : s.Sound) (ht : s.call .flushFinishedJobs = some t) :
    (t.ReleaseLaw ↔ s.Releases .flushFinishedJobs) ∧
      (s.Releases .flushFinishedJobs → t.Sound) := by
  cases ht
  have hkeep : s.Releases .flushFinishedJobs → Sound { s with
      queue := s.queue.flushFinishedJobs, deleted := s.deleted ++ s.flushed } := by
    intro hreleases
    unfold Sound
    rw [held_flushFinishedJobs]
    exact Released.flush h hreleases
  refine step_iff_of_kept Sound.law (fun law i hfree hi => ?_) hkeep
  have hmem : Allocation.uninitialised ∈ s.flushed :=
    Released.mem_freed.mpr ⟨i, hfree, hi⟩
  obtain ⟨k, -, hsame⟩ := law.onlyMarked _ (List.mem_append_right _ hmem)
  cases hsame

/-- Each call keeps the law exactly when it releases what it should. -/
theorem releases_iff (h : s.Sound) {c : QueueCall} (ht : s.call c = some t) :
    (t.ReleaseLaw ↔ s.Releases c) ∧ (s.Releases c → t.Sound) := by
  have hother : s.Releases c → t.Sound → (t.ReleaseLaw ↔ s.Releases c) ∧
      (s.Releases c → t.Sound) := step_iff_of_met Sound.law
  cases c with
  | addNewTask job => exact releases_addNewTask h ht
  | flushFinishedJobs => exact releases_flushFinishedJobs h ht
  | popJob =>
    obtain ⟨⟨popped, queue⟩, hpop, rfl⟩ := Option.map_eq_some_iff.mp ht
    apply hother trivial
    rcases ThreadQueue.popSlot_cases hpop with ⟨-, rfl⟩ | ⟨i, job, hi, -, -, rfl⟩
    · exact h
    · unfold Sound
      rw [held_remove]
      exact Released.remove h (ThreadQueue.occupied_eq_some.mp hi).1
  | getNextTask =>
    cases ht
    apply hother trivial
    obtain ⟨i, hnext⟩ := s.queue.getNextTask_atHead
    rw [hnext]
    exact h
  | markTaskAsComplete =>
    simp only [call] at ht
    split at ht
    · rename_i k hk
      cases ht
      apply hother trivial
      unfold Sound
      rw [held_markTaskAsComplete]
      exact Released.mark h hk
    · cases ht
  | setJobStatus slot status =>
    cases ht
    apply hother trivial
    unfold Sound
    rw [held_setJobStatus]
    exact h

end QueueRun

/-- Along a run completed jobs are deleted once, before their slots are given to
others, and nothing else is deleted, exactly when no flush finds an uninitialised
pointer and no addition a completed job that is still to be deleted. -/
theorem releaseLaw_iff (jobQueue : Fin queueSize → Option QueueJob) (calls : List QueueCall)
    (s : QueueRun) (hrun : exec QueueRun.call (.start jobQueue) calls = some s) :
    Always QueueRun.call QueueRun.ReleaseLaw (.start jobQueue) calls ↔
      Guarded QueueRun.call QueueRun.Releases (.start jobQueue) calls :=
  always_iff_guarded (fun _ h => h.law) (fun _ _ _ h ht => QueueRun.releases_iff h ht)
    (QueueRun.sound_start jobQueue) hrun

/-- A fresh compute job. -/
def computeJob : QueueJob := .new (.registered 0 ⟨4, true, true, true, true⟩ .lowPriority)

/-- A job is added, completed and flushed, and another one takes its slot. -/
def addCompleteFlush : List QueueCall :=
  [.flushFinishedJobs, .addNewTask computeJob, .getNextTask, .markTaskAsComplete,
    .flushFinishedJobs, .addNewTask computeJob]

theorem releaseLaw_addCompleteFlush :
    (exec QueueRun.call (.start fun _ => none) addCompleteFlush).map QueueRun.deleted =
        some [.job 0] ∧
      Always QueueRun.call QueueRun.ReleaseLaw (.start fun _ => none) addCompleteFlush := by
  have hrun : (exec QueueRun.call (.start fun _ => none) addCompleteFlush).map QueueRun.deleted =
      some [.job 0] := by decide
  obtain ⟨s, hs, -⟩ := Option.map_eq_some_iff.mp hrun
  exact ⟨hrun, (releaseLaw_iff (fun _ => none) addCompleteFlush s hs).mpr (by decide)⟩

/-- The first flush deletes what a slot held before the queue was constructed, and a
job that completes between a flush and the next addition is never deleted. -/
theorem not_releaseLaw_firstFlush :
    (∃ s, exec QueueRun.call (.start fun _ => some computeJob) [.flushFinishedJobs] = some s ∧
        ¬ s.ReleaseLaw) ∧
      ∃ s, exec QueueRun.call (.start fun _ => none) [.addNewTask computeJob, .getNextTask,
          .markTaskAsComplete, .addNewTask computeJob] = some s ∧ ¬ s.ReleaseLaw := by
  constructor
  · refine ⟨_, rfl, fun law => ?_⟩
    obtain ⟨k, hk, -⟩ := law.onlyMarked .uninitialised (by decide)
    cases hk
  · refine ⟨_, rfl, fun law => ?_⟩
    rcases law.kept 0 (by decide) with hgone | ⟨i, hi, hheld⟩
    · cases hgone
    · revert i
      decide

end WorkerUnit
