import WorkerUnit.Library.Slots
import WorkerUnit.Scheduler.Job

/-!
# The queue of a task thread

The class `ThreadQueue` of `scheduler/sched.cpp`. A slot is occupied when its
`jobSlotDone` flag is clear. Each operation is followed by what it does to the
occupied slots of a sound queue.
-/

namespace WorkerUnit

/-- `QUEUE_SIZE`. -/
abbrev queueSize : ℕ := 4

instance : NeZero queueSize := ⟨by decide⟩

structure ThreadQueue where
  head : Fin queueSize
  jobQueue : Fin queueSize → Option QueueJob
  jobSlotDone : Fin queueSize → Bool
  totalJobsInQueue : ℤ

namespace ThreadQueue

/-- The constructor, which leaves the pointers in `jobQueue` as they are. -/
def new (jobQueue : Fin queueSize → Option QueueJob) : ThreadQueue :=
  ⟨0, jobQueue, fun _ => true, 0⟩

/-- What `addNewTask` does with the first free slot. -/
def place (q : ThreadQueue) (i : Fin queueSize) (job : QueueJob) : ThreadQueue :=
  { q with
    jobSlotDone := Function.update q.jobSlotDone i false
    jobQueue := Function.update q.jobQueue i (some job)
    totalJobsInQueue := q.totalJobsInQueue + 1 }

def addNewTask (q : ThreadQueue) (job : Option QueueJob) : ℤ × ThreadQueue :=
  match job with
  | none => (-1, q)
  | some job =>
    match (List.finRange queueSize).find? q.jobSlotDone with
    | some i => (0, q.place i job)
    | none => (-1, q)

/-- The rounds of the loop of `getNextTask`. -/
def nextTask : ℕ → ThreadQueue → Option QueueJob × ThreadQueue
  | 0, q => (none, q)
  | n + 1, q =>
    let q := { q with head := q.head + 1 }
    if !q.jobSlotDone q.head then (q.jobQueue q.head, q) else nextTask n q

def getNextTask (q : ThreadQueue) : Option QueueJob × ThreadQueue := q.nextTask queueSize

/-- What `popJob` does with the slot it takes. -/
def remove (q : ThreadQueue) (i : Fin queueSize) : ThreadQueue :=
  { q with
    jobSlotDone := Function.update q.jobSlotDone i true
    jobQueue := Function.update q.jobQueue i none
    totalJobsInQueue := q.totalJobsInQueue - 1 }

/-- The search of `popJob` over the listed slots; `none` for a null pointer that
it dereferences. -/
def popSlot (q : ThreadQueue) : List (Fin queueSize) → Option (Option QueueJob × ThreadQueue)
  | [] => some (none, q)
  | i :: is =>
    if q.jobSlotDone i then popSlot q is
    else match q.jobQueue i with
      | none => none
      | some job =>
        if !job.isJobStatusSet .running && !job.isJobStatusSet .finalized then
          some (some job, q.remove i)
        else popSlot q is

def popJob (q : ThreadQueue) : Option (Option QueueJob × ThreadQueue) :=
  q.popSlot (List.finRange queueSize)

/-- A status is OR-ed into the job of a slot. -/
def setJobStatus (q : ThreadQueue) (i : Fin queueSize) (status : JobStatus) : ThreadQueue :=
  { q with jobQueue :=
      Function.update q.jobQueue i ((q.jobQueue i).map fun job => job.setJobStatus status) }

def markTaskAsComplete (q : ThreadQueue) : ThreadQueue :=
  let q := q.setJobStatus q.head .done
  { q with
    jobSlotDone := Function.update q.jobSlotDone q.head true
    totalJobsInQueue := q.totalJobsInQueue - 1 }

def flushFinishedJobs (q : ThreadQueue) : ThreadQueue :=
  { q with jobQueue := fun i => if q.jobSlotDone i then none else q.jobQueue i }

/-- The wait time of one slot. -/
def slotWaitTime (q : ThreadQueue) (i : Fin queueSize) : ℕ :=
  match q.jobQueue i with
  | some job =>
    if q.jobSlotDone i then 0 else if job.getCpuTimeSlice = 0 then 999 else job.getCpuTimeSlice
  | none => 0

def getTotalWaitTime (q : ThreadQueue) : ℕ :=
  if q.totalJobsInQueue = 0 then 0 else ((List.finRange queueSize).map q.slotWaitTime).sum

/-- How long the job of a slot keeps the thread. -/
def waitOf (slot : Option QueueJob) : ℕ :=
  match slot with
  | none => 0
  | some job => if job.getCpuTimeSlice = 0 then 999 else job.getCpuTimeSlice

/-- `popJob` takes no job that is running or finalized. -/
def stealable (job : QueueJob) : Bool :=
  !job.isJobStatusSet .running && !job.isJobStatusSet .finalized

/-- The jobs in the slots whose flag is clear. -/
def occupied (q : ThreadQueue) (i : Fin queueSize) : Option QueueJob :=
  if q.jobSlotDone i then none else q.jobQueue i

/-- The number of occupied slots that hold the task. -/
def holdsTask (q : ThreadQueue) (address : ℕ) : ℕ :=
  Slots.countIf (fun job => job.processTable.address == address) q.occupied

/-- A slot whose flag is clear holds a job. -/
def WellFormed (q : ThreadQueue) : Prop :=
  ∀ i, q.jobSlotDone i = false → ∃ job, q.jobQueue i = some job

/-- A slot whose flag is clear holds a job, and the counter counts these slots. -/
structure Counted (q : ThreadQueue) : Prop where
  filled : ∀ i, q.jobSlotDone i = false → ∃ job, q.jobQueue i = some job
  total : q.totalJobsInQueue = Slots.load q.occupied

/-- A slot whose flag is clear holds a job, whose slice is zero, and the counter
counts these slots. -/
structure Sound (q : ThreadQueue) : Prop where
  filled : ∀ i, q.jobSlotDone i = false → ∃ job, q.jobQueue i = some job ∧ job.cpuSliceMs = 0
  total : q.totalJobsInQueue = Slots.load q.occupied

variable {q : ThreadQueue} {i : Fin queueSize} {job : QueueJob}

@[simp] theorem occupied_new (jobQueue : Fin queueSize → Option QueueJob) :
    (new jobQueue).occupied = fun _ => none := by
  funext i
  simp [occupied, new]

theorem sound_new (jobQueue : Fin queueSize → Option QueueJob) : (new jobQueue).Sound where
  filled := by simp [new]
  total := by
    rw [occupied_new, Slots.load, Slots.countIf_empty]
    rfl

theorem wellFormed_new (jobQueue : Fin queueSize → Option QueueJob) :
    (new jobQueue).WellFormed := by
  intro i hi
  cases hi

theorem holdsTask_new (jobQueue : Fin queueSize → Option QueueJob) (address : ℕ) :
    (new jobQueue).holdsTask address = 0 := by
  rw [holdsTask, occupied_new, Slots.countIf_empty]

theorem Sound.counted (h : q.Sound) : q.Counted where
  filled := by
    intro i hi
    obtain ⟨job, hjob, _⟩ := h.filled i hi
    exact ⟨job, hjob⟩
  total := h.total

theorem occupied_eq_some : q.occupied i = some job ↔ q.jobSlotDone i = false ∧
    q.jobQueue i = some job := by
  cases hi : q.jobSlotDone i <;> simp [occupied, hi]

theorem Counted.wellFormed (h : q.Counted) : q.WellFormed := h.filled

theorem WellFormed.occupied (h : q.WellFormed) (hi : q.jobSlotDone i = false) :
    ∃ job, q.occupied i = some job := by
  obtain ⟨job, hjob⟩ := h i hi
  exact ⟨job, occupied_eq_some.mpr ⟨hi, hjob⟩⟩

theorem Sound.slice (h : q.Sound) (hjob : q.occupied i = some job) : job.cpuSliceMs = 0 := by
  obtain ⟨hi, hq⟩ := occupied_eq_some.mp hjob
  obtain ⟨found, hfound, hslice⟩ := h.filled i hi
  cases hq.symm.trans hfound
  exact hslice

/-- A queue whose jobs have no slices is sound when its slots are counted. -/
theorem Counted.sound (h : q.Counted)
    (hslice : ∀ i job, q.occupied i = some job → job.cpuSliceMs = 0) : q.Sound where
  filled := by
    intro i hi
    obtain ⟨job, hjob⟩ := h.filled i hi
    exact ⟨job, hjob, hslice i job (occupied_eq_some.mpr ⟨hi, hjob⟩)⟩
  total := h.total

/-- The counter is the number of the slots whose flag is clear. -/
theorem Counted.total_eq_card (h : q.Counted) :
    q.totalJobsInQueue = (Finset.univ.filter fun i => q.jobSlotDone i = false).card := by
  rw [h.total, Slots.load, Slots.countIf, Finset.card_filter]
  congr 1
  apply Finset.sum_congr rfl
  intro i _
  cases hi : q.jobSlotDone i with
  | true => simp [occupied, hi]
  | false =>
    obtain ⟨job, hjob⟩ := h.filled i hi
    simp [occupied, hi, hjob, Slots.weight_some]

theorem Counted.total_nonneg (h : q.Counted) : 0 ≤ q.totalJobsInQueue := by
  rw [h.total]
  exact Int.natCast_nonneg _

theorem Counted.total_le (h : q.Counted) : q.totalJobsInQueue ≤ queueSize := by
  rw [h.total]
  have hle := Slots.load_le_card q.occupied
  rw [Fintype.card_fin] at hle
  exact_mod_cast hle

theorem Sound.total_eq_card (h : q.Sound) :
    q.totalJobsInQueue = (Finset.univ.filter fun i => q.jobSlotDone i = false).card :=
  h.counted.total_eq_card

theorem Sound.total_nonneg (h : q.Sound) : 0 ≤ q.totalJobsInQueue := h.counted.total_nonneg

theorem Sound.total_le (h : q.Sound) : q.totalJobsInQueue ≤ queueSize := h.counted.total_le

/-- The wait time of a slot is that of the job in it. -/
theorem slotWaitTime_eq (q : ThreadQueue) (i : Fin queueSize) :
    q.slotWaitTime i = waitOf (q.occupied i) := by
  cases hi : q.jobSlotDone i <;> cases hq : q.jobQueue i <;>
    simp [slotWaitTime, occupied, waitOf, hi, hq]

theorem waitOf_pos (job : QueueJob) : 0 < waitOf (some job) := by
  dsimp only [waitOf]
  split_ifs <;> omega

/-- A queue that is counted waits for the jobs in its slots. -/
theorem Counted.getTotalWaitTime_eq (h : q.Counted) :
    q.getTotalWaitTime = ∑ i, waitOf (q.occupied i) := by
  have hsum : ((List.finRange queueSize).map q.slotWaitTime).sum = ∑ i, waitOf (q.occupied i) := by
    rw [← List.ofFn_eq_map, List.sum_ofFn]
    exact Finset.sum_congr rfl fun i _ => q.slotWaitTime_eq i
  unfold getTotalWaitTime
  split_ifs with hzero
  · symm
    apply Finset.sum_eq_zero
    intro i _
    cases hi : q.occupied i with
    | none => rfl
    | some job =>
      have hpos : 0 < Slots.load q.occupied := Slots.countIf_pos hi rfl
      rw [h.total] at hzero
      omega
  · exact hsum

/-- A queue without unfinished jobs is the only one that does not wait. -/
theorem Counted.getTotalWaitTime_eq_zero_iff (h : q.Counted) :
    q.getTotalWaitTime = 0 ↔ ∀ i, q.occupied i = none := by
  rw [h.getTotalWaitTime_eq, Finset.sum_eq_zero_iff]
  constructor
  · intro hzero i
    cases hi : q.occupied i with
    | none => rfl
    | some job =>
      have hslot := hzero i (Finset.mem_univ i)
      rw [hi] at hslot
      exact absurd hslot (waitOf_pos job).ne'
  · intro hnone i _
    rw [hnone i]
    rfl

/-- A job waits 999 in every occupied slot. -/
theorem Sound.getTotalWaitTime_eq (h : q.Sound) :
    (q.getTotalWaitTime : ℤ) = 999 * q.totalJobsInQueue := by
  have hslot : ∀ i, waitOf (q.occupied i) =
      999 * Slots.weight (fun _ => true) (q.occupied i) := by
    intro i
    cases hi : q.occupied i with
    | none => rfl
    | some job => simp [waitOf, QueueJob.getCpuTimeSlice, h.slice hi, Slots.weight_some]
  rw [h.counted.getTotalWaitTime_eq, h.total, Slots.load, Slots.countIf,
    Finset.sum_congr rfl fun i _ => hslot i, ← Finset.mul_sum]
  push_cast
  rfl

theorem occupied_place (q : ThreadQueue) (i : Fin queueSize) (job : QueueJob) :
    (q.place i job).occupied = Function.update q.occupied i (some job) := by
  funext j
  by_cases hj : j = i
  · subst hj
    simp [occupied, place]
  · simp [occupied, place, hj]

theorem occupied_remove (q : ThreadQueue) (i : Fin queueSize) :
    (q.remove i).occupied = Function.update q.occupied i none := by
  funext j
  by_cases hj : j = i
  · subst hj
    simp [occupied, remove]
  · simp [occupied, remove, hj]

theorem occupied_of_done (hi : q.jobSlotDone i = true) : q.occupied i = none := by
  simp [occupied, hi]

theorem WellFormed.place (h : q.WellFormed) (i : Fin queueSize) (job : QueueJob) :
    (q.place i job).WellFormed := by
  intro j hj
  by_cases hji : j = i
  · subst hji
    exact ⟨job, by simp [ThreadQueue.place]⟩
  · simpa [ThreadQueue.place, hji] using h j (by simpa [ThreadQueue.place, hji] using hj)

theorem Counted.place (h : q.Counted) (hi : q.jobSlotDone i = true) (job : QueueJob) :
    (q.place i job).Counted := by
  constructor
  · exact h.wellFormed.place i job
  · rw [occupied_place, Slots.load, Slots.countIf_put (occupied_of_done hi)]
    simp [ThreadQueue.place, h.total, Slots.load]

theorem Counted.wait_place (h : q.Counted) (hi : q.jobSlotDone i = true) (job : QueueJob) :
    (q.place i job).getTotalWaitTime = q.getTotalWaitTime + waitOf (some job) := by
  have hsum := Slots.sum_update waitOf q.occupied i (some job)
  rw [occupied_of_done hi] at hsum
  rw [(h.place hi job).getTotalWaitTime_eq, h.getTotalWaitTime_eq, occupied_place]
  exact hsum

theorem Sound.place (h : q.Sound) (hi : q.jobSlotDone i = true) (hslice : job.cpuSliceMs = 0) :
    (q.place i job).Sound := by
  apply (h.counted.place hi job).sound
  intro j other hother
  rw [occupied_place] at hother
  by_cases hji : j = i
  · rw [hji, Function.update_self] at hother
    cases hother
    exact hslice
  · rw [Function.update_of_ne hji] at hother
    exact h.slice hother

theorem holdsTask_pos {i : Fin queueSize} (h : q.occupied i = some job) :
    0 < q.holdsTask job.processTable.address :=
  Slots.countIf_pos h (beq_self_eq_true _)

theorem holdsTask_place (hi : q.jobSlotDone i = true) (address : ℕ) :
    (q.place i job).holdsTask address =
      q.holdsTask address + if job.processTable.address = address then 1 else 0 := by
  have hnone : q.occupied i = none := by simp [occupied, hi]
  rw [holdsTask, occupied_place, Slots.countIf_put hnone]
  simp [holdsTask]

/-- A job fits as long as the queue is not full. -/
theorem Counted.addNewTask_eq (h : q.Counted) (hlt : q.totalJobsInQueue < queueSize)
    (job : QueueJob) :
    ∃ i, q.jobSlotDone i = true ∧ q.addNewTask (some job) = (0, q.place i job) := by
  have hload : Slots.load q.occupied < Fintype.card (Fin queueSize) := by
    rw [Fintype.card_fin]
    rw [h.total] at hlt
    exact_mod_cast hlt
  obtain ⟨k, hk⟩ := Slots.exists_empty_of_load_lt hload
  have hdone : q.jobSlotDone k = true := by
    by_contra hk'
    obtain ⟨job, hjob⟩ := h.filled k (by simpa using hk')
    simp [occupied, hk', hjob] at hk
  cases hfind : (List.finRange queueSize).find? q.jobSlotDone with
  | none =>
    have hall := List.find?_eq_none.mp hfind k (List.mem_finRange k)
    exact absurd hdone hall
  | some i => exact ⟨i, List.find?_some hfind, by simp [addNewTask, hfind]⟩

theorem Sound.addNewTask_eq (h : q.Sound) (hlt : q.totalJobsInQueue < queueSize)
    (job : QueueJob) :
    ∃ i, q.jobSlotDone i = true ∧ q.addNewTask (some job) = (0, q.place i job) :=
  h.counted.addNewTask_eq hlt job

/-- A job is put into a slot that is free, or the queue stays as it is. -/
theorem addNewTask_cases (q : ThreadQueue) (job : QueueJob) :
    (q.addNewTask (some job)).2 = q ∨
      ∃ i, q.jobSlotDone i = true ∧ (q.addNewTask (some job)).2 = q.place i job := by
  unfold addNewTask
  dsimp only
  split
  · rename_i i hfind
    exact .inr ⟨i, List.find?_some hfind, rfl⟩
  · exact .inl rfl

theorem WellFormed.addNewTask (h : q.WellFormed) (job : Option QueueJob) :
    (q.addNewTask job).2.WellFormed ∧ (q.addNewTask job).2.head = q.head := by
  cases job with
  | none => exact ⟨h, rfl⟩
  | some job =>
    rcases addNewTask_cases q job with hsame | ⟨i, _, hplace⟩
    · rw [hsame]
      exact ⟨h, rfl⟩
    · rw [hplace]
      exact ⟨h.place i job, rfl⟩

/-- A new job does not take the slot of another one. -/
theorem occupied_place_of_some (job : QueueJob) {i j : Fin queueSize} (hi : q.jobSlotDone i = true)
    {other : QueueJob} (hj : q.occupied j = some other) :
    (q.place i job).occupied j = some other := by
  have hne : j ≠ i := by
    rintro rfl
    simp [occupied, hi] at hj
  rw [occupied_place, Function.update_of_ne hne, hj]

theorem WellFormed.remove (h : q.WellFormed) (i : Fin queueSize) : (q.remove i).WellFormed := by
  intro j hj
  have hji : j ≠ i := by
    rintro rfl
    simp [ThreadQueue.remove] at hj
  simpa [ThreadQueue.remove, hji] using h j (by simpa [ThreadQueue.remove, hji] using hj)

theorem Counted.remove (h : q.Counted) (hjob : q.occupied i = some job) :
    (q.remove i).Counted := by
  constructor
  · exact h.wellFormed.remove i
  · have hclear := Slots.countIf_clear (p := fun _ => true) hjob
    rw [occupied_remove]
    simp only [ThreadQueue.remove, h.total, Slots.load] at hclear ⊢
    simp at hclear
    omega

theorem Counted.wait_remove (h : q.Counted) (hjob : q.occupied i = some job) :
    (q.remove i).getTotalWaitTime + waitOf (some job) = q.getTotalWaitTime := by
  have hsum := Slots.sum_update waitOf q.occupied i none
  rw [hjob] at hsum
  rw [(h.remove hjob).getTotalWaitTime_eq, h.getTotalWaitTime_eq, occupied_remove]
  exact hsum

theorem Sound.remove (h : q.Sound) (hi : q.jobSlotDone i = false) : (q.remove i).Sound := by
  obtain ⟨job, hjob, _⟩ := h.filled i hi
  apply (h.counted.remove (occupied_eq_some.mpr ⟨hi, hjob⟩)).sound
  intro j other hother
  rw [occupied_remove] at hother
  by_cases hji : j = i
  · rw [hji, Function.update_self] at hother
    cases hother
  · rw [Function.update_of_ne hji] at hother
    exact h.slice hother

theorem holdsTask_remove (hi : q.jobSlotDone i = false) (hjob : q.jobQueue i = some job)
    (address : ℕ) :
    (q.remove i).holdsTask address + (if job.processTable.address = address then 1 else 0) =
      q.holdsTask address := by
  have hsome : q.occupied i = some job := by simp [occupied, hi, hjob]
  have hclear := Slots.countIf_clear (p := fun job => job.processTable.address == address) hsome
  rw [holdsTask, occupied_remove]
  simpa [holdsTask] using hclear

/-- The search takes the first job that it may take, if there is one. -/
theorem Counted.popSlot_cases (h : q.Counted) (is : List (Fin queueSize)) :
    (q.popSlot is = some (none, q) ∧
        ∀ i ∈ is, ∀ job, q.occupied i = some job → stealable job = false) ∨
      ∃ i job, q.occupied i = some job ∧ stealable job = true ∧
        q.popSlot is = some (some job, q.remove i) := by
  induction is with
  | nil => exact .inl ⟨rfl, nofun⟩
  | cons i is ih =>
    cases hi : q.jobSlotDone i with
    | true =>
      have hskip : q.popSlot (i :: is) = q.popSlot is := by simp [popSlot, hi]
      rw [hskip, List.forall_mem_cons]
      have hfree : ∀ job, q.occupied i = some job → stealable job = false := by
        simp [occupied_of_done hi]
      exact ih.imp_left fun hnone => ⟨hnone.1, hfree, hnone.2⟩
    | false =>
      obtain ⟨job, hjob⟩ := h.filled i hi
      have hoccupied := occupied_eq_some.mpr ⟨hi, hjob⟩
      cases hsteal : stealable job with
      | true =>
        have htest := hsteal
        rw [stealable] at htest
        exact .inr ⟨i, job, hoccupied, hsteal, by simp only [popSlot, hi, hjob, htest]; rfl⟩
      | false =>
        have htest := hsteal
        rw [stealable] at htest
        have hskip : q.popSlot (i :: is) = q.popSlot is := by
          simp only [popSlot, hi, hjob, htest]
          rfl
        rw [hskip, List.forall_mem_cons]
        have hkept : ∀ other, q.occupied i = some other → stealable other = false := by
          intro other hother
          cases hoccupied.symm.trans hother
          exact hsteal
        exact ih.imp_left fun hnone => ⟨hnone.1, hkept, hnone.2⟩

/-- `popJob` takes a job that is neither running nor finalized, if there is one. -/
theorem Counted.popJob_cases (h : q.Counted) :
    (q.popJob = some (none, q) ∧ ∀ i job, q.occupied i = some job → stealable job = false) ∨
      ∃ i job, q.occupied i = some job ∧ stealable job = true ∧
        q.popJob = some (some job, q.remove i) :=
  (h.popSlot_cases (List.finRange queueSize)).imp_left fun hnone =>
    ⟨hnone.1, fun i => hnone.2 i (List.mem_finRange i)⟩

/-- `popJob` returns nothing, or takes a job out of its slot. -/
theorem Sound.popJob_cases (h : q.Sound) :
    q.popJob = some (none, q) ∨ ∃ i job, q.jobSlotDone i = false ∧ q.jobQueue i = some job ∧
      job.cpuSliceMs = 0 ∧ q.popJob = some (some job, q.remove i) := by
  rcases h.counted.popJob_cases with ⟨hnone, _⟩ | ⟨i, job, hjob, _, hsome⟩
  · exact .inl hnone
  · obtain ⟨hi, hq⟩ := occupied_eq_some.mp hjob
    exact .inr ⟨i, job, hi, hq, h.slice hjob, hsome⟩

/-- `popJob` leaves the queue as it is, or takes a job that is not protected out of
its slot. -/
theorem popSlot_cases {is : List (Fin queueSize)} {popped : Option QueueJob} {r : ThreadQueue}
    (h : q.popSlot is = some (popped, r)) :
    popped = none ∧ r = q ∨ ∃ i job, q.occupied i = some job ∧
      job.isJobStatusSet .running = false ∧ popped = some job ∧ r = q.remove i := by
  induction is with
  | nil =>
    cases h
    exact .inl ⟨rfl, rfl⟩
  | cons i is ih =>
    simp only [popSlot] at h
    split_ifs at h with hdone
    · exact ih h
    · split at h
      · cases h
      · rename_i job hjob
        split_ifs at h with hfree
        · cases h
          have hrunning : job.isJobStatusSet .running = false := by
            simpa using (Bool.and_eq_true_iff.mp hfree).1
          exact .inr ⟨i, job, by simp [occupied, hdone, hjob], hrunning, rfl, rfl⟩
        · exact ih h

theorem popJob_not_running {r : ThreadQueue} (h : q.popJob = some (some job, r)) :
    job.isJobStatusSet .running = false := by
  rcases popSlot_cases h with ⟨hnone, _⟩ | ⟨_, _, _, hrunning, hsome, _⟩
  · cases hnone
  · cases hsome
    exact hrunning

/-- The queue with its head moved. -/
def atHead (q : ThreadQueue) (i : Fin queueSize) : ThreadQueue := { q with head := i }

theorem Sound.atHead (h : q.Sound) (i : Fin queueSize) : (q.atHead i).Sound :=
  ⟨h.filled, h.total⟩

/-- `getNextTask` does nothing but move the head. -/
theorem getNextTask_atHead (q : ThreadQueue) : ∃ i, q.getNextTask.2 = q.atHead i := by
  have hsearch : ∀ n k, ∃ i, (nextTask n (q.atHead k)).2 = q.atHead i := by
    intro n
    induction n with
    | zero => exact fun k => ⟨k, rfl⟩
    | succ n ih =>
      intro k
      cases hk : q.jobSlotDone (k + 1) with
      | true =>
        obtain ⟨i, hi⟩ := ih (k + 1)
        exact ⟨i, by simpa [nextTask, atHead, hk] using hi⟩
      | false => exact ⟨k + 1, by simp [nextTask, atHead, hk]⟩
  exact hsearch queueSize q.head

/-- `getNextTask` moves the head, to an occupied slot when it returns a job. -/
theorem Sound.getNextTask_cases (h : q.Sound) :
    ∃ i, q.getNextTask = (none, q.atHead i) ∨ ∃ job, q.jobSlotDone i = false ∧
      q.jobQueue i = some job ∧ q.getNextTask = (some job, q.atHead i) := by
  have hsearch : ∀ n k, ∃ i, nextTask n (q.atHead k) = (none, q.atHead i) ∨
      ∃ job, q.jobSlotDone i = false ∧ q.jobQueue i = some job ∧
        nextTask n (q.atHead k) = (some job, q.atHead i) := by
    intro n
    induction n with
    | zero => exact fun k => ⟨k, .inl rfl⟩
    | succ n ih =>
      intro k
      cases hk : q.jobSlotDone (k + 1) with
      | true =>
        obtain ⟨i, hi⟩ := ih (k + 1)
        exact ⟨i, by simpa [nextTask, ThreadQueue.atHead, hk] using hi⟩
      | false =>
        obtain ⟨job, hjob, _⟩ := h.filled (k + 1) hk
        refine ⟨k + 1, .inr ⟨job, hk, hjob, ?_⟩⟩
        simp [nextTask, ThreadQueue.atHead, hk, hjob]
  exact hsearch queueSize q.head

theorem occupied_setJobStatus (q : ThreadQueue) (i : Fin queueSize) (status : JobStatus) :
    (q.setJobStatus i status).occupied =
      Function.update q.occupied i ((q.occupied i).map fun job => job.setJobStatus status) := by
  funext j
  by_cases hj : j = i
  · subst hj
    cases hd : q.jobSlotDone j <;> simp [occupied, setJobStatus, hd]
  · simp [occupied, setJobStatus, hj]

theorem WellFormed.setJobStatus (h : q.WellFormed) (i : Fin queueSize) (status : JobStatus) :
    (q.setJobStatus i status).WellFormed := by
  intro j hj
  obtain ⟨job, hjob⟩ := h j hj
  by_cases hji : j = i
  · subst hji
    exact ⟨job.setJobStatus status, by simp [ThreadQueue.setJobStatus, hjob]⟩
  · exact ⟨job, by simpa [ThreadQueue.setJobStatus, hji] using hjob⟩

theorem Sound.setJobStatus (h : q.Sound) (i : Fin queueSize) (status : JobStatus) :
    (q.setJobStatus i status).Sound := by
  constructor
  · intro j hj
    obtain ⟨job, hjob, hslice⟩ := h.filled j hj
    by_cases hji : j = i
    · subst hji
      exact ⟨job.setJobStatus status, by simp [ThreadQueue.setJobStatus, hjob], hslice⟩
    · exact ⟨job, by simpa [ThreadQueue.setJobStatus, hji] using hjob, hslice⟩
  · rw [occupied_setJobStatus, Slots.load,
      Slots.countIf_map (QueueJob.setJobStatus · status) (fun _ => rfl)]
    exact h.total

theorem holdsTask_setJobStatus (q : ThreadQueue) (i : Fin queueSize) (status : JobStatus)
    (address : ℕ) : (q.setJobStatus i status).holdsTask address = q.holdsTask address := by
  rw [holdsTask, occupied_setJobStatus,
    Slots.countIf_map (QueueJob.setJobStatus · status) (fun _ => rfl)]
  rfl

theorem occupied_markTaskAsComplete (q : ThreadQueue) :
    q.markTaskAsComplete.occupied = Function.update q.occupied q.head none := by
  funext j
  by_cases hj : j = q.head
  · subst hj
    simp [occupied, markTaskAsComplete, ThreadQueue.setJobStatus]
  · simp [occupied, markTaskAsComplete, ThreadQueue.setJobStatus, hj]

theorem WellFormed.markTaskAsComplete (h : q.WellFormed) : q.markTaskAsComplete.WellFormed := by
  intro j hj
  have hjh : j ≠ q.head := by
    rintro rfl
    simp [ThreadQueue.markTaskAsComplete, ThreadQueue.setJobStatus] at hj
  have hj' : q.jobSlotDone j = false := by
    simpa [ThreadQueue.markTaskAsComplete, ThreadQueue.setJobStatus, hjh] using hj
  simpa [ThreadQueue.markTaskAsComplete, ThreadQueue.setJobStatus, hjh] using h j hj'

theorem Sound.markTaskAsComplete (h : q.Sound) (hi : q.jobSlotDone q.head = false) :
    q.markTaskAsComplete.Sound := by
  obtain ⟨job, hjob, _⟩ := h.filled q.head hi
  constructor
  · intro j hj
    have hji : j ≠ q.head := by
      rintro rfl
      simp [ThreadQueue.markTaskAsComplete, ThreadQueue.setJobStatus] at hj
    have hj' : q.jobSlotDone j = false := by
      simpa [ThreadQueue.markTaskAsComplete, ThreadQueue.setJobStatus, hji] using hj
    simpa [ThreadQueue.markTaskAsComplete, ThreadQueue.setJobStatus, hji] using h.filled j hj'
  · have hsome : q.occupied q.head = some job := by simp [occupied, hi, hjob]
    have hclear := Slots.countIf_clear (p := fun _ => true) hsome
    rw [occupied_markTaskAsComplete]
    simp only [ThreadQueue.markTaskAsComplete, ThreadQueue.setJobStatus, h.total,
      Slots.load] at hclear ⊢
    simp at hclear
    omega

theorem holdsTask_markTaskAsComplete (hi : q.jobSlotDone q.head = false)
    (hjob : q.jobQueue q.head = some job) (address : ℕ) :
    q.markTaskAsComplete.holdsTask address +
        (if job.processTable.address = address then 1 else 0) = q.holdsTask address := by
  have hsome : q.occupied q.head = some job := by simp [occupied, hi, hjob]
  have hclear := Slots.countIf_clear (p := fun job => job.processTable.address == address) hsome
  rw [holdsTask, occupied_markTaskAsComplete]
  simpa [holdsTask] using hclear

@[simp] theorem occupied_flushFinishedJobs (q : ThreadQueue) :
    q.flushFinishedJobs.occupied = q.occupied := by
  funext i
  cases hi : q.jobSlotDone i <;> simp [occupied, flushFinishedJobs, hi]

theorem WellFormed.flushFinishedJobs (h : q.WellFormed) : q.flushFinishedJobs.WellFormed := by
  intro i hi
  have hi' : q.jobSlotDone i = false := hi
  simpa [ThreadQueue.flushFinishedJobs, hi'] using h i hi'

theorem Sound.flushFinishedJobs (h : q.Sound) : q.flushFinishedJobs.Sound := by
  constructor
  · intro i hi
    have hi' : q.jobSlotDone i = false := hi
    simpa [ThreadQueue.flushFinishedJobs, hi'] using h.filled i hi'
  · rw [occupied_flushFinishedJobs]
    exact h.total

end ThreadQueue

end WorkerUnit
