import WorkerUnit.Library.RoundRobin
import WorkerUnit.Library.StepSystem
import WorkerUnit.Scheduler.ThreadQueue

/-!
# The turns of the jobs of a queue

`getNextTask` goes around the slots from the one behind its head to the first that is
occupied. Between two such calls any slots may be filled and freed; a slot that stays
occupied is never passed.
-/

namespace WorkerUnit

open RoundRobin StepSystem

namespace ThreadQueue

variable {q : ThreadQueue} {i : Fin queueSize} {job : QueueJob}

/-- With no slot occupied the loop goes around to its end. -/
theorem nextTask_of_done (hdone : ∀ i, q.jobSlotDone i = true) (n : ℕ) :
    (q.nextTask n).1 = none := by
  induction n generalizing q with
  | zero => rfl
  | succ n ih =>
    rw [nextTask]
    dsimp only
    rw [hdone, if_neg (by simp)]
    exact ih hdone

/-- The loop stops at the first occupied slot, so it does not pass one of them. -/
theorem WellFormed.nextTask_of_gap (h : q.WellFormed) (hi : q.jobSlotDone i = false) {n : ℕ}
    (hn : gap q.head i < n) :
    ∃ k job, q.nextTask n = (some job, q.atHead k) ∧ q.occupied k = some job ∧
      Advances i q.head k := by
  induction n generalizing q with
  | zero => exact absurd hn (Nat.not_lt_zero _)
  | succ n ih =>
    cases hnext : q.jobSlotDone (q.head + 1) with
    | false =>
      obtain ⟨job, hjob⟩ := h (q.head + 1) hnext
      refine ⟨q.head + 1, job, ?_, occupied_eq_some.mpr ⟨hnext, hjob⟩, advances_next _ _⟩
      simp [nextTask, atHead, hnext, hjob]
    | true =>
      have hne : q.head + 1 ≠ i := by
        rintro rfl
        rw [hi] at hnext
        cases hnext
      have hgap := gap_succ hne
      have hmoved : (q.atHead (q.head + 1)).WellFormed := h
      obtain ⟨k, job, hfound, hjob, hadvances⟩ := ih hmoved hi
        (show gap (q.head + 1) i < n by omega)
      refine ⟨k, job, ?_, hjob, Advances.of_next hne hadvances⟩
      simpa [nextTask, atHead, hnext] using hfound

/-- `getNextTask` stops at an occupied slot and does not pass one. -/
theorem WellFormed.getNextTask_of_occupied (h : q.WellFormed) (hi : q.occupied i = some job) :
    ∃ k next, q.getNextTask = (some next, q.atHead k) ∧ q.occupied k = some next ∧
      Advances i q.head k :=
  h.nextTask_of_gap (occupied_eq_some.mp hi).1 (gap_lt q.head i)

/-- `getNextTask` finds nothing exactly when no slot is occupied. -/
theorem WellFormed.getNextTask_eq_none_iff (h : q.WellFormed) :
    q.getNextTask.1 = none ↔ ∀ i, q.occupied i = none := by
  constructor
  · intro hnone i
    cases hi : q.occupied i with
    | none => rfl
    | some job =>
      obtain ⟨k, next, hfound, _, _⟩ := h.getNextTask_of_occupied hi
      rw [hfound] at hnone
      cases hnone
  · intro hall
    apply nextTask_of_done
    intro i
    by_contra hi
    obtain ⟨job, hjob⟩ := h.occupied (Bool.not_eq_true _ ▸ hi)
    rw [hall i] at hjob
    cases hjob

end ThreadQueue

inductive TurnCall where
  | getNextTask
  | addNewTask (job : Option QueueJob)
  | popJob
  | markTaskAsComplete
  | flushFinishedJobs
  | setJobStatus (slot : Fin queueSize) (status : JobStatus)
  deriving DecidableEq, Repr

/-- A queue with what each `getNextTask` returned, and the slot it stopped at. -/
structure TurnRun where
  queue : ThreadQueue
  served : List (Fin queueSize × Option QueueJob)

namespace TurnRun

def start (queue : ThreadQueue) : TurnRun := ⟨queue, []⟩

/-- One call. `popJob` and `markTaskAsComplete` are undefined where they dereference a
null pointer. -/
def call (s : TurnRun) : TurnCall → Option TurnRun
  | .getNextTask =>
    let (next, queue) := s.queue.getNextTask
    some ⟨queue, s.served ++ [(queue.head, next)]⟩
  | .addNewTask job => some { s with queue := (s.queue.addNewTask job).2 }
  | .popJob => s.queue.popJob.map fun r => { s with queue := r.2 }
  | .markTaskAsComplete =>
    (s.queue.jobQueue s.queue.head).map fun _ => { s with queue := s.queue.markTaskAsComplete }
  | .flushFinishedJobs => some { s with queue := s.queue.flushFinishedJobs }
  | .setJobStatus slot status => some { s with queue := s.queue.setJobStatus slot status }

/-- The slot holds the job of the process table. -/
def Stays (i : Fin queueSize) (address : ℕ) (s : TurnRun) : Prop :=
  ∃ job, s.queue.occupied i = some job ∧ job.processTable.address = address

instance (i : Fin queueSize) (address : ℕ) : DecidablePred (Stays i address) := fun s =>
  decidable_of_iff ((s.queue.occupied i).any fun job => job.processTable.address = address) <| by
    simp [Stays, Option.any_eq_true]

/-- The job of the process table was returned from the slot. -/
def Served (i : Fin queueSize) (address : ℕ) (served : List (Fin queueSize × Option QueueJob)) :
    Prop := ∃ job, (i, some job) ∈ served ∧ job.processTable.address = address

end TurnRun

open TurnRun

/-- In every state of a run `getNextTask` finds nothing exactly when no slot is
occupied. A job that stays in its slot is returned in any `QUEUE_SIZE` calls of
`getNextTask` in a row, and between any two of these that stop at another slot. -/
structure FairTurns (queue : ThreadQueue) (calls : List TurnCall) : Prop where
  null : Always call (fun s => s.queue.getNextTask.1 = none ↔ ∀ i, s.queue.occupied i = none)
    (.start queue) calls
  window : ∀ i address s, Always call (Stays i address) (.start queue) calls →
    exec call (.start queue) calls = some s →
    ∀ stops, stops <:+: s.served → stops.length = queueSize → Served i address stops
  between : ∀ i address s, Always call (Stays i address) (.start queue) calls →
    exec call (.start queue) calls = some s →
    ∀ j x y earlier stops later, j ≠ i →
      s.served = earlier ++ (j, x) :: stops ++ (j, y) :: later → Served i address stops

namespace TurnRun

variable {s t : TurnRun} {i : Fin queueSize} {address : ℕ}

/-- Every call but `getNextTask` leaves the head where it is, and no call leaves a slot
without its job. -/
theorem call_cases (h : s.queue.WellFormed) {c : TurnCall} (ht : s.call c = some t) :
    t.queue.WellFormed ∧
      ((c = .getNextTask ∧ t.queue = s.queue.getNextTask.2 ∧
          t.served = s.served ++ [(t.queue.head, s.queue.getNextTask.1)]) ∨
        (t.queue.head = s.queue.head ∧ t.served = s.served)) := by
  cases c with
  | getNextTask =>
    cases ht
    obtain ⟨k, hk⟩ := s.queue.getNextTask_atHead
    refine ⟨?_, .inl ⟨rfl, rfl, rfl⟩⟩
    have hsame : (s.queue.atHead k).WellFormed := h
    rwa [← hk] at hsame
  | addNewTask job =>
    cases ht
    obtain ⟨hadd, hhead⟩ := h.addNewTask job
    exact ⟨hadd, .inr ⟨hhead, rfl⟩⟩
  | popJob =>
    obtain ⟨⟨popped, queue⟩, hpop, rfl⟩ := Option.map_eq_some_iff.mp ht
    rcases ThreadQueue.popSlot_cases hpop with ⟨-, rfl⟩ | ⟨i, job, -, -, -, rfl⟩
    · exact ⟨h, .inr ⟨rfl, rfl⟩⟩
    · exact ⟨h.remove i, .inr ⟨rfl, rfl⟩⟩
  | markTaskAsComplete =>
    obtain ⟨job, -, rfl⟩ := Option.map_eq_some_iff.mp ht
    exact ⟨h.markTaskAsComplete, .inr ⟨rfl, rfl⟩⟩
  | flushFinishedJobs =>
    cases ht
    exact ⟨h.flushFinishedJobs, .inr ⟨rfl, rfl⟩⟩
  | setJobStatus slot status =>
    cases ht
    exact ⟨h.setJobStatus slot status, .inr ⟨rfl, rfl⟩⟩

/-- The stops so far never passed the slot, the head is at the last of them, and a stop
at the slot returned its job. -/
structure TakesTurns (i : Fin queueSize) (address : ℕ) (s : TurnRun) : Prop where
  wellFormed : s.queue.WellFormed
  advances : (s.served.map Prod.fst).IsChain (Advances i)
  last : ∀ stop ∈ s.served.getLast?, stop.1 = s.queue.head
  returned : ∀ stop ∈ s.served, stop.1 = i → ∃ job, stop.2 = some job ∧
    job.processTable.address = address

theorem takesTurns_start {queue : ThreadQueue} (h : queue.WellFormed) (i : Fin queueSize)
    (address : ℕ) : (start queue).TakesTurns i address where
  wellFormed := h
  advances := .nil
  last := nofun
  returned := nofun

/-- While the job is in its slot, each call keeps the turns. -/
theorem TakesTurns.step {c : TurnCall} (hstays : s.Stays i address) (h : s.TakesTurns i address)
    (ht : s.call c = some t) : t.TakesTurns i address := by
  obtain ⟨hwell, ⟨-, hqueue, hserved⟩ | ⟨hhead, hserved⟩⟩ := call_cases h.wellFormed ht
  · obtain ⟨job, hjob, haddress⟩ := hstays
    obtain ⟨k, next, hfound, hk, hadvances⟩ := h.wellFormed.getNextTask_of_occupied hjob
    have hhead : t.queue.head = k := by rw [hqueue, hfound]; rfl
    rw [hfound, hhead] at hserved
    constructor
    · exact hwell
    · rw [hserved, List.map_append, List.isChain_append]
      refine ⟨h.advances, .singleton _, fun x hx y hy => ?_⟩
      rw [List.getLast?_map, Option.mem_map] at hx
      obtain ⟨stop, hstop, rfl⟩ := hx
      cases hy
      rw [h.last stop hstop]
      exact hadvances
    · intro stop hstop
      rw [hserved, List.getLast?_concat] at hstop
      cases hstop
      exact hhead.symm
    · intro stop hstop hi
      rw [hserved, List.mem_append, List.mem_singleton] at hstop
      rcases hstop with hstop | rfl
      · exact h.returned stop hstop hi
      · obtain rfl : k = i := hi
        cases hk.symm.trans hjob
        exact ⟨job, rfl, haddress⟩
  · constructor
    · exact hwell
    · rw [hserved]
      exact h.advances
    · rw [hserved, hhead]
      exact h.last
    · rw [hserved]
      exact h.returned

/-- A stop at the slot returned its job. -/
theorem TakesTurns.served (h : s.TakesTurns i address)
    {stops : List (Fin queueSize × Option QueueJob)} (hstops : stops <:+: s.served)
    (hi : i ∈ stops.map Prod.fst) : Served i address stops := by
  obtain ⟨⟨k, found⟩, hmem, rfl⟩ := List.mem_map.mp hi
  obtain ⟨job, hjob, haddress⟩ := h.returned _ (hstops.mem hmem) rfl
  obtain rfl : found = some job := hjob
  exact ⟨job, hmem, haddress⟩

theorem wellFormed_of_exec {queue : ThreadQueue} (h : queue.WellFormed) {calls : List TurnCall}
    (hrun : exec call (start queue) calls = some s) : s.queue.WellFormed :=
  exec_invariant (P := fun s => s.queue.WellFormed) (fun _ _ _ hs ht => (call_cases hs ht).1) h
    hrun

end TurnRun

/-- The turns of a well-formed queue are fair in every run. -/
theorem fairTurns_of_wellFormed (queue : ThreadQueue) (h : queue.WellFormed)
    (calls : List TurnCall) : FairTurns queue calls := by
  have hturns : ∀ i address s, Always call (Stays i address) (.start queue) calls →
      exec call (.start queue) calls = some s → s.TakesTurns i address := by
    intro i address s hstays hrun
    exact always_invariant (fun _ _ _ hC hs ht => TakesTurns.step hC hs ht)
      (takesTurns_start h i address) hstays hrun
  constructor
  · intro earlier s _ hrun
    exact (wellFormed_of_exec h hrun).getNextTask_eq_none_iff
  · intro i address s hstays hrun stops hstops hlength
    have hs := hturns i address s hstays hrun
    apply hs.served hstops
    have hchain := List.IsChain.infix hs.advances (hstops.map Prod.fst)
    exact mem_of_length hchain (by rw [List.length_map, hlength])
  · intro i address s hstays hrun j x y earlier stops later hne hserved
    have hs := hturns i address s hstays hrun
    have hmiddle : (j, x) :: stops ++ [(j, y)] <:+: s.served :=
      ⟨earlier, later, by rw [hserved]; simp⟩
    have hstops : stops <:+: s.served :=
      ⟨earlier ++ [(j, x)], (j, y) :: later, by rw [hserved]; simp⟩
    apply hs.served hstops
    have hchain := List.IsChain.infix hs.advances (hmiddle.map Prod.fst)
    rw [List.map_append] at hchain
    exact mem_between hchain hne

/-- A queue that holds two jobs. -/
def twoJobs : ThreadQueue :=
  ((ThreadQueue.new fun _ => none).place 0
    (.new (.registered 0 ⟨4, true, true, true, true⟩ .highPriority))).place 1
    (.new (.registered 1 ⟨4, true, true, true, true⟩ .lowPriority))

/-- Four turns with other calls in between; both jobs stay in their slots. -/
def fourTurns : List TurnCall :=
  [.getNextTask, .flushFinishedJobs, .getNextTask, .getNextTask, .addNewTask none, .getNextTask]

theorem fairTurns_twoJobs :
    FairTurns twoJobs fourTurns ∧ ∃ s, exec call (.start twoJobs) fourTurns = some s ∧
      s.served.map Prod.fst = [1, 0, 1, 0] ∧ Served 0 0 s.served := by
  have hwell : twoJobs.WellFormed := ((ThreadQueue.wellFormed_new _).place 0 _).place 1 _
  have hfair := fairTurns_of_wellFormed twoJobs hwell fourTurns
  have hstays : Always call (Stays 0 0) (.start twoJobs) fourTurns := by decide
  have hrun : (exec call (.start twoJobs) fourTurns).map (fun s => s.served.map Prod.fst) =
      some [1, 0, 1, 0] := by decide
  obtain ⟨s, hs, hserved⟩ := Option.map_eq_some_iff.mp hrun
  refine ⟨hfair, s, hs, hserved, hfair.window 0 0 s hstays hs s.served (List.infix_refl _) ?_⟩
  rw [← List.length_map Prod.fst, hserved]
  rfl

end WorkerUnit
