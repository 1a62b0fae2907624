import WorkerUnit.Library.StepSystem
import WorkerUnit.Sender.AwaitInvariant

/-!
# Sequences of calls on the sender stacks

One thread calls `push`, `pushFront`, `popForwardStack` and `matchItem` in any
order. A call that never returns ends the sequence. The semaphores are back at
one after every call that returns, and the only call that does not return is the
acknowledgement of the last of the six slots.
-/

namespace WorkerUnit

open Semaphore StepSystem

inductive SenderCall where
  | push (package : ForwardStackPackage)
  | pushFront (package : ForwardStackPackage)
  | popForwardStack
  | matchItem (statusCode : ℤ) (tableID : Text)
  deriving DecidableEq

namespace ForwardStack

/-- The stacks after the call, whatever it returns. -/
def perform (f : ForwardStack) : SenderCall → Except Stuck ForwardStack
  | .push package => f.push package
  | .pushFront package => f.pushFront package
  | .popForwardStack => f.popForwardStack.map Prod.snd
  | .matchItem statusCode tableID =>
    (f.awaitStack.matchItem statusCode tableID).map fun r => { f with awaitStack := r.2 }

/-- A completed call, as a step. -/
def complete (f : ForwardStack) (c : SenderCall) : Option ForwardStack := (f.perform c).toOption

/-- The call acknowledges an item while five of the six slots are acknowledged. -/
def AcksLastSlot (f : ForwardStack) (c : SenderCall) : Prop :=
  ∃ statusCode tableID, c = .matchItem statusCode tableID ∧
    f.awaitStack.ackedPackets + 1 = totalDiffredPackets ∧
    f.awaitStack.Matches statusCode tableID

variable {f : ForwardStack}

theorem Sound.perform (h : f.Sound) {c : SenderCall} (hc : ¬ f.AcksLastSlot c) :
    ∃ g, f.perform c = .ok g ∧ g.Sound := by
  cases c with
  | push package => exact ⟨_, h.push_eq package, h.lock, h.awaitStack⟩
  | pushFront package => exact ⟨_, h.pushFront_eq package, h.lock, h.awaitStack⟩
  | popForwardStack =>
    cases hs : f.senderStack with
    | nil => exact ⟨f, by simp [ForwardStack.perform, popForwardStack_nil hs, Except.map], h⟩
    | cons item rest =>
      exact ⟨f.popped item rest,
        by simp [ForwardStack.perform, h.popForwardStack_cons hs, Except.map], h.popped item rest⟩
  | matchItem statusCode tableID =>
    by_cases hm : f.awaitStack.Matches statusCode tableID
    · have hlt : f.awaitStack.ackedPackets + 1 < totalDiffredPackets := by
        have := h.awaitStack.acked_lt
        have hne : f.awaitStack.ackedPackets + 1 ≠ totalDiffredPackets :=
          fun he => hc ⟨statusCode, tableID, rfl, he, hm⟩
        omega
      obtain ⟨i, item, hi, _, he⟩ := h.awaitStack.matchItem_of_matches hm hlt
      exact ⟨{ f with awaitStack := f.awaitStack.ackPacket i },
        by simp [ForwardStack.perform, he, Except.map], h.lock, h.awaitStack.ackPacket hi hlt⟩
    · have he := h.awaitStack.matchItem_of_not_matches hm
      exact ⟨f, by simp [ForwardStack.perform, he, Except.map], h⟩

theorem Sound.perform_blocked (h : f.Sound) {c : SenderCall} (hc : f.AcksLastSlot c) :
    f.perform c = .error .blocked := by
  obtain ⟨statusCode, tableID, rfl, heq, hm⟩ := hc
  simp [ForwardStack.perform, h.awaitStack.matchItem_blocked hm heq, Except.map]

theorem complete_eq_some {g : ForwardStack} {c : SenderCall} :
    f.complete c = some g ↔ f.perform c = .ok g := by
  unfold complete
  cases f.perform c <;> simp [Except.toOption]

theorem Sound.complete {g : ForwardStack} {c : SenderCall} (h : f.Sound)
    (hg : f.complete c = some g) : g.Sound := by
  rw [complete_eq_some] at hg
  by_cases hc : f.AcksLastSlot c
  · rw [h.perform_blocked hc] at hg
    cases hg
  · obtain ⟨g', hg', hs⟩ := h.perform hc
    cases hg'.symm.trans hg
    exact hs

theorem sound_of_exec {calls : List SenderCall}
    (h : exec ForwardStack.complete .init calls = some f) : f.Sound :=
  exec_invariant (fun _ _ _ hs hg => hs.complete hg) sound_init h

/-- After any completed calls, a further call returns, with both semaphores back
at one, exactly when it does not acknowledge the last slot. -/
theorem returns_iff (calls : List SenderCall)
    (h : exec ForwardStack.complete .init calls = some f) (c : SenderCall) :
    (∃ g, f.perform c = .ok g ∧ g.stackLock = 1 ∧ g.awaitStack.stackLock = 1) ↔
      ¬ f.AcksLastSlot c := by
  have hs := sound_of_exec h
  constructor
  · rintro ⟨g, hg, _⟩ hc
    rw [hs.perform_blocked hc] at hg
    cases hg
  · intro hc
    obtain ⟨g, hg, hsound⟩ := hs.perform hc
    exact ⟨g, hg, hsound.lock, hsound.awaitStack.lock⟩

/-- A final result for the table `t`. -/
def resultPackage : ForwardStackPackage := ⟨.fresSend, 1, ['t'], ['r']⟩

/-- `n` results are queued and sent, and all but one of them acknowledged. -/
def oneAckLeft (n : ℕ) : List SenderCall :=
  List.replicate n (.push resultPackage) ++ List.replicate n .popForwardStack ++
    List.replicate (n - 1) (.matchItem spFresAck ['t'])

/-- The fifth of five acknowledgements returns. -/
theorem returns_fifth :
    ∃ f, exec ForwardStack.complete .init (oneAckLeft 5) = some f ∧
      ∃ g, f.perform (.matchItem spFresAck ['t']) = .ok g ∧
        g.stackLock = 1 ∧ g.awaitStack.stackLock = 1 := by
  have hrun : ((exec ForwardStack.complete .init (oneAckLeft 5)).map fun f =>
      f.awaitStack.ackedPackets) = some 4 := by decide
  obtain ⟨f, hf, hacked⟩ := Option.map_eq_some_iff.mp hrun
  refine ⟨f, hf, (returns_iff _ hf (.matchItem spFresAck ['t'])).mpr ?_⟩
  rintro ⟨_, _, _, hlast, _⟩
  simp [hacked] at hlast

/-- The sixth acknowledgement never returns. -/
theorem not_returns_sixth :
    ¬ ∀ calls f, exec ForwardStack.complete .init calls = some f → ∀ c,
      ∃ g, f.perform c = .ok g ∧ g.stackLock = 1 ∧ g.awaitStack.stackLock = 1 := by
  intro h
  have hrun : ((exec ForwardStack.complete .init (oneAckLeft totalDiffredPackets)).map fun f =>
      f.perform (.matchItem spFresAck ['t'])) = some (.error .blocked) := by decide
  obtain ⟨f, hf, hblocked⟩ := Option.map_eq_some_iff.mp hrun
  obtain ⟨g, hg, _⟩ := h _ f hf (.matchItem spFresAck ['t'])
  rw [hblocked] at hg
  cases hg

end ForwardStack

end WorkerUnit
