import WorkerUnit.Library.Deque
import WorkerUnit.Library.StepSystem
import WorkerUnit.Sender.SenderCalls
import WorkerUnit.Sender.SenderSink

/-!
# The forward stack against a double-ended queue

Packets are pushed through the sender sink, popped from the forward stack and
acknowledged in any order. What `popForwardStack` exports is what a plain
double-ended queue of packages gives out.
-/

namespace WorkerUnit

open Semaphore StepSystem

inductive SinkCall where
  | pushPacket (package : ForwardStackPackage)
  | popForwardStack
  | matchItem (statusCode : ℤ) (tableID : Text)
  deriving DecidableEq

/-- What the call does to the reference queue: a seize notice enters at the front. -/
def SinkCall.dequeOp : SinkCall → Option (DequeOp ForwardStackPackage)
  | .pushPacket package =>
    some (if package.statusCode = .seize then .pushFront package else .pushRear package)
  | .popForwardStack => some .popFront
  | .matchItem _ _ => none

def SinkCall.package? : SinkCall → Option ForwardStackPackage
  | .pushPacket package => some package
  | _ => none

structure SinkRun where
  senderSink : SenderSink
  exported : List ForwardStackPackage
  deriving DecidableEq

namespace SinkRun

def start : SinkRun := ⟨.init, []⟩

def withStack (s : SinkRun) (fwdStack : ForwardStack) : SinkRun :=
  { s with senderSink := { s.senderSink with fwdStack := fwdStack } }

/-- A completed call; a call that never returns ends the run. -/
def sinkStep (s : SinkRun) : SinkCall → Option SinkRun
  | .pushPacket package =>
    (s.senderSink.pushPacket package).toOption.map fun senderSink =>
      { s with senderSink := senderSink }
  | .popForwardStack =>
    s.senderSink.fwdStack.popForwardStack.toOption.map fun (package, fwdStack) =>
      { s.withStack fwdStack with exported := s.exported ++ [package] }
  | .matchItem statusCode tableID =>
    (s.senderSink.fwdStack.complete (.matchItem statusCode tableID)).map s.withStack

/-- The reference queue after the calls. -/
def reference (calls : List SinkCall) : Deque ForwardStackPackage :=
  Deque.empty.applyAll (calls.filterMap SinkCall.dequeOp)

/-- The stack holds the packages of the reference queue, and has exported what
the queue gave out, with the default package for an empty queue. -/
structure Matches (s : SinkRun) (d : Deque ForwardStackPackage) : Prop where
  sound : s.senderSink.fwdStack.Sound
  waiting : s.senderSink.fwdStack.senderStack.map (·.package) = d.waiting
  exported : s.exported = d.exported.map (·.getD .empty)

variable {s t : SinkRun} {d : Deque ForwardStackPackage}

theorem matches_start : start.Matches .empty := ⟨ForwardStack.sound_init, rfl, rfl⟩

theorem Matches.pushPacket (h : s.Matches d) (package : ForwardStackPackage)
    (ht : s.sinkStep (.pushPacket package) = some t) :
    t.Matches (d.apply
      (if package.statusCode = .seize then .pushFront package else .pushRear package)) := by
  simp only [sinkStep, SenderSink.pushPacket] at ht
  split_ifs at ht ⊢ with hseize
  · simp only [h.sound.pushFront_eq, bind, Except.bind, Except.toOption, Option.map_some,
      Option.some.injEq] at ht
    subst ht
    exact ⟨⟨h.sound.lock, h.sound.awaitStack⟩, by simp [Deque.apply, h.waiting], h.exported⟩
  · simp only [h.sound.push_eq, bind, Except.bind, Except.toOption, Option.map_some,
      Option.some.injEq] at ht
    subst ht
    exact ⟨⟨h.sound.lock, h.sound.awaitStack⟩, by simp [Deque.apply, h.waiting], h.exported⟩

theorem Matches.popForwardStack (h : s.Matches d) (ht : s.sinkStep .popForwardStack = some t) :
    t.Matches (d.apply .popFront) := by
  cases hs : s.senderSink.fwdStack.senderStack with
  | nil =>
    have hw : d.waiting = [] := by rw [← h.waiting, hs, List.map_nil]
    simp only [sinkStep, ForwardStack.popForwardStack_nil hs, Except.toOption, Option.map_some,
      Option.some.injEq] at ht
    subst ht
    exact ⟨h.sound, by simp [withStack, Deque.apply, hs, hw], by simp [Deque.apply, h.exported, hw]⟩
  | cons item rest =>
    have hw : d.waiting = item.package :: rest.map (·.package) := by
      rw [← h.waiting, hs, List.map_cons]
    simp only [sinkStep, h.sound.popForwardStack_cons hs, Except.toOption, Option.map_some,
      Option.some.injEq] at ht
    subst ht
    refine ⟨h.sound.popped item rest, ?_, ?_⟩
    · simp [withStack, ForwardStack.popped, Deque.apply, hw]
    · simp [Deque.apply, h.exported, hw]

theorem Matches.matchItem (h : s.Matches d) {statusCode : ℤ} {tableID : Text}
    (ht : s.sinkStep (.matchItem statusCode tableID) = some t) : t.Matches d := by
  obtain ⟨fwdStack, hf, rfl⟩ := Option.map_eq_some_iff.mp ht
  have hstack : fwdStack.senderStack = s.senderSink.fwdStack.senderStack := by
    have hperform := ForwardStack.complete_eq_some.mp hf
    simp only [ForwardStack.perform] at hperform
    cases hm : s.senderSink.fwdStack.awaitStack.matchItem statusCode tableID with
    | error e =>
      rw [hm] at hperform
      cases hperform
    | ok r =>
      rw [hm] at hperform
      cases hperform
      rfl
  refine ⟨h.sound.complete hf, ?_, h.exported⟩
  rw [← h.waiting, ← hstack]
  rfl

theorem Matches.step (h : s.Matches d) {c : SinkCall} (ht : s.sinkStep c = some t) :
    t.Matches (c.dequeOp.elim d d.apply) := by
  cases c with
  | pushPacket package => exact h.pushPacket package ht
  | popForwardStack => exact h.popForwardStack ht
  | matchItem statusCode tableID => exact h.matchItem ht

theorem matches_reference {calls : List SinkCall} (h : exec sinkStep start calls = some s) :
    s.Matches (reference calls) := by
  have hmatches := exec_simulates
    (fun s d c t (hs : Matches s d) (ht : sinkStep s c = some t) => hs.step ht) matches_start h
  rwa [reference, Deque.applyAll_filterMap]

theorem item?_dequeOp (c : SinkCall) : c.dequeOp.bind DequeOp.item? = c.package? := by
  cases c with
  | pushPacket package =>
    simp only [SinkCall.dequeOp, SinkCall.package?, Option.bind_some]
    split_ifs <;> rfl
  | popForwardStack => rfl
  | matchItem statusCode tableID => rfl

/-- In every run of completed calls the exports are those of the reference
queue, each pushed package is exported once or still waits, and the await stack
counts as free, so that `getNonackableItem` is not called. -/
theorem exports_reference (calls : List SinkCall) (h : exec sinkStep start calls = some s) :
    s.exported = (reference calls).exported.map (·.getD .empty) ∧
      s.senderSink.fwdStack.senderStack.map (·.package) = (reference calls).waiting ∧
      (reference calls).items.Perm (calls.filterMap SinkCall.package?) ∧
      s.senderSink.fwdStack.awaitStack.isFree = true := by
  have hmatches := matches_reference h
  refine ⟨hmatches.exported, hmatches.waiting, ?_, hmatches.sound.awaitStack.isFree⟩
  have hitems := Deque.items_applyAll Deque.empty (calls.filterMap SinkCall.dequeOp)
  rw [List.filterMap_filterMap, funext item?_dequeOp] at hitems
  exact hitems

/-- A result, a seize notice that overtakes it, and an export too many. -/
def seizedResult : List SinkCall :=
  [.pushPacket ForwardStack.resultPackage, .pushPacket ⟨.seize, 3, [], []⟩, .popForwardStack,
    .popForwardStack, .matchItem spFresAck ['t'], .popForwardStack]

theorem exports_reference_seizedResult :
    ∃ s, exec sinkStep start seizedResult = some s ∧
      s.exported = [⟨.seize, 3, [], []⟩, ForwardStack.resultPackage, .empty] ∧
      s.senderSink.fwdStack.senderStack.map (·.package) = (reference seizedResult).waiting := by
  obtain ⟨s, hs⟩ : ∃ s, exec sinkStep start seizedResult = some s :=
    Option.isSome_iff_exists.mp (by decide)
  obtain ⟨hexported, hwaiting, _, _⟩ := exports_reference seizedResult hs
  refine ⟨s, hs, ?_, hwaiting⟩
  rw [hexported]
  rfl

end SinkRun

end WorkerUnit
