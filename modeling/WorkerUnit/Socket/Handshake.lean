import WorkerUnit.Sender.QuickSend
import WorkerUnit.Socket.SocketTask

/-!
# The handshake of the sender

`popPacket` first asks the server for an id, then waits for it, and from then on
makes packets that carry it. Only a call that waits initialises the sender: one that
finds the id already set does not.
-/

namespace WorkerUnit

open StepSystem

/-- The bit `P_HANDSHAKE` of a head. -/
def handshakeBit : ℕ := 1

/-- A packet that `popPacket` has returned, with the id that was assigned then. -/
structure Produced where
  packet : Option Packet
  assigned : Text
  deriving DecidableEq, Repr

def Produced.isHandshake (p : Produced) : Bool :=
  p.packet.any fun packet => packet.head.testBit handshakeBit

/-- The loop of the socket with the packets produced so far. -/
structure HandshakeRun where
  loop : SocketRun
  produced : List Produced
  deriving DecidableEq

namespace HandshakeRun

def start : HandshakeRun := ⟨.start, []⟩

/-- What a call that ends in this state has returned. -/
def returned (loop : SocketRun) : List Produced :=
  match loop.stage with
  | .packetReady upPacket _ => [⟨upPacket, loop.workerId⟩]
  | _ => []

/-- One step of the loop or of another thread; the receiver assigns no empty id. -/
def handshakeStep (s : HandshakeRun) (e : SocketEvent) : Option HandshakeRun :=
  match e with
  | .setWorkerId [] => none
  | .popPacket | .workerIdTested =>
    (SocketRun.socketTask s.loop e).map fun loop => ⟨loop, s.produced ++ returned loop⟩
  | _ => (SocketRun.socketTask s.loop e).map fun loop => ⟨loop, s.produced⟩

/-- A handshake is the first packet, every other one carries the assigned id, and
after one of these the sender is initialised. -/
structure HandshakeLaw (s : HandshakeRun) : Prop where
  first : ∀ before p after, s.produced = before ++ p :: after → p.isHandshake = true → before = []
  identified : ∀ p ∈ s.produced, p.isHandshake = false →
    p.assigned ≠ [] ∧ ∃ packet, p.packet = some packet ∧ packet.id = p.assigned
  initilized : (∃ p ∈ s.produced, p.isHandshake = false) → s.loop.senderSink.initSender = true

/-- A call that finds the id set comes after one that waited for it, and the id has no
null character. -/
def Initialises (s : HandshakeRun) : SocketEvent → Prop
  | .popPacket => s.loop.workerId ≠ [] →
      s.loop.senderSink.initSender = true ∧ '\x00' ∉ s.loop.workerId
  | .workerIdTested => '\x00' ∉ s.loop.workerId
  | _ => True

instance (s : HandshakeRun) (e : SocketEvent) : Decidable (s.Initialises e) := by
  unfold Initialises
  cases e <;> exact inferInstance

/-- Before an id is assigned the only packet is the handshake. -/
structure Shaken (s : HandshakeRun) : Prop where
  law : s.HandshakeLaw
  unassigned : s.loop.workerId = [] → s.loop.senderSink.handshakeSent = false → s.produced = []
  seen : s.loop.stage = .idSeen → s.loop.workerId ≠ []

variable {s t : HandshakeRun}

theorem shaken_start : start.Shaken where
  law := ⟨by simp [start], by simp [start], by simp [start]⟩
  unassigned := fun _ _ => rfl
  seen := nofun

/-- A packet made of an item carries the id up to its first null character, and is
not a handshake. -/
theorem createPacket_id (sink : SenderSink) (workerId : Text) (soc : Socket)
    (item : ForwardStackPackage) :
    (createPacket sink workerId soc item).1.id = cStr workerId ∧
      (createPacket sink workerId soc item).1.head.testBit handshakeBit = false := by
  constructor
  · unfold createPacket
    cases item.statusCode <;> rfl
  · have hbit : ComputePacketStatus.handshake.value = 2 ^ handshakeBit := rfl
    have hcode : (getPacketHead soc item.statusCode).1 ≠ .handshake := by
      cases item.statusCode <;> nofun
    rw [createPacket_head]
    split_ifs
    · rw [Nat.testBit_or, ComputePacketStatus.testBit_value_of_ne hbit hcode,
        ComputePacketStatus.testBit_value_of_ne hbit (by decide), Bool.or_false]
    · exact ComputePacketStatus.testBit_value_of_ne hbit hcode

/-- What a call returns that takes an item. -/
theorem returned_popItem {loop more : SocketRun} (h : loop.popItem = some more) :
    (∃ packet, returned more = [⟨some packet, loop.workerId⟩] ∧ packet.id = cStr loop.workerId ∧
        packet.head.testBit handshakeBit = false) ∧
      more.workerId = loop.workerId ∧
      more.senderSink.initSender = loop.senderSink.initSender ∧ more.stage ≠ .idSeen := by
  unfold SocketRun.popItem at h
  split at h
  · cases h
  · rename_i package fwdStack hpop
    cases h
    exact ⟨⟨_, rfl, createPacket_id _ _ _ _⟩, rfl, rfl, nofun⟩

/-- A packet that is not a handshake joins the others. -/
theorem HandshakeLaw.produce (h : s.HandshakeLaw) {packet : Packet} {id : Text}
    (hpacket : packet.head.testBit handshakeBit = false)
    (hproduced : t.produced = s.produced ++ [⟨some packet, id⟩]) :
    t.HandshakeLaw ↔ (id ≠ [] ∧ packet.id = id) ∧ t.loop.senderSink.initSender = true := by
  have hnew : Produced.isHandshake ⟨some packet, id⟩ = false := by
    simpa [Produced.isHandshake] using hpacket
  have hmem : ⟨some packet, id⟩ ∈ t.produced := by simp [hproduced]
  constructor
  · intro law
    obtain ⟨hid, found, hfound, hsame⟩ := law.identified _ hmem hnew
    cases hfound
    exact ⟨⟨hid, hsame⟩, law.initilized ⟨_, hmem, hnew⟩⟩
  · rintro ⟨⟨hid, hsame⟩, hinit⟩
    constructor
    · intro before p after hsplit hshake
      rcases List.eq_nil_or_concat after with rfl | ⟨rest, last, rfl⟩
      · rw [hproduced] at hsplit
        obtain ⟨-, hlast⟩ := List.append_inj' hsplit rfl
        cases hlast
        rw [hnew] at hshake
        cases hshake
      · rw [hproduced, List.concat_eq_append, ← List.cons_append, ← List.append_assoc] at hsplit
        exact h.first before p rest (List.append_inj' hsplit rfl).1 hshake
    · intro p hp hnot
      rw [hproduced] at hp
      rcases List.mem_append.mp hp with hp | hp
      · exact h.identified p hp hnot
      · cases List.mem_singleton.mp hp
        exact ⟨hid, packet, rfl, hsame⟩
    · exact fun _ => hinit

/-- A step that returns no packet and forgets none of the flags. -/
theorem Shaken.quiet (h : s.Shaken) (hproduced : t.produced = s.produced)
    (hinit : s.loop.senderSink.initSender = true → t.loop.senderSink.initSender = true)
    (hunassigned : t.loop.workerId = [] → t.loop.senderSink.handshakeSent = false →
      s.loop.workerId = [] ∧ s.loop.senderSink.handshakeSent = false)
    (hseen : t.loop.stage = .idSeen → t.loop.workerId ≠ []) : t.Shaken := by
  refine ⟨⟨?_, ?_, ?_⟩, ?_, hseen⟩
  · rw [hproduced]
    exact h.law.first
  · rw [hproduced]
    exact h.law.identified
  · rw [hproduced]
    exact fun hother => hinit (h.law.initilized hother)
  · rw [hproduced]
    exact fun hid hsent => h.unassigned (hunassigned hid hsent).1 (hunassigned hid hsent).2

/-- A call that takes an item with the id assigned. -/
theorem Shaken.popItem (h : s.Shaken) {loop more : SocketRun} (hid : loop.workerId ≠ [])
    (hpop : loop.popItem = some more) :
    (HandshakeLaw ⟨more, s.produced ++ returned more⟩ ↔
        loop.senderSink.initSender = true ∧ '\x00' ∉ loop.workerId) ∧
      (loop.senderSink.initSender = true ∧ '\x00' ∉ loop.workerId →
        Shaken ⟨more, s.produced ++ returned more⟩) := by
  obtain ⟨⟨packet, hreturned, hpacket, hhead⟩, hworker, hinit, hstage⟩ := returned_popItem hpop
  have hlaw : HandshakeLaw ⟨more, s.produced ++ returned more⟩ ↔
      loop.senderSink.initSender = true ∧ '\x00' ∉ loop.workerId := by
    rw [h.law.produce hhead (congrArg (s.produced ++ ·) hreturned), hpacket, cStr_eq_self_iff,
      hinit]
    tauto
  refine ⟨hlaw, fun hgood => ⟨hlaw.mpr hgood, ?_, ?_⟩⟩
  · exact fun hempty => absurd (hworker.symm.trans hempty) hid
  · exact fun hseen => absurd hseen hstage

/-- The handshake is the first packet. -/
theorem Shaken.handshake (h : s.Shaken) (hid : s.loop.workerId = [])
    (hsent : s.loop.senderSink.handshakeSent = false) :
    Shaken ⟨{ s.loop with
      senderSink := { s.loop.senderSink with handshakeSent := true }
      stage := .packetReady (some handshakePacket) none },
      s.produced ++ [⟨some handshakePacket, s.loop.workerId⟩]⟩ := by
  have hnone : s.produced = [] := h.unassigned hid hsent
  have hshake : Produced.isHandshake ⟨some handshakePacket, s.loop.workerId⟩ = true := by
    change handshakePacket.head.testBit handshakeBit = true
    decide
  have honly : ∀ p ∈ s.produced ++ [⟨some handshakePacket, s.loop.workerId⟩],
      p.isHandshake = true := by
    intro p hp
    rw [hnone, List.nil_append, List.mem_singleton] at hp
    rw [hp, hshake]
  refine ⟨⟨?_, ?_, ?_⟩, (fun _ hsent => by cases hsent), (fun hseen => by cases hseen)⟩
  · intro before p after hsplit _
    simp only [hnone, List.nil_append] at hsplit
    cases before with
    | nil => rfl
    | cons first rest => simp at hsplit
  · intro p hp hnot
    rw [honly p hp] at hnot
    cases hnot
  · rintro ⟨p, hp, hnot⟩
    rw [honly p hp] at hnot
    cases hnot

/-- Only a call that finds the id set may break the law. -/
theorem Shaken.popPacket (h : s.Shaken) (ht : handshakeStep s .popPacket = some t) :
    (t.HandshakeLaw ↔ s.Initialises .popPacket) ∧ (s.Initialises .popPacket → t.Shaken) := by
  obtain ⟨more, hmore, rfl⟩ := Option.map_eq_some_iff.mp ht
  obtain ⟨-, ⟨hid, hsent, rfl⟩ | ⟨hid, hsent, rfl⟩ | ⟨hid, hpop⟩⟩ :=
    SocketRun.socketTask_popPacket hmore
  · have hkeep : Shaken ⟨{ s.loop with stage := .waitingForId }, s.produced ++ []⟩ := by
      refine h.quiet (List.append_nil _) (fun hinit => hinit) ?_ ?_
      · intro _ hnot
        cases hsent.symm.trans hnot
      · intro hseen
        cases hseen
    exact step_iff_of_met (fun h => h.law) (fun hne => absurd hid hne) hkeep
  · have hkeep := h.handshake hid hsent
    exact step_iff_of_met (fun h => h.law) (fun hne => absurd hid hne) hkeep
  · have hiff : s.Initialises .popPacket ↔
        s.loop.senderSink.initSender = true ∧ '\x00' ∉ s.loop.workerId :=
      ⟨fun he => he hid, fun hgood _ => hgood⟩
    rw [hiff]
    exact h.popItem hid hpop

/-- A call that has waited for the id initialises the sender. -/
theorem Shaken.workerIdTested (h : s.Shaken) (ht : handshakeStep s .workerIdTested = some t) :
    (t.HandshakeLaw ↔ s.Initialises .workerIdTested) ∧
      (s.Initialises .workerIdTested → t.Shaken) := by
  obtain ⟨more, hmore, rfl⟩ := Option.map_eq_some_iff.mp ht
  obtain ⟨hstage, ⟨hid, -⟩ | ⟨hid, hpop⟩⟩ := SocketRun.socketTask_workerIdTested hmore
  · exact absurd hid (h.seen hstage)
  · let initialised : SocketRun :=
      { s.loop with senderSink := { s.loop.senderSink with initSender := true } }
    have hid' : initialised.workerId ≠ [] := hid
    obtain ⟨hlaw, hkeep⟩ := h.popItem hid' hpop
    exact ⟨hlaw.trans ⟨fun hgood => hgood.2, fun hnull => ⟨rfl, hnull⟩⟩,
      fun hnull => hkeep ⟨rfl, hnull⟩⟩

theorem Shaken.step (h : s.Shaken) {e : SocketEvent} (ht : handshakeStep s e = some t) :
    (t.HandshakeLaw ↔ s.Initialises e) ∧ (s.Initialises e → t.Shaken) := by
  have hother : s.Initialises e → t.Shaken → (t.HandshakeLaw ↔ s.Initialises e) ∧
      (s.Initialises e → t.Shaken) := step_iff_of_met fun h => h.law
  cases e with
  | popPacket => exact h.popPacket ht
  | workerIdTested => exact h.workerIdTested ht
  | setWorkerId id =>
    cases id with
    | nil => cases ht
    | cons c id =>
      cases ht
      exact hother trivial (h.quiet rfl (fun hinit => hinit) (fun hid => by cases hid)
        fun _ hid => by cases hid)
  | readStatus =>
    obtain ⟨more, hmore, rfl⟩ := Option.map_eq_some_iff.mp ht
    obtain ⟨-, rfl⟩ := SocketRun.socketTask_readStatus hmore
    exact hother trivial (h.quiet rfl id (fun hid hsent => ⟨hid, hsent⟩)
      fun hseen => by cases hseen)
  | workerIdSeen =>
    obtain ⟨more, hmore, rfl⟩ := Option.map_eq_some_iff.mp ht
    obtain ⟨-, hid, rfl⟩ := SocketRun.socketTask_workerIdSeen hmore
    exact hother trivial (h.quiet rfl id (fun hid hsent => ⟨hid, hsent⟩) fun _ => hid)
  | launch =>
    obtain ⟨more, hmore, rfl⟩ := Option.map_eq_some_iff.mp ht
    obtain ⟨_, _, -, ⟨-, rfl⟩ | ⟨-, -, -, rfl⟩ | ⟨-, -, rfl⟩⟩ := SocketRun.socketTask_launch hmore
    all_goals
      exact hother trivial (h.quiet rfl id (fun hid hsent => ⟨hid, hsent⟩)
        fun hseen => by cases hseen)
  | pushPacket package =>
    obtain ⟨more, hmore, rfl⟩ := Option.map_eq_some_iff.mp ht
    obtain ⟨senderSink, hpush, rfl⟩ := SocketRun.socketTask_pushPacket hmore
    obtain ⟨fwdStack, rfl⟩ := SenderSink.pushPacket_flags hpush
    exact hother trivial (h.quiet rfl id (fun hid hsent => ⟨hid, hsent⟩) h.seen)
  | acknowledge awaitStack | changeFlag state statusFlag =>
    cases ht
    exact hother trivial (h.quiet rfl id (fun hid hsent => ⟨hid, hsent⟩) h.seen)

end HandshakeRun

/-- The handshake goes as it should all along a run exactly when each call that finds
the id set comes after one that waited for it, and no id has a null character. -/
theorem handshakeLaw_iff (events : List SocketEvent) (s : HandshakeRun)
    (hrun : exec HandshakeRun.handshakeStep .start events = some s) :
    Always HandshakeRun.handshakeStep HandshakeRun.HandshakeLaw .start events ↔
      Guarded HandshakeRun.handshakeStep HandshakeRun.Initialises .start events :=
  always_iff_guarded (fun _ h => h.law) (fun _ _ _ h ht => h.step ht) HandshakeRun.shaken_start hrun

/-- The id is assigned while the second call waits for it. -/
def idAwaited : List SocketEvent :=
  [.readStatus, .popPacket, .launch, .changeFlag false .normalMode, .readStatus, .popPacket,
    .setWorkerId ['w'], .workerIdSeen, .workerIdTested, .launch, .readStatus, .popPacket]

theorem handshakeLaw_idAwaited :
    (exec HandshakeRun.handshakeStep .start idAwaited).map
        (fun s => s.produced.map Produced.isHandshake) = some [true, false, false] ∧
      Always HandshakeRun.handshakeStep HandshakeRun.HandshakeLaw .start idAwaited := by
  have hrun : (exec HandshakeRun.handshakeStep .start idAwaited).map
      (fun s => s.produced.map Produced.isHandshake) = some [true, false, false] := by decide
  obtain ⟨s, hs, -⟩ := Option.map_eq_some_iff.mp hrun
  exact ⟨hrun, (handshakeLaw_iff idAwaited s hs).mpr (by decide)⟩

/-- The id is assigned between the first call and the second one, and the sender is
not initialised. -/
theorem not_handshakeLaw_idBetween :
    ∃ s, exec HandshakeRun.handshakeStep .start [.readStatus, .popPacket, .launch,
        .setWorkerId ['w'], .readStatus, .popPacket] = some s ∧ ¬ s.HandshakeLaw := by
  refine ⟨_, rfl, fun law => ?_⟩
  have hinit := law.initilized (by decide)
  revert hinit
  decide

end WorkerUnit
