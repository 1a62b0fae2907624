import WorkerUnit.Library.StepSystem
import WorkerUnit.Sender.SenderSink

/-!
# The socket loop and the packets it launches

`socket_task` as a step relation over the sender sink, the socket flags and the
worker id. The other threads push packets, acknowledge items, assign the id and
change flags between any two steps; a client resets the flag of its mode when it
is done. A run records the items that left the forward stack, each with the packet
that was made of it, and the clients that were launched, each with its packet.
-/

namespace WorkerUnit

open Semaphore StepSystem

inductive SocType where
  | normal | quicksend
  deriving DecidableEq, Repr

/-- Where the loop stands: before it reads the status, before `popPacket`, in the
two waits of `popPacket` for an id, or with a packet in hand. -/
inductive LoopStage where
  | top
  | statusRead
  | waitingForId
  | idSeen
  | packetReady (upPacket : Option Packet) (item : Option PackagePtr)
  deriving DecidableEq, Repr

/-- A launched client: its mode, its packet, and the item the packet was made of. -/
structure Client where
  socType : SocType
  packet : Option Packet
  item : Option PackagePtr
  deriving DecidableEq, Repr

structure SocketRun where
  senderSink : SenderSink
  globalSocket : Socket
  workerId : Text
  stage : LoopStage
  socStatus : ℕ
  popped : List (PackagePtr × Packet)
  clients : List Client
  deriving DecidableEq

inductive SocketEvent where
  | readStatus
  | popPacket
  | workerIdSeen
  | workerIdTested
  | launch
  | pushPacket (package : ForwardStackPackage)
  | acknowledge (awaitStack : AwaitStack)
  | setWorkerId (id : Text)
  | changeFlag (state : Bool) (statusFlag : SocketStatus)

namespace SocketRun

def start : SocketRun := ⟨.init, .init, [], .top, 0, [], []⟩

/-- `packet = create_packet(fwdStack.popForwardStack())`. -/
def popItem (s : SocketRun) : Option SocketRun :=
  match s.senderSink.fwdStack.popForwardStack with
  | .error _ => none
  | .ok (package, fwdStack) =>
    let senderSink := { s.senderSink with fwdStack := fwdStack }
    let (packet, globalSocket) := createPacket senderSink s.workerId s.globalSocket package
    let item := s.senderSink.fwdStack.senderStack.head?
    some { s with
      senderSink := senderSink
      globalSocket := globalSocket
      stage := .packetReady packet item
      popped := s.popped ++ item.toList.map fun item => (item, packet) }

/-- Launch a client of the given mode with the packet in hand. -/
def launchClient (s : SocketRun) (socType : SocType) (statusFlag : SocketStatus)
    (upPacket : Option Packet) (item : Option PackagePtr) : SocketRun :=
  { s with
    globalSocket := s.globalSocket.setFlag statusFlag
    stage := .top
    clients := s.clients ++ [⟨socType, upPacket, item⟩] }

/-- One step of `socket_task` or of another thread. -/
def socketTask (s : SocketRun) : SocketEvent → Option SocketRun
  | .readStatus =>
    if s.stage = .top ∧ s.globalSocket.socketShouldStop = false then
      some { s with stage := .statusRead, socStatus := s.globalSocket.getSocketStatus }
    else none
  | .popPacket =>
    if s.stage = .statusRead then
      if s.workerId.isEmpty then
        if s.senderSink.handshakeSent then some { s with stage := .waitingForId }
        else some { s with
          senderSink := { s.senderSink with handshakeSent := true }
          stage := .packetReady (some handshakePacket) none }
      else s.popItem
    else none
  | .workerIdSeen =>
    if s.stage = .waitingForId ∧ ¬ s.workerId.isEmpty then some { s with stage := .idSeen }
    else none
  | .workerIdTested =>
    if s.stage = .idSeen then
      if s.workerId.isEmpty then some { s with stage := .packetReady none none }
      else popItem { s with senderSink := { s.senderSink with initSender := true } }
    else none
  | .launch =>
    match s.stage with
    | .packetReady upPacket item =>
      if !SocketStatus.normalMode.isIn s.socStatus then
        some (s.launchClient .normal .normalMode upPacket item)
      else if !SocketStatus.quicksendMode.isIn s.socStatus && s.senderSink.initSender then
        some (s.launchClient .quicksend .quicksendMode upPacket item)
      else some { s with stage := .top }
    | _ => none
  | .pushPacket package =>
    match s.senderSink.pushPacket package with
    | .error _ => none
    | .ok senderSink => some { s with senderSink := senderSink }
  | .acknowledge awaitStack =>
    some { s with senderSink :=
      { s.senderSink with fwdStack := { s.senderSink.fwdStack with awaitStack := awaitStack } } }
  | .setWorkerId id => some { s with workerId := id }
  | .changeFlag state statusFlag =>
    some { s with globalSocket := s.globalSocket.changeFlag state statusFlag }

/-- The items that left the stack. -/
def removed (s : SocketRun) : List PackagePtr := s.popped.map (·.1)

/-- An item and the packet beside it. -/
def withPacket (upPacket : Option Packet) (item : Option PackagePtr) :
    Option (PackagePtr × Packet) :=
  item.bind fun item => upPacket.map fun packet => (item, packet)

/-- The items and packets that were given to clients, in the order of the launches. -/
def given (s : SocketRun) : List (PackagePtr × Packet) :=
  s.clients.filterMap fun client => withPacket client.packet client.item

/-- The item and the packet that are neither launched nor dropped yet. -/
def inHand (s : SocketRun) : List (PackagePtr × Packet) :=
  match s.stage with
  | .packetReady upPacket item => (withPacket upPacket item).toList
  | _ => []

/-- The packet is what `create_packet` makes of the item at some moment. -/
def MadeOf (item : PackagePtr) (packet : Packet) : Prop :=
  ∃ senderSink workerId globalSocket,
    packet = (createPacket senderSink workerId globalSocket item.package).1

/-- The packet of each removed item has gone to one client, in order, or is in hand, and
a client that was launched for an item has the packet made of it. -/
structure Delivers (s : SocketRun) : Prop where
  distinct : s.removed.Nodup
  handed : s.popped = s.given ++ s.inHand
  made : ∀ client ∈ s.clients, ∀ item ∈ client.item, ∃ packet ∈ client.packet, MadeOf item packet

/-- A client may be launched: the normal mode was free when the status was read,
or the quick mode was and the sender is initialised. -/
def clientFree (s : SocketRun) : Bool :=
  !SocketStatus.normalMode.isIn s.socStatus ||
    (!SocketStatus.quicksendMode.isIn s.socStatus && s.senderSink.initSender)

/-- With an item in hand, the launch test finds a free client. -/
def LaunchesItem (s : SocketRun) (e : SocketEvent) : Prop :=
  e = .launch → s.inHand ≠ [] → s.clientFree

/-- A stage with an item has its packet. -/
def Paired : LoopStage → Prop
  | .packetReady upPacket item => item.isSome → upPacket.isSome
  | _ => True

/-- The items are distinct, each packet is made of its item, and the given ones are in
the order of their removal. -/
structure Ordered (s : SocketRun) : Prop where
  lock : s.senderSink.fwdStack.stackLock = 1
  nodup : (s.removed ++ s.senderSink.fwdStack.senderStack).Nodup
  fresh : ∀ item ∈ s.removed ++ s.senderSink.fwdStack.senderStack,
    item.address < s.senderSink.fwdStack.allocated
  sublist : (s.given ++ s.inHand).Sublist s.popped
  made : ∀ item packet, (item, packet) ∈ s.popped → MadeOf item packet
  clients : ∀ client ∈ s.clients, client.item.isSome → client.packet.isSome
  paired : Paired s.stage

variable {s t : SocketRun}

theorem socketTask_readStatus (ht : socketTask s .readStatus = some t) :
    s.stage = .top ∧
      t = { s with stage := .statusRead, socStatus := s.globalSocket.getSocketStatus } := by
  simp only [socketTask] at ht
  split_ifs at ht with hs
  exact ⟨hs.1, (Option.some.inj ht).symm⟩

/-- Without an id the handshake is made once, and then the call waits. -/
theorem socketTask_popPacket (ht : socketTask s .popPacket = some t) :
    s.stage = .statusRead ∧
      ((s.workerId = [] ∧ s.senderSink.handshakeSent = true ∧
          t = { s with stage := .waitingForId }) ∨
        (s.workerId = [] ∧ s.senderSink.handshakeSent = false ∧ t = { s with
          senderSink := { s.senderSink with handshakeSent := true }
          stage := .packetReady (some handshakePacket) none }) ∨
        (s.workerId ≠ [] ∧ s.popItem = some t)) := by
  simp only [socketTask, List.isEmpty_iff] at ht
  split_ifs at ht with hs hid hsent
  · exact ⟨hs, .inl ⟨hid, hsent, (Option.some.inj ht).symm⟩⟩
  · exact ⟨hs, .inr (.inl ⟨hid, Bool.eq_false_iff.mpr hsent, (Option.some.inj ht).symm⟩)⟩
  · exact ⟨hs, .inr (.inr ⟨hid, ht⟩)⟩

theorem socketTask_workerIdSeen (ht : socketTask s .workerIdSeen = some t) :
    s.stage = .waitingForId ∧ s.workerId ≠ [] ∧ t = { s with stage := .idSeen } := by
  simp only [socketTask, List.isEmpty_iff] at ht
  split_ifs at ht with hs
  exact ⟨hs.1, hs.2, (Option.some.inj ht).symm⟩

theorem socketTask_workerIdTested (ht : socketTask s .workerIdTested = some t) :
    s.stage = .idSeen ∧
      ((s.workerId = [] ∧ t = { s with stage := .packetReady none none }) ∨
        (s.workerId ≠ [] ∧
          popItem { s with senderSink := { s.senderSink with initSender := true } } = some t)) := by
  simp only [socketTask, List.isEmpty_iff] at ht
  split_ifs at ht with hs hid
  · exact ⟨hs, .inl ⟨hid, (Option.some.inj ht).symm⟩⟩
  · exact ⟨hs, .inr ⟨hid, ht⟩⟩

/-- The packet goes to a client of a free mode, or is dropped. -/
theorem socketTask_launch (ht : socketTask s .launch = some t) :
    ∃ upPacket item, s.stage = .packetReady upPacket item ∧
      ((SocketStatus.normalMode.isIn s.socStatus = false ∧
          t = s.launchClient .normal .normalMode upPacket item) ∨
        (SocketStatus.normalMode.isIn s.socStatus = true ∧
          SocketStatus.quicksendMode.isIn s.socStatus = false ∧
          s.senderSink.initSender = true ∧
          t = s.launchClient .quicksend .quicksendMode upPacket item) ∨
        (SocketStatus.normalMode.isIn s.socStatus = true ∧ s.clientFree = false ∧
          t = { s with stage := .top })) := by
  simp only [socketTask] at ht
  split at ht
  · rename_i upPacket item hs
    refine ⟨upPacket, item, hs, ?_⟩
    split_ifs at ht with hnormal hquick
    · exact .inl ⟨by simpa using hnormal, (Option.some.inj ht).symm⟩
    · rw [Bool.and_eq_true_iff, Bool.not_eq_true'] at hquick
      exact .inr (.inl ⟨by simpa using hnormal, hquick.1, hquick.2, (Option.some.inj ht).symm⟩)
    · have hbusy : s.clientFree = false := by
        simpa [clientFree] using And.intro hnormal hquick
      exact .inr (.inr ⟨by simpa using hnormal, hbusy, (Option.some.inj ht).symm⟩)
  · cases ht

theorem socketTask_pushPacket {package : ForwardStackPackage}
    (ht : socketTask s (.pushPacket package) = some t) :
    ∃ senderSink, s.senderSink.pushPacket package = .ok senderSink ∧
      t = { s with senderSink := senderSink } := by
  simp only [socketTask] at ht
  split at ht
  · cases ht
  · rename_i senderSink hpush
    exact ⟨senderSink, hpush, (Option.some.inj ht).symm⟩

theorem ordered_start : start.Ordered where
  lock := rfl
  nodup := List.nodup_nil
  fresh := by simp [start, removed, SenderSink.init, ForwardStack.init]
  sublist := List.Sublist.refl _
  made := by simp [start]
  clients := by simp [start]
  paired := trivial

/-- A client that was launched for an item has the packet made of it. -/
theorem Ordered.made_client (h : s.Ordered) {client : Client} (hclient : client ∈ s.clients)
    {item : PackagePtr} (hitem : item ∈ client.item) :
    ∃ packet ∈ client.packet, MadeOf item packet := by
  have hsome : client.item.isSome = true := Option.isSome_of_mem hitem
  obtain ⟨packet, hpacket⟩ := Option.isSome_iff_exists.mp (h.clients client hclient hsome)
  have hgiven : (item, packet) ∈ s.given :=
    List.mem_filterMap.mpr ⟨client, hclient, by simp [withPacket, hpacket, Option.mem_def.mp hitem]⟩
  exact ⟨packet, hpacket,
    h.made item packet (h.sublist.subset (List.mem_append_left _ hgiven))⟩

theorem Ordered.delivers_iff (h : s.Ordered) : s.Delivers ↔ s.popped = s.given ++ s.inHand := by
  have hnodup : s.removed.Nodup := (List.nodup_append.mp h.nodup).1
  exact ⟨fun hs => hs.handed, fun hall =>
    ⟨hnodup, hall, fun client hclient item hitem => h.made_client hclient hitem⟩⟩

/-- A step that touches neither the items nor the packet in hand. -/
theorem Ordered.of_same (h : s.Ordered)
    (hlock : t.senderSink.fwdStack.stackLock = s.senderSink.fwdStack.stackLock)
    (hstack : t.senderSink.fwdStack.senderStack = s.senderSink.fwdStack.senderStack)
    (hnumber : t.senderSink.fwdStack.allocated = s.senderSink.fwdStack.allocated)
    (hpopped : t.popped = s.popped) (hclients : t.clients = s.clients)
    (hpaired : Paired t.stage) (hhand : t.inHand = s.inHand) :
    t.Ordered ∧ (t.Delivers ↔ s.Delivers) := by
  have hremoved : t.removed = s.removed := congrArg (List.map _) hpopped
  have hgiven : t.given = s.given := congrArg (List.filterMap _) hclients
  have ht : t.Ordered := by
    refine ⟨?_, ?_, ?_, ?_, ?_, ?_, hpaired⟩
    · rw [hlock]
      exact h.lock
    · rw [hremoved, hstack]
      exact h.nodup
    · rw [hremoved, hstack, hnumber]
      exact h.fresh
    · rw [hpopped, hgiven, hhand]
      exact h.sublist
    · rw [hpopped]
      exact h.made
    · rw [hclients]
      exact h.clients
  refine ⟨ht, ?_⟩
  rw [ht.delivers_iff, h.delivers_iff, hpopped, hgiven, hhand]

/-- What `popPacket` takes from the stack is its first item, with a packet made of it. -/
theorem popItem_front (hlock : s.senderSink.fwdStack.stackLock = 1) (ht : s.popItem = some t) :
    ∃ packet, t.popped = s.popped ++
        s.senderSink.fwdStack.senderStack.head?.toList.map (fun item => (item, packet)) ∧
      t.stage = .packetReady (some packet) s.senderSink.fwdStack.senderStack.head? ∧
      (∀ item ∈ s.senderSink.fwdStack.senderStack.head?, MadeOf item packet) ∧
      t.clients = s.clients ∧ t.senderSink.fwdStack.stackLock = 1 ∧
      t.senderSink.fwdStack.allocated = s.senderSink.fwdStack.allocated ∧
      s.senderSink.fwdStack.senderStack.head?.toList ++ t.senderSink.fwdStack.senderStack =
        s.senderSink.fwdStack.senderStack := by
  unfold SocketRun.popItem at ht
  split at ht
  · cases ht
  rename_i package fwdStack hpop
  obtain ⟨hopen, hnumber, hstack, hpackage⟩ := ForwardStack.popForwardStack_front hlock hpop
  cases ht
  refine ⟨(createPacket { s.senderSink with fwdStack := fwdStack } s.workerId s.globalSocket
    package).1, rfl, rfl, fun item hitem => ?_, rfl, hopen, hnumber, hstack.symm⟩
  have hof : package = item.package := by simp [hpackage, Option.mem_def.mp hitem]
  exact ⟨_, _, _, by rw [hof]⟩

theorem Ordered.popItem (h : s.Ordered) (hhand : s.inHand = []) (ht : s.popItem = some t) :
    t.Ordered ∧ (t.Delivers ↔ s.Delivers) := by
  obtain ⟨packet, hpopped, hstage, hmade, hclients, hlock, hnumber, hstack⟩ :=
    popItem_front h.lock ht
  have hgiven : t.given = s.given := congrArg (List.filterMap _) hclients
  have hin : t.inHand =
      s.senderSink.fwdStack.senderStack.head?.toList.map fun item => (item, packet) := by
    cases hhead : s.senderSink.fwdStack.senderStack.head? <;>
      simp [inHand, hstage, withPacket, hhead]
  have hremoved : t.removed = s.removed ++ s.senderSink.fwdStack.senderStack.head?.toList := by
    simp [removed, hpopped, Function.comp_def]
  have hall : t.removed ++ t.senderSink.fwdStack.senderStack =
      s.removed ++ s.senderSink.fwdStack.senderStack := by
    rw [hremoved, List.append_assoc, hstack]
  have hord : t.Ordered := by
    refine ⟨hlock, hall ▸ h.nodup, ?_, ?_, ?_, hclients ▸ h.clients, ?_⟩
    · rw [hall, hnumber]
      exact h.fresh
    · rw [hpopped, hgiven, hin]
      apply List.Sublist.append_right
      simpa [hhand] using h.sublist
    · rw [hpopped]
      intro item made hmem
      rcases List.mem_append.mp hmem with hmem | hmem
      · exact h.made item made hmem
      · obtain ⟨front, hfront, heq⟩ := List.mem_map.mp hmem
        cases heq
        exact hmade item (Option.mem_toList.mp hfront)
    · rw [hstage]
      exact fun _ => rfl
  refine ⟨hord, ?_⟩
  rw [hord.delivers_iff, h.delivers_iff, hpopped, hgiven, hin, hhand, List.append_nil]
  exact List.append_left_inj _

theorem Ordered.launchClient (h : s.Ordered) {upPacket : Option Packet} {item : Option PackagePtr}
    (hs : s.stage = .packetReady upPacket item) (socType : SocType) (statusFlag : SocketStatus) :
    (s.launchClient socType statusFlag upPacket item).Ordered ∧
      ((s.launchClient socType statusFlag upPacket item).Delivers ↔ s.Delivers) := by
  have hmoved : (s.launchClient socType statusFlag upPacket item).given ++
      (s.launchClient socType statusFlag upPacket item).inHand = s.given ++ s.inHand := by
    cases hpair : withPacket upPacket item <;>
      simp [SocketRun.launchClient, given, inHand, hs, hpair]
  have hpaired : item.isSome → upPacket.isSome := by simpa [Paired, hs] using h.paired
  have hord : (s.launchClient socType statusFlag upPacket item).Ordered := by
    refine ⟨h.lock, h.nodup, h.fresh, ?_, h.made, ?_, trivial⟩
    · rw [hmoved]
      exact h.sublist
    · intro client hclient
      rcases List.mem_append.mp hclient with hclient | hclient
      · exact h.clients client hclient
      · rw [List.mem_singleton.mp hclient]
        exact hpaired
  refine ⟨hord, ?_⟩
  rw [hord.delivers_iff, h.delivers_iff, hmoved]
  rfl

/-- The packet in hand is dropped. -/
theorem Ordered.drop (h : s.Ordered) :
    Ordered { s with stage := .top } ∧
      (Delivers { s with stage := .top } ↔ s.Delivers ∧ s.inHand = []) := by
  have hsub : s.given.Sublist s.popped := (List.sublist_append_left _ _).trans h.sublist
  have hord : Ordered { s with stage := .top } :=
    ⟨h.lock, h.nodup, h.fresh, by simpa [inHand, given] using hsub, h.made, h.clients, trivial⟩
  refine ⟨hord, ?_⟩
  rw [hord.delivers_iff, h.delivers_iff]
  have hgiven : given { s with stage := .top } ++ inHand { s with stage := .top } = s.given := by
    simp [given, inHand]
  rw [hgiven]
  constructor
  · intro hall
    change s.popped = s.given at hall
    have hlen := h.sublist.length_le
    simp only [hall, List.length_append] at hlen
    have hnil : s.inHand = [] := List.eq_nil_of_length_eq_zero (by omega)
    simp [hnil, hall]
  · rintro ⟨hall, hnil⟩
    simpa [hnil] using hall

theorem Ordered.pushed (h : s.Ordered) {package : ForwardStackPackage} {senderSink : SenderSink}
    (hpush : s.senderSink.pushPacket package = .ok senderSink) :
    Ordered { s with senderSink := senderSink } ∧
      (Delivers { s with senderSink := senderSink } ↔ s.Delivers) := by
  have hsink : ∃ items, items.Perm (⟨s.senderSink.fwdStack.allocated, package⟩ ::
        s.senderSink.fwdStack.senderStack) ∧
      senderSink.fwdStack.senderStack = items ∧ senderSink.fwdStack.stackLock = 1 ∧
      senderSink.fwdStack.allocated = s.senderSink.fwdStack.allocated + 1 := by
    unfold SenderSink.pushPacket at hpush
    split_ifs at hpush
    · simp only [ForwardStack.pushFront, h.lock, semWait_one, bind, Except.bind,
        Except.ok.injEq] at hpush
      subst hpush
      exact ⟨_, .refl _, rfl, rfl, rfl⟩
    · simp only [ForwardStack.push, h.lock, semWait_one, bind, Except.bind,
        Except.ok.injEq] at hpush
      subst hpush
      exact ⟨_, List.perm_append_singleton _ _, rfl, rfl, rfl⟩
  obtain ⟨items, hitems, rfl, hlock, hnumber⟩ := hsink
  have hperm := (hitems.append_left s.removed).trans List.perm_middle
  have hnew : (⟨s.senderSink.fwdStack.allocated, package⟩ : PackagePtr) ∉
      s.removed ++ s.senderSink.fwdStack.senderStack :=
    fun hmem => Nat.lt_irrefl _ (h.fresh _ hmem)
  have hord : Ordered { s with senderSink := senderSink } := by
    refine ⟨hlock, ?_, ?_, h.sublist, h.made, h.clients, h.paired⟩
    · exact hperm.nodup_iff.mpr (List.nodup_cons.mpr ⟨hnew, h.nodup⟩)
    · intro item hitem
      rw [hnumber]
      rcases List.mem_cons.mp (hperm.mem_iff.mp hitem) with rfl | hitem
      · exact Nat.lt_succ_self _
      · exact Nat.lt_succ_of_lt (h.fresh item hitem)
  refine ⟨hord, ?_⟩
  rw [hord.delivers_iff, h.delivers_iff]
  rfl

theorem Ordered.launch (h : s.Ordered) (ht : socketTask s .launch = some t) :
    t.Ordered ∧ (t.Delivers ↔ s.Delivers ∧ s.LaunchesItem .launch) := by
  have hfree : s.LaunchesItem .launch ↔ (s.inHand ≠ [] → s.clientFree = true) := by
    simp [LaunchesItem]
  rw [hfree]
  obtain ⟨upPacket, item, hs, ⟨hnormal, rfl⟩ | ⟨-, hquick, hinit, rfl⟩ | ⟨-, hbusy, rfl⟩⟩ :=
    socketTask_launch ht
  · have hl := h.launchClient hs .normal .normalMode
    simpa [clientFree, hnormal] using hl
  · have hl := h.launchClient hs .quicksend .quicksendMode
    simpa [clientFree, hquick, hinit] using hl
  · have hd := h.drop
    simpa [hbusy] using hd

theorem Ordered.step (h : s.Ordered) {e : SocketEvent} (ht : socketTask s e = some t) :
    t.Ordered ∧ (t.Delivers ↔ s.Delivers ∧ s.LaunchesItem e) := by
  by_cases hlaunch : e = .launch
  · subst hlaunch
    exact h.launch ht
  · have hskip : s.LaunchesItem e := fun he => absurd he hlaunch
    suffices hkeep : t.Ordered ∧ (t.Delivers ↔ s.Delivers) by simpa [hskip] using hkeep
    cases e with
    | readStatus =>
      obtain ⟨hs, rfl⟩ := socketTask_readStatus ht
      exact h.of_same rfl rfl rfl rfl rfl trivial (by simp [inHand, hs])
    | popPacket =>
      obtain ⟨hs, ⟨-, -, rfl⟩ | ⟨-, -, rfl⟩ | ⟨-, hpop⟩⟩ := socketTask_popPacket ht
      · exact h.of_same rfl rfl rfl rfl rfl trivial (by simp [inHand, hs])
      · exact h.of_same rfl rfl rfl rfl rfl (fun _ => rfl) (by simp [inHand, withPacket, hs])
      · exact h.popItem (by simp [inHand, hs]) hpop
    | workerIdSeen =>
      obtain ⟨hs, -, rfl⟩ := socketTask_workerIdSeen ht
      exact h.of_same rfl rfl rfl rfl rfl trivial (by simp [inHand, hs])
    | workerIdTested =>
      obtain ⟨hs, ⟨-, rfl⟩ | ⟨-, hpop⟩⟩ := socketTask_workerIdTested ht
      · exact h.of_same rfl rfl rfl rfl rfl (by simp [Paired]) (by simp [inHand, withPacket, hs])
      · have hinit := h.of_same
          (t := { s with senderSink := { s.senderSink with initSender := true } })
          rfl rfl rfl rfl rfl h.paired rfl
        have hpopped := hinit.1.popItem (by simp [inHand, hs]) hpop
        exact ⟨hpopped.1, hpopped.2.trans hinit.2⟩
    | launch => exact absurd rfl hlaunch
    | pushPacket package =>
      obtain ⟨senderSink, hpush, rfl⟩ := socketTask_pushPacket ht
      exact h.pushed hpush
    | acknowledge awaitStack | setWorkerId id | changeFlag state statusFlag =>
      cases ht
      exact h.of_same rfl rfl rfl rfl rfl h.paired rfl

/-- In every run the packets of the removed items go to one client each, in order,
exactly when every launch test with an item in hand finds a free client. -/
theorem delivers_iff_launches (events : List SocketEvent)
    (h : exec socketTask start events = some s) :
    s.Delivers ↔ Guarded socketTask LaunchesItem start events := by
  have hiff := guarded_iff (fun _ _ _ hs ht => Ordered.step hs ht) ordered_start h
  have hstart : start.Delivers := ordered_start.delivers_iff.mpr rfl
  simpa [hstart] using hiff

/-- The worker shakes hands, gets an id and sends one result. -/
def resultSent : List SocketEvent :=
  [.readStatus, .popPacket, .launch, .setWorkerId ['w'], .changeFlag false .normalMode,
    .pushPacket ⟨.fresSend, 1, ['t'], ['r']⟩, .readStatus, .popPacket, .launch]

theorem delivers_resultSent :
    ∃ s, exec socketTask start resultSent = some s ∧
      (s.Delivers ↔ Guarded socketTask LaunchesItem start resultSent) := by
  obtain ⟨s, hs⟩ : ∃ s, exec socketTask start resultSent = some s :=
    Option.isSome_iff_exists.mp (by decide)
  exact ⟨s, hs, delivers_iff_launches resultSent hs⟩

/-- The result is popped while the client of the handshake still runs. -/
theorem not_delivers_resultDropped :
    ¬ ∀ events s, exec socketTask start events = some s → s.Delivers := by
  intro h
  have hrun : ((exec socketTask start (resultSent.filter fun e =>
      !(e matches .changeFlag _ _))).map fun s => decide (s.popped = s.given ++ s.inHand)) =
      some false := by decide
  obtain ⟨s, hs, hlost⟩ := Option.map_eq_some_iff.mp hrun
  exact absurd (h _ s hs).handed (by simpa using hlost)

end SocketRun

end WorkerUnit
