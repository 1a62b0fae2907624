import WorkerUnit.Socket.SocketTask

/-!
# The mode flags and the clients in flight

`socket_task` together with the end of `launch_client_socket`. Of the other
threads none writes a flag. `create_packet` sets the normal mode flag too, for
packets of its default kind, while the loop goes by the status it has read
before.
-/

namespace WorkerUnit

open StepSystem

/-- The flag that the loop sets for a client of the mode and the client resets. -/
def SocType.statusFlag : SocType → SocketStatus
  | normal => .normalMode
  | quicksend => .quicksendMode

/-- `running` are the clients that are launched and have not reset their flags. -/
structure ClientRun where
  loop : SocketRun
  running : List SocType

inductive ClientEvent where
  | task (e : SocketEvent)
  | finish (socType : SocType)

namespace ClientRun

def start : ClientRun := ⟨.start, []⟩

/-- The clients that a step of the loop has launched are running. -/
def clientStep (s : ClientRun) : ClientEvent → Option ClientRun
  | .task (.changeFlag _ _) => none
  | .task e => (SocketRun.socketTask s.loop e).map fun t =>
      ⟨t, s.running ++ (t.clients.drop s.loop.clients.length).map (·.socType)⟩
  | .finish socType =>
    if socType ∈ s.running then
      some
        { loop := { s.loop with globalSocket := s.loop.globalSocket.resetFlag socType.statusFlag }
          running := s.running.erase socType }
    else none

/-- At the head of the loop each flag is set when exactly one client of its mode is
running, and there are never two. -/
def Mirrors (s : ClientRun) : Prop :=
  (s.loop.stage = .top →
    (s.loop.globalSocket.wsLock = true ↔ s.running.count .normal = 1) ∧
    (s.loop.globalSocket.inQSMode = true ↔ s.running.count .quicksend = 1)) ∧
  ∀ socType, s.running.count socType ≤ 1

/-- The next packet is of the default kind: nothing is queued, or a `SEIZE` item is
in front. -/
def nextIsDefault (s : SocketRun) : Bool :=
  match s.senderSink.fwdStack.senderStack with
  | [] => true
  | item :: _ => item.package.statusCode == .seize || item.package.statusCode == .datNull

/-- A packet of the default kind is not made after the normal client, which was
running when the status was read, has finished. -/
def KeepsMode (s : ClientRun) : ClientEvent → Prop
  | .task .popPacket | .task .workerIdTested =>
    s.loop.workerId.isEmpty = false → nextIsDefault s.loop = true →
      SocketStatus.normalMode.isIn s.loop.socStatus = true → s.loop.globalSocket.wsLock = true
  | _ => True

instance (s : ClientRun) (e : ClientEvent) : Decidable (s.KeepsMode e) :=
  match e with
  | .task .popPacket | .task .workerIdTested => inferInstanceAs (Decidable (_ → _))
  | .task .readStatus | .task .workerIdSeen | .task .launch | .task (.pushPacket _)
  | .task (.acknowledge _) | .task (.setWorkerId _) | .task (.changeFlag _ _)
  | .finish _ => isTrue trivial

/-- The loop has a packet in hand. -/
def hasPacket (s : SocketRun) : Bool :=
  match s.stage with
  | .packetReady _ _ => true
  | _ => false

/-- What the flags say all along: a client of a mode whose flag was clear in the
status is not running, and the normal flag runs ahead of its client only until the
launch that this status calls for. -/
structure Tallied (s : ClientRun) : Prop where
  ordered : s.loop.Ordered
  one : ∀ socType, s.running.count socType ≤ 1
  quick : s.loop.globalSocket.inQSMode = true ↔ s.running.count .quicksend = 1
  normal : (hasPacket s.loop = true → SocketStatus.normalMode.isIn s.loop.socStatus = true) →
    (s.loop.globalSocket.wsLock = true ↔ s.running.count .normal = 1)
  normalFree : s.loop.stage ≠ .top → SocketStatus.normalMode.isIn s.loop.socStatus = false →
    s.running.count .normal = 0
  quickFree : s.loop.stage ≠ .top → SocketStatus.quicksendMode.isIn s.loop.socStatus = false →
    s.running.count .quicksend = 0

variable {s t : ClientRun}

theorem tallied_start : start.Tallied :=
  ⟨SocketRun.ordered_start, by simp [start], by simp [start, SocketRun.start, Socket.init],
    by simp [start, SocketRun.start, Socket.init], by simp [start], by simp [start]⟩

theorem Tallied.mirrors (h : s.Tallied) : s.Mirrors :=
  ⟨fun htop => ⟨h.normal (by simp [hasPacket, htop]), h.quick⟩, h.one⟩

/-- `create_packet` writes the normal mode flag for an item of the default kind, and
no other flag of a mode. -/
theorem createPacket_flags (sink : SenderSink) (workerId : Text) (soc : Socket)
    (item : ForwardStackPackage) :
    (createPacket sink workerId soc item).2.inQSMode = soc.inQSMode ∧
      (createPacket sink workerId soc item).2.wsLock =
        (soc.wsLock || (item.statusCode == .seize || item.statusCode == .datNull)) := by
  cases hcode : item.statusCode <;>
    simp [createPacket, getPacketHead, hcode, Socket.setFlag, Socket.changeFlag]

/-- A step of the loop that neither writes a flag of a mode nor launches a client. -/
theorem Tallied.of_same (h : s.Tallied) (hordered : t.loop.Ordered)
    (hnormal : t.loop.globalSocket.wsLock = s.loop.globalSocket.wsLock)
    (hquick : t.loop.globalSocket.inQSMode = s.loop.globalSocket.inQSMode)
    (hstatus : t.loop.socStatus = s.loop.socStatus) (hrunning : t.running = s.running)
    (htop : s.loop.stage = .top → t.loop.stage = .top)
    (hpacket : hasPacket s.loop = true → hasPacket t.loop = false →
      SocketStatus.normalMode.isIn s.loop.socStatus = true) : t.Tallied := by
  refine ⟨hordered, hrunning ▸ h.one, ?_, ?_, ?_, ?_⟩
  · rw [hquick, hrunning]
    exact h.quick
  · intro hgoal
    rw [hnormal, hrunning]
    apply h.normal
    intro hhas
    cases hhand : hasPacket t.loop with
    | true => exact hstatus ▸ hgoal hhand
    | false => exact hpacket hhas hhand
  · intro hstage hfree
    rw [hrunning]
    exact h.normalFree (fun he => hstage (htop he)) (hstatus ▸ hfree)
  · intro hstage hfree
    rw [hrunning]
    exact h.quickFree (fun he => hstage (htop he)) (hstatus ▸ hfree)

/-- The status shows the flags as they are. -/
theorem Tallied.readStatus (h : s.Tallied) (htop : s.loop.stage = .top) {loop : SocketRun}
    (hordered : loop.Ordered) (hloop : loop =
      { s.loop with stage := .statusRead, socStatus := s.loop.globalSocket.getSocketStatus }) :
    Tallied ⟨loop, s.running⟩ := by
  subst hloop
  have hnormal := h.mirrors.1 htop
  refine ⟨hordered, h.one, h.quick, fun _ => hnormal.1, ?_, ?_⟩
  · intro _ hfree
    rw [Socket.isIn_getSocketStatus] at hfree
    have hone := h.one .normal
    have hcount : s.running.count .normal ≠ 1 := fun he => by
      rw [hnormal.1.mpr he] at hfree
      cases hfree
    change s.running.count .normal = 0
    omega
  · intro _ hfree
    rw [Socket.isIn_getSocketStatus] at hfree
    have hone := h.one .quicksend
    have hcount : s.running.count .quicksend ≠ 1 := fun he => by
      rw [h.quick.mpr he] at hfree
      cases hfree
    change s.running.count .quicksend = 0
    omega

theorem popItem_clients {s t : SocketRun} (ht : s.popItem = some t) : t.clients = s.clients := by
  unfold SocketRun.popItem at ht
  split at ht <;> cases ht
  rfl

/-- A packet of the default kind sets a flag that is set, or that the next launch
sets anyway. -/
theorem Tallied.popItem (h : s.Tallied) (hstage : s.loop.stage ≠ .top)
    (hhand : hasPacket s.loop = false) (hkeeps : nextIsDefault s.loop = true →
      SocketStatus.normalMode.isIn s.loop.socStatus = true → s.loop.globalSocket.wsLock = true)
    {loop : SocketRun} (hordered : loop.Ordered) (ht : s.loop.popItem = some loop) :
    Tallied ⟨loop, s.running⟩ := by
  unfold SocketRun.popItem at ht
  split at ht
  · cases ht
  rename_i package fwdStack hpop
  obtain ⟨_, _, _, hpackage⟩ := ForwardStack.popForwardStack_front h.ordered.lock hpop
  have hdefault : (package.statusCode == .seize || package.statusCode == .datNull) =
      nextIsDefault s.loop := by
    rw [hpackage, nextIsDefault]
    cases s.loop.senderSink.fwdStack.senderStack <;> rfl
  obtain ⟨hquick, hnormal⟩ := createPacket_flags { s.loop.senderSink with fwdStack := fwdStack }
    s.loop.workerId s.loop.globalSocket package
  have hsocket : loop.globalSocket = (createPacket { s.loop.senderSink with fwdStack := fwdStack }
      s.loop.workerId s.loop.globalSocket package).2 := by
    cases ht
    rfl
  have hstatus : loop.socStatus = s.loop.socStatus := by
    cases ht
    rfl
  have hready : hasPacket loop = true := by
    cases ht
    rfl
  rw [hdefault] at hnormal
  refine ⟨hordered, h.one, ?_, ?_, fun _ => ?_, fun _ => ?_⟩
  · rw [hsocket, hquick]
    exact h.quick
  · intro hset
    have hset : SocketStatus.normalMode.isIn s.loop.socStatus = true := hstatus ▸ hset hready
    have hsame : (s.loop.globalSocket.wsLock || nextIsDefault s.loop) =
        s.loop.globalSocket.wsLock := by
      cases hnext : nextIsDefault s.loop with
      | true => rw [hkeeps hnext hset, Bool.true_or]
      | false => rw [Bool.or_false]
    rw [hsocket, hnormal, hsame]
    exact h.normal (by simp [hhand])
  · rw [hstatus]
    exact h.normalFree hstage
  · rw [hstatus]
    exact h.quickFree hstage

/-- A client is launched for a flag that was clear in the status. -/
theorem Tallied.launchClient (h : s.Tallied) {upPacket : Option Packet} {item : Option PackagePtr}
    (hstage : s.loop.stage = .packetReady upPacket item) (socType : SocType)
    (hfree : SocketStatus.isIn socType.statusFlag s.loop.socStatus = false)
    (hnormal : socType = .quicksend → SocketStatus.normalMode.isIn s.loop.socStatus = true)
    (hordered : (s.loop.launchClient socType socType.statusFlag upPacket item).Ordered) :
    Tallied ⟨s.loop.launchClient socType socType.statusFlag upPacket item,
      s.running ++ [socType]⟩ := by
  have hstage' : s.loop.stage ≠ .top := by simp [hstage]
  cases socType with
  | normal =>
    have hzero := h.normalFree hstage' hfree
    refine ⟨hordered, ?_, ?_, ?_, by simp [SocketRun.launchClient],
      by simp [SocketRun.launchClient]⟩
    · intro socType
      have hone := h.one socType
      cases socType <;> simp [List.count_append, hzero, hone]
    · simpa [SocketRun.launchClient, SocType.statusFlag, Socket.setFlag, Socket.changeFlag,
        List.count_append] using h.quick
    · simp [SocketRun.launchClient, SocType.statusFlag, Socket.setFlag, Socket.changeFlag,
        List.count_append, hzero]
  | quicksend =>
    have hzero := h.quickFree hstage' hfree
    refine ⟨hordered, ?_, ?_, ?_, by simp [SocketRun.launchClient],
      by simp [SocketRun.launchClient]⟩
    · intro socType
      have hone := h.one socType
      cases socType <;> simp [List.count_append, hzero, hone]
    · simp [SocketRun.launchClient, SocType.statusFlag, Socket.setFlag, Socket.changeFlag,
        List.count_append, hzero]
    · intro _
      simpa [SocketRun.launchClient, SocType.statusFlag, Socket.setFlag, Socket.changeFlag,
        List.count_append] using h.normal fun _ => hnormal rfl

/-- A client that is done leaves its flag clear. -/
theorem Tallied.finish (h : s.Tallied) {socType : SocType}
    (ht : clientStep s (.finish socType) = some t) : t.Tallied := by
  simp only [clientStep] at ht
  split_ifs at ht with hmem
  cases ht
  have hone := h.one socType
  have hpos := List.count_pos_iff.mpr hmem
  have hordered := (h.ordered.of_same
    (t := { s.loop with globalSocket := s.loop.globalSocket.resetFlag socType.statusFlag })
    rfl rfl rfl rfl rfl h.ordered.paired rfl).1
  have hle : ∀ other, (s.running.erase socType).count other ≤ s.running.count other :=
    fun other => List.erase_sublist.count_le other
  refine ⟨hordered, fun other => (hle other).trans (h.one other), ?_, ?_, ?_, ?_⟩
  · cases socType with
    | normal =>
      rw [List.count_erase_of_ne (by decide)]
      exact h.quick
    | quicksend =>
      rw [List.count_erase_self]
      simp only [Socket.resetFlag, SocType.statusFlag, Socket.changeFlag]
      simp
      omega
  · intro hset
    cases socType with
    | normal =>
      rw [List.count_erase_self]
      simp only [Socket.resetFlag, SocType.statusFlag, Socket.changeFlag]
      simp
      omega
    | quicksend =>
      rw [List.count_erase_of_ne (by decide)]
      exact h.normal hset
  · intro hstage hfree
    exact Nat.le_zero.mp ((hle _).trans_eq (h.normalFree hstage hfree))
  · intro hstage hfree
    exact Nat.le_zero.mp ((hle _).trans_eq (h.quickFree hstage hfree))

/-- The clients that are running after a step of the loop. -/
def afterTask (s : ClientRun) (loop : SocketRun) : ClientRun :=
  ⟨loop, s.running ++ (loop.clients.drop s.loop.clients.length).map (·.socType)⟩

theorem Tallied.of_afterTask {loop : SocketRun} (hclients : loop.clients = s.loop.clients)
    (h : Tallied ⟨loop, s.running⟩) : (s.afterTask loop).Tallied := by
  simpa [afterTask, hclients] using h

theorem Tallied.launch (h : s.Tallied) {loop : SocketRun}
    (ht : SocketRun.socketTask s.loop .launch = some loop) : (s.afterTask loop).Tallied := by
  have hordered := (h.ordered.step ht).1
  obtain ⟨upPacket, item, hstage,
    ⟨hnormal, rfl⟩ | ⟨hset, hfree, -, rfl⟩ | ⟨hset, -, rfl⟩⟩ := SocketRun.socketTask_launch ht
  · have hlaunched := h.launchClient hstage .normal hnormal (fun he => absurd he (by decide))
      hordered
    simpa [afterTask, SocketRun.launchClient, SocType.statusFlag] using hlaunched
  · have hlaunched := h.launchClient hstage .quicksend hfree (fun _ => hset) hordered
    simpa [afterTask, SocketRun.launchClient, SocType.statusFlag] using hlaunched
  · refine .of_afterTask rfl ?_
    exact h.of_same hordered rfl rfl rfl rfl (fun _ => rfl) fun _ _ => hset

theorem Tallied.task (h : s.Tallied) {e : SocketEvent} (hG : s.KeepsMode (.task e))
    (hwrites : ∀ state statusFlag, e ≠ .changeFlag state statusFlag) {loop : SocketRun}
    (ht : SocketRun.socketTask s.loop e = some loop) : (s.afterTask loop).Tallied := by
  have hordered := (h.ordered.step ht).1
  cases e with
  | launch => exact h.launch ht
  | changeFlag state statusFlag => exact absurd rfl (hwrites state statusFlag)
  | readStatus =>
    obtain ⟨hstage, rfl⟩ := SocketRun.socketTask_readStatus ht
    refine .of_afterTask rfl ?_
    exact h.readStatus hstage hordered rfl
  | popPacket =>
    obtain ⟨hstage, ⟨-, -, rfl⟩ | ⟨-, -, rfl⟩ | ⟨hid, hpop⟩⟩ := SocketRun.socketTask_popPacket ht
    · refine .of_afterTask rfl ?_
      exact h.of_same hordered rfl rfl rfl rfl (by simp [hstage]) (by simp [hasPacket, hstage])
    · refine .of_afterTask rfl ?_
      exact h.of_same hordered rfl rfl rfl rfl (by simp [hstage]) (by simp [hasPacket, hstage])
    · refine .of_afterTask (popItem_clients hpop) ?_
      exact h.popItem (by simp [hstage]) (by simp [hasPacket, hstage]) (hG (by simpa using hid))
        hordered hpop
  | workerIdSeen =>
    obtain ⟨hstage, -, rfl⟩ := SocketRun.socketTask_workerIdSeen ht
    refine .of_afterTask rfl ?_
    exact h.of_same hordered rfl rfl rfl rfl (by simp [hstage]) (by simp [hasPacket, hstage])
  | workerIdTested =>
    obtain ⟨hstage, ⟨-, rfl⟩ | ⟨hid, hpop⟩⟩ := SocketRun.socketTask_workerIdTested ht
    · refine .of_afterTask rfl ?_
      exact h.of_same hordered rfl rfl rfl rfl (by simp [hstage]) (by simp [hasPacket, hstage])
    · let loop₀ := { s.loop with senderSink := { s.loop.senderSink with initSender := true } }
      have hordered₀ : loop₀.Ordered :=
        (h.ordered.of_same (t := loop₀) rfl rfl rfl rfl rfl h.ordered.paired rfl).1
      have hinit : Tallied ⟨loop₀, s.running⟩ :=
        h.of_same hordered₀ rfl rfl rfl rfl id
          fun hhas hnone => absurd (hhas.symm.trans hnone) (by decide)
      refine .of_afterTask (popItem_clients (s := loop₀) hpop) ?_
      exact hinit.popItem (by simp [loop₀, hstage]) (by simp [loop₀, hasPacket, hstage])
        (hG (by simpa using hid)) hordered hpop
  | pushPacket package =>
    obtain ⟨senderSink, -, rfl⟩ := SocketRun.socketTask_pushPacket ht
    refine .of_afterTask rfl ?_
    exact h.of_same hordered rfl rfl rfl rfl id
      (fun hhas hnone => absurd (hhas.symm.trans hnone) (by decide))
  | acknowledge awaitStack | setWorkerId id =>
    cases ht
    refine .of_afterTask rfl ?_
    exact h.of_same hordered rfl rfl rfl rfl (fun htop => htop)
      (fun hhas hnone => absurd (hhas.symm.trans hnone) (by decide))

theorem Tallied.step {e : ClientEvent} (h : s.Tallied) (hG : s.KeepsMode e)
    (ht : clientStep s e = some t) : t.Tallied := by
  cases e with
  | finish socType => exact h.finish ht
  | task e =>
    by_cases hwrites : ∃ state statusFlag, e = .changeFlag state statusFlag
    · obtain ⟨state, statusFlag, rfl⟩ := hwrites
      cases ht
    · have htask : clientStep s (.task e) =
          (SocketRun.socketTask s.loop e).map s.afterTask := by
        cases e <;> first | rfl | exact absurd ⟨_, _, rfl⟩ hwrites
      rw [htask] at ht
      obtain ⟨loop, hloop, rfl⟩ := Option.map_eq_some_iff.mp ht
      exact h.task hG (fun state statusFlag he => hwrites ⟨state, statusFlag, he⟩) hloop

/-- In every run in which no packet of the default kind is made after the normal
client of the status has finished, the flags mirror the clients in flight. -/
theorem mirrors_of_keepsMode {events : List ClientEvent}
    (hG : Guarded clientStep KeepsMode start events) (h : exec clientStep start events = some s) :
    s.Mirrors :=
  (hG.invariant (fun _ _ _ hs hG ht => hs.step hG ht) tallied_start h).mirrors

/-- The worker shakes hands and gets an id. -/
def handshake : List ClientEvent :=
  [.task .readStatus, .task .popPacket, .task .launch, .task (.setWorkerId ['w'])]

/-- The client of the handshake finishes before the status is read. -/
def finishedBefore : List ClientEvent :=
  handshake ++ [.finish .normal, .task .readStatus, .task .popPacket, .task .launch]

theorem mirrors_finishedBefore :
    ∃ s, exec clientStep start finishedBefore = some s ∧ s.Mirrors := by
  obtain ⟨s, hs⟩ : ∃ s, exec clientStep start finishedBefore = some s :=
    Option.isSome_iff_exists.mp (by decide)
  exact ⟨s, hs, mirrors_of_keepsMode (by decide) hs⟩

/-- It finishes between the reading of the status and the next packet. -/
def finishedBetween : List ClientEvent :=
  handshake ++ [.task .readStatus, .finish .normal, .task .popPacket, .task .launch]

theorem not_mirrors_finishedBetween :
    ∃ s, exec clientStep start finishedBetween = some s ∧ ¬ s.Mirrors := by
  have hrun : (exec clientStep start finishedBetween).map (fun s =>
      (s.loop.stage, s.loop.globalSocket.wsLock, s.running)) = some (.top, true, []) := by decide
  obtain ⟨s, hs, hobserved⟩ := Option.map_eq_some_iff.mp hrun
  simp only [Prod.mk.injEq] at hobserved
  obtain ⟨htop, hset, hnone⟩ := hobserved
  refine ⟨s, hs, fun hmirrors => ?_⟩
  have hone := (hmirrors.1 htop).1.mp hset
  rw [hnone] at hone
  cases hone

end ClientRun

end WorkerUnit
