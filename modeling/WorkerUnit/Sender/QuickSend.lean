import WorkerUnit.Sender.SenderSink

/-!
# The announcement of a quick send

A packet tells the server in its head whether more packets are queued behind it.
`isEmpty` holds of every stack, so that none is announced.
-/

namespace WorkerUnit

/-- The bits `P_QSEND` and `P_SEIZE` of a head. -/
def qsendBit : ℕ := 6
def seizeBit : ℕ := 7

/-- What the head of the packet made of the popped item says of the stack that is
left and of the socket; the other bits are those of the status code. -/
structure QuickSendLaw (fwdStack : ForwardStack) (soc : Socket) (statusCode : SenderDataType)
    (head : ℕ) : Prop where
  announced : soc.seizeMode = false → (head.testBit qsendBit = true ↔ fwdStack.senderStack ≠ [])
  seized : soc.seizeMode = true → head.testBit seizeBit = true ∧ head.testBit qsendBit = false
  others : ∀ i, i ≠ qsendBit → (i = seizeBit → soc.seizeMode = false) →
    head.testBit i = (getPacketHead soc statusCode).1.value.testBit i

theorem value_eq_two_pow : ComputePacketStatus.qsend.value = 2 ^ qsendBit ∧
    ComputePacketStatus.seize.value = 2 ^ seizeBit := ⟨rfl, rfl⟩

theorem ComputePacketStatus.value_injective : Function.Injective ComputePacketStatus.value := by
  intro a b h
  cases a <;> cases b <;> first | rfl | cases h

/-- Each status is one bit, and no other status has it. -/
theorem ComputePacketStatus.testBit_value_of_ne {status other : ComputePacketStatus} {bit : ℕ}
    (hbit : other.value = 2 ^ bit) (hne : status ≠ other) : status.value.testBit bit = false := by
  have hpow : ∃ k, status.value = 2 ^ k := by
    cases status
    exacts [⟨0, rfl⟩, ⟨1, rfl⟩, ⟨2, rfl⟩, ⟨3, rfl⟩, ⟨4, rfl⟩, ⟨5, rfl⟩, ⟨6, rfl⟩, ⟨7, rfl⟩]
  obtain ⟨k, hk⟩ := hpow
  rw [hk]
  apply Nat.testBit_two_pow_of_ne
  rintro rfl
  exact hne (value_injective (hk.trans hbit.symm))

theorem SenderSink.isEmpty_eq_true (sink : SenderSink) : sink.isEmpty = true := by
  simp [SenderSink.isEmpty]

/-- No status code is announced by itself. -/
theorem testBit_getPacketHead_qsend (soc : Socket) (statusCode : SenderDataType) :
    (getPacketHead soc statusCode).1.value.testBit qsendBit = false := by
  apply ComputePacketStatus.testBit_value_of_ne value_eq_two_pow.1
  cases statusCode <;> nofun

/-- Only the seize flag adds a bit to the head of the status code. -/
theorem createPacket_head (sink : SenderSink) (workerId : Text) (soc : Socket)
    (item : ForwardStackPackage) :
    (createPacket sink workerId soc item).1.head =
      if soc.seizeMode then
        (getPacketHead soc item.statusCode).1.value ||| ComputePacketStatus.seize.value
      else (getPacketHead soc item.statusCode).1.value := by
  have hhead : (createPacket sink workerId soc item).1.head =
      if SocketStatus.seize.isIn soc.getSocketStatus then
        (getPacketHead soc item.statusCode).1.value ||| ComputePacketStatus.seize.value
      else if !sink.isEmpty then
        (getPacketHead soc item.statusCode).1.value ||| ComputePacketStatus.qsend.value
      else (getPacketHead soc item.statusCode).1.value := by
    unfold createPacket
    cases item.statusCode <;> rfl
  rw [hhead, soc.isIn_getSocketStatus, sink.isEmpty_eq_true]
  rfl

theorem createPacket_qsend (sink : SenderSink) (workerId : Text) (soc : Socket)
    (item : ForwardStackPackage) :
    (createPacket sink workerId soc item).1.head.testBit qsendBit = false := by
  rw [createPacket_head]
  split_ifs
  · rw [Nat.testBit_or, testBit_getPacketHead_qsend, Bool.false_or]
    rfl
  · exact testBit_getPacketHead_qsend soc item.statusCode

/-- Whatever the lock, a pop takes the front of the stack. -/
theorem ForwardStack.popForwardStack_tail {f g : ForwardStack} {package : ForwardStackPackage}
    (hpop : f.popForwardStack = .ok (package, g)) : g.senderStack = f.senderStack.tail := by
  unfold ForwardStack.popForwardStack at hpop
  split at hpop
  · rename_i hs
    cases hpop
    rw [hs]
    rfl
  · rename_i item rest hs
    rw [hs, List.tail_cons]
    cases hlock : Semaphore.semWait f.stackLock with
    | error e => simp [hlock, bind, Except.bind] at hpop
    | ok lock =>
      simp only [hlock, bind, Except.bind] at hpop
      split_ifs at hpop with hack hfree
      · cases hpush : f.awaitStack.push item with
        | error e => simp [hpush] at hpop
        | ok r =>
          simp only [hpush] at hpop
          cases hpop
          rfl
      · cases hagain : Semaphore.semWait lock with
        | error e => simp [ForwardStack.getNonackableItem, hagain, bind, Except.bind] at hpop
        | ok inner =>
          have htake : ForwardStack.takeNonackable (item :: rest) = some (item, rest) := by
            rw [ForwardStack.takeNonackable, if_pos]
            cases item.package.statusCode <;> decide
          simp only [ForwardStack.getNonackableItem, hs, hagain, htake, bind, Except.bind] at hpop
          cases hpop
          rfl
      · cases hpop
        rfl

/-- The head of a packet says truly whether more is queued exactly when the socket is
seized or the item was the last one. -/
theorem quickSendLaw_iff (fwdStack left : ForwardStack) (package : ForwardStackPackage)
    (initSender handshakeSent : Bool) (workerId : Text) (soc : Socket)
    (hitem : fwdStack.senderStack ≠ [])
    (hpop : fwdStack.popForwardStack = .ok (package, left)) :
    QuickSendLaw left soc package.statusCode
        (createPacket ⟨left, initSender, handshakeSent⟩ workerId soc package).1.head ↔
      soc.seizeMode = true ∨ fwdStack.senderStack.length = 1 := by
  have hlast : left.senderStack = [] ↔ fwdStack.senderStack.length = 1 := by
    rw [ForwardStack.popForwardStack_tail hpop, ← List.length_eq_zero_iff, List.length_tail]
    have hpos := List.length_pos_of_ne_nil hitem
    omega
  have hqsend := createPacket_qsend ⟨left, initSender, handshakeSent⟩ workerId soc package
  rw [← hlast]
  constructor
  · intro law
    cases hseized : soc.seizeMode with
    | true => exact .inl rfl
    | false =>
      right
      by_contra hmore
      have hset := (law.announced hseized).mpr hmore
      rw [hqsend] at hset
      cases hset
  · intro htrue
    constructor
    · intro hseized
      have hnone := htrue.resolve_left (by simp [hseized])
      simp [hqsend, hnone]
    · intro hseized
      refine ⟨?_, hqsend⟩
      rw [createPacket_head, if_pos hseized, Nat.testBit_or, value_eq_two_pow.2,
        Nat.testBit_two_pow_self, Bool.or_true]
    · intro i hi hseize
      rw [createPacket_head]
      split_ifs with hseized
      · have hother : ComputePacketStatus.seize.value.testBit i = false := by
          change (2 ^ seizeBit).testBit i = false
          apply Nat.testBit_two_pow_of_ne
          rintro rfl
          simp [hseized] at hseize
        rw [Nat.testBit_or, hother, Bool.or_false]
      · rfl

/-- A stack of acknowledgements for tables that were received. -/
def receivedAcks (n : ℕ) : ForwardStack :=
  { ForwardStack.init with
    senderStack := (List.range n).map fun k => ⟨k, ⟨.datRecvd, 1, ['t'], []⟩⟩
    allocated := n }

/-- The only item that is queued. -/
theorem quickSendLaw_lastItem :
    ∃ left, (receivedAcks 1).popForwardStack = .ok (⟨.datRecvd, 1, ['t'], []⟩, left) ∧
      QuickSendLaw left .init .datRecvd
        (createPacket ⟨left, true, true⟩ ['w'] .init ⟨.datRecvd, 1, ['t'], []⟩).1.head := by
  refine ⟨_, rfl, ?_⟩
  exact (quickSendLaw_iff (receivedAcks 1) _ ⟨.datRecvd, 1, ['t'], []⟩ true true ['w'] .init
    (by decide) rfl).mpr (.inr rfl)

/-- One of two queued items is sent, and the other one is not announced. -/
theorem not_quickSendLaw_twoItems :
    ∃ left, (receivedAcks 2).popForwardStack = .ok (⟨.datRecvd, 1, ['t'], []⟩, left) ∧
      ¬ QuickSendLaw left .init .datRecvd
        (createPacket ⟨left, true, true⟩ ['w'] .init ⟨.datRecvd, 1, ['t'], []⟩).1.head := by
  refine ⟨_, rfl, fun law => ?_⟩
  have hset := (law.announced rfl).mpr (by decide)
  revert hset
  decide

end WorkerUnit
