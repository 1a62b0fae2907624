import WorkerUnit.Sender.SenderCalls

/-!
# Tracking of acknowledgeable packets

A run of calls together with the acknowledgeable items exported so far. An item
is the object that `push` allocated, so equal packages queued twice are two
items. Delivery is reliable when every exported item keeps a slot of the await
stack and an acknowledgement settles exactly one item that waits for it.
-/

namespace WorkerUnit

open Semaphore StepSystem

structure Delivery where
  stack : ForwardStack
  exported : List PackagePtr
  deriving DecidableEq

namespace Delivery

def start : Delivery := ⟨.init, []⟩

/-- The acknowledgeable item that a call exports. -/
def exports (d : Delivery) : SenderCall → List PackagePtr
  | .popForwardStack => (d.stack.senderStack.head?.filter (·.ackable)).toList
  | _ => []

/-- A call that returns; a call that does not ends the run. -/
def deliver (d : Delivery) (c : SenderCall) : Option Delivery :=
  (d.stack.complete c).map fun stack => ⟨stack, d.exported ++ d.exports c⟩

/-- The item has a slot, acknowledged or not. -/
def HoldsSlot (d : Delivery) (item : PackagePtr) : Prop :=
  ∃ i acked, d.stack.awaitStack.Holds i item acked

def Acknowledged (d : Delivery) (item : PackagePtr) : Prop :=
  ∃ i, d.stack.awaitStack.Holds i item true

instance (d : Delivery) (item : PackagePtr) : Decidable (d.HoldsSlot item) :=
  inferInstanceAs (Decidable (∃ i acked,
    d.stack.awaitStack.awaitStack i = some ⟨some item, acked⟩))

/-- Every exported item has a slot, and the counter counts the acknowledged slots. -/
structure Tracked (d : Delivery) : Prop where
  holdsSlot : ∀ item ∈ d.exported, d.HoldsSlot item
  counted : d.stack.awaitStack.ackedPackets = d.stack.awaitStack.ackedSlots.card

/-- `matchItem` returns zero exactly when some exported item waits for the
acknowledgement, and then it acknowledges one such item and no other. -/
def MatchLaw (d : Delivery) (statusCode : ℤ) (tableID : Text) : Prop :=
  ∃ result awaitStack, d.stack.awaitStack.matchItem statusCode tableID = .ok (result, awaitStack) ∧
    (result = 0 ↔ ∃ item ∈ d.exported,
      item.AnsweredBy statusCode tableID ∧ ¬ d.Acknowledged item) ∧
    (result = 0 → ∃ item ∈ d.exported,
      item.AnsweredBy statusCode tableID ∧ ¬ d.Acknowledged item ∧
        ∀ other, (∃ i, awaitStack.Holds i other true) ↔ d.Acknowledged other ∨ other = item) ∧
    (result ≠ 0 → awaitStack = d.stack.awaitStack)

/-- What the call has to do: keep every item tracked, and match correctly. -/
def Correct (d : Delivery) : SenderCall → Prop
  | .matchItem statusCode tableID => d.MatchLaw statusCode tableID
  | c => ∃ t, d.deliver c = some t ∧ t.Tracked

/-- The call exports an acknowledgeable item although all six slots are taken. -/
def ExportsUntracked (d : Delivery) (c : SenderCall) : Prop :=
  c = .popForwardStack ∧ d.exports c ≠ [] ∧ totalDiffredPackets ≤ d.stack.awaitStack.index

/-- Neither an untracked export nor the acknowledgement of the last slot. -/
def Permitted (d : Delivery) (c : SenderCall) : Prop :=
  ¬ d.ExportsUntracked c ∧ ¬ d.stack.AcksLastSlot c

/-- The exported items fill the slots in order, and all items are distinct. -/
structure Recorded (d : Delivery) : Prop where
  sound : d.stack.Sound
  slots : ∀ i, i.val < d.stack.awaitStack.index →
    ∃ item acked, d.stack.awaitStack.Holds i item acked ∧ d.exported[i.val]? = some item
  length : d.exported.length = d.stack.awaitStack.index
  nodup : (d.exported ++ d.stack.senderStack).Nodup
  fresh : ∀ item ∈ d.exported ++ d.stack.senderStack, item.address < d.stack.allocated

variable {d : Delivery}

theorem recorded_start : start.Recorded where
  sound := ForwardStack.sound_init
  slots := by
    intro i hi
    simp [start, ForwardStack.init, AwaitStack.init] at hi
  length := rfl
  nodup := List.nodup_nil
  fresh := by simp [start, ForwardStack.init]

theorem Recorded.exists_slot (h : d.Recorded) {item : PackagePtr} (hi : item ∈ d.exported) :
    d.HoldsSlot item := by
  obtain ⟨k, hk, rfl⟩ := List.mem_iff_getElem.mp hi
  have hlt : k < d.stack.awaitStack.index := h.length ▸ hk
  obtain ⟨item, acked, hholds, hget⟩ :=
    h.slots ⟨k, hlt.trans_le h.sound.awaitStack.index_le⟩ hlt
  rw [List.getElem?_eq_getElem hk, Option.some.injEq] at hget
  exact ⟨_, acked, hget ▸ hholds⟩

theorem Recorded.tracked (h : d.Recorded) : d.Tracked :=
  ⟨fun _ hi => h.exists_slot hi, h.sound.awaitStack.acked_eq⟩

theorem Recorded.exported_of_holds (h : d.Recorded) {i : Fin totalDiffredPackets}
    {item : PackagePtr} {acked : Bool} (hi : d.stack.awaitStack.Holds i item acked) :
    d.exported[i.val]? = some item := by
  rcases Nat.lt_or_ge i.val d.stack.awaitStack.index with hlt | hge
  · obtain ⟨x, b, hx, hget⟩ := h.slots i hlt
    have := hx.symm.trans hi
    simp only [Option.some.injEq, AwaitStackPackage.mk.injEq] at this
    exact this.1 ▸ hget
  · rw [AwaitStack.Holds, h.sound.awaitStack.vacant i hge] at hi
    cases hi

/-- Two slots never hold the same item. -/
theorem Recorded.slot_unique (h : d.Recorded) {i j : Fin totalDiffredPackets}
    {item : PackagePtr} {a b : Bool} (hi : d.stack.awaitStack.Holds i item a)
    (hj : d.stack.awaitStack.Holds j item b) : i = j := by
  obtain ⟨hilt, hieq⟩ := List.getElem?_eq_some_iff.mp (h.exported_of_holds hi)
  obtain ⟨hjlt, hjeq⟩ := List.getElem?_eq_some_iff.mp (h.exported_of_holds hj)
  have hnd : d.exported.Nodup := (List.nodup_append.mp h.nodup).1
  exact Fin.ext ((hnd.getElem_inj_iff).mp (hieq.trans hjeq.symm))

theorem Recorded.not_acknowledged (h : d.Recorded) {i : Fin totalDiffredPackets}
    {item : PackagePtr} (hi : d.stack.awaitStack.Holds i item false) : ¬ d.Acknowledged item := by
  rintro ⟨j, hj⟩
  obtain rfl := h.slot_unique hi hj
  have := hi.symm.trans hj
  simp at this

theorem Recorded.matches_iff (h : d.Recorded) (statusCode : ℤ) (tableID : Text) :
    d.stack.awaitStack.Matches statusCode tableID ↔
      ∃ item ∈ d.exported, item.AnsweredBy statusCode tableID ∧ ¬ d.Acknowledged item := by
  constructor
  · rintro ⟨i, item, hi, hans⟩
    exact ⟨item, List.mem_of_getElem? (h.exported_of_holds hi), hans, h.not_acknowledged hi⟩
  · rintro ⟨item, hmem, hans, hnot⟩
    obtain ⟨i, acked, hi⟩ := h.exists_slot hmem
    cases acked with
    | false => exact ⟨i, item, hi, hans⟩
    | true => exact absurd ⟨i, hi⟩ hnot

theorem Recorded.matchLaw (h : d.Recorded) {statusCode : ℤ} {tableID : Text}
    (hc : ¬ d.stack.AcksLastSlot (.matchItem statusCode tableID)) :
    d.MatchLaw statusCode tableID := by
  have hiff := h.matches_iff statusCode tableID
  by_cases hm : d.stack.awaitStack.Matches statusCode tableID
  · have hlt : d.stack.awaitStack.ackedPackets + 1 < totalDiffredPackets := by
      have hacked := h.sound.awaitStack.acked_lt
      have hne : d.stack.awaitStack.ackedPackets + 1 ≠ totalDiffredPackets :=
        fun he => hc ⟨statusCode, tableID, rfl, he, hm⟩
      omega
    obtain ⟨i, item, hi, hans, he⟩ := h.sound.awaitStack.matchItem_of_matches hm hlt
    refine ⟨0, _, he, by simp [← hiff, hm], fun _ => ?_, by simp⟩
    refine ⟨item, List.mem_of_getElem? (h.exported_of_holds hi), hans,
      h.not_acknowledged hi, fun other => ?_⟩
    constructor
    · rintro ⟨j, hj⟩
      rw [hi.ackPacket] at hj
      split_ifs at hj with hji
      · exact .inr hj.1
      · exact .inl ⟨j, hj⟩
    · rintro (⟨j, hj⟩ | rfl)
      · refine ⟨j, (hi.ackPacket j other true).mpr ?_⟩
        have hji : j ≠ i := by
          rintro rfl
          have := hi.symm.trans hj
          simp at this
        simpa [hji] using hj
      · exact ⟨i, (hi.ackPacket i other true).mpr (by simp)⟩
  · exact ⟨-1, _, h.sound.awaitStack.matchItem_of_not_matches hm, by simp [← hiff, hm], by simp,
      fun _ => rfl⟩

theorem exports_popForwardStack {item : PackagePtr} {rest : List PackagePtr}
    (hs : d.stack.senderStack = item :: rest) :
    d.exports .popForwardStack = if item.ackable then [item] else [] := by
  unfold exports
  split_ifs with ha <;> simp [hs, Option.filter, ha]

theorem Permitted.index_lt {item : PackagePtr} {rest : List PackagePtr}
    (hs : d.stack.senderStack = item :: rest) (ha : item.ackable = true)
    (hp : d.Permitted .popForwardStack) : d.stack.awaitStack.index < totalDiffredPackets := by
  by_contra hge
  exact hp.1 ⟨rfl, by simp [exports_popForwardStack hs, ha], Nat.not_lt.mp hge⟩

theorem Recorded.popped_exported (h : d.Recorded) {item : PackagePtr} {rest : List PackagePtr}
    (hs : d.stack.senderStack = item :: rest) (ha : item.ackable = true)
    (hlt : d.stack.awaitStack.index < totalDiffredPackets) :
    Recorded ⟨d.stack.popped item rest, d.exported ++ [item]⟩ := by
  have hawait : (d.stack.popped item rest).awaitStack = d.stack.awaitStack.pushed item hlt := by
    simp [ForwardStack.popped, ha, hlt]
  refine ⟨h.sound.popped item rest, ?_, ?_, ?_, ?_⟩
  · intro i hi
    simp only [hawait] at hi ⊢
    by_cases he : i.val = d.stack.awaitStack.index
    · obtain rfl : i = ⟨d.stack.awaitStack.index, hlt⟩ := Fin.ext he
      exact ⟨item, false, AwaitStack.pushed_holds item hlt, by simp [h.length]⟩
    · have hi' : i.val < d.stack.awaitStack.index := by
        simp only [AwaitStack.pushed] at hi
        omega
      obtain ⟨x, b, hx, hget⟩ := h.slots i hi'
      refine ⟨x, b, (AwaitStack.pushed_of_ne item hlt he).trans hx, ?_⟩
      rw [List.getElem?_append_left (h.length ▸ hi')]
      exact hget
  · simp [hawait, AwaitStack.pushed, h.length]
  · have hnd := h.nodup
    rw [hs] at hnd
    simpa [ForwardStack.popped] using hnd
  · intro x hx
    apply h.fresh x
    simpa [hs, ForwardStack.popped] using hx

theorem Recorded.popped_plain (h : d.Recorded) {item : PackagePtr} {rest : List PackagePtr}
    (hs : d.stack.senderStack = item :: rest) (ha : item.ackable = false) :
    Recorded ⟨d.stack.popped item rest, d.exported⟩ := by
  have hawait : (d.stack.popped item rest).awaitStack = d.stack.awaitStack := by
    simp [ForwardStack.popped, ha]
  refine ⟨h.sound.popped item rest, ?_, ?_, ?_, ?_⟩
  · simpa only [hawait] using h.slots
  · simpa only [hawait] using h.length
  · have hnd := h.nodup
    rw [hs] at hnd
    exact hnd.sublist ((List.Sublist.refl d.exported).append (List.sublist_cons_self item rest))
  · intro x hx
    apply h.fresh x
    rw [hs]
    rcases List.mem_append.mp hx with hx | hx
    · exact List.mem_append_left _ hx
    · exact List.mem_append_right _ (List.mem_cons_of_mem _ hx)

theorem Recorded.queued (h : d.Recorded) (package : ForwardStackPackage)
    (items : List PackagePtr)
    (hitems : items.Perm (⟨d.stack.allocated, package⟩ :: d.stack.senderStack)) :
    Recorded ⟨{ d.stack with senderStack := items, allocated := d.stack.allocated + 1 },
      d.exported⟩ := by
  have hperm : (d.exported ++ items).Perm
      (⟨d.stack.allocated, package⟩ :: (d.exported ++ d.stack.senderStack)) :=
    (hitems.append_left _).trans List.perm_middle
  have hnew : (⟨d.stack.allocated, package⟩ : PackagePtr) ∉ d.exported ++ d.stack.senderStack :=
    fun hmem => Nat.lt_irrefl _ (h.fresh _ hmem)
  refine ⟨⟨h.sound.lock, h.sound.awaitStack⟩, h.slots, h.length, ?_, ?_⟩
  · exact hperm.nodup_iff.mpr (List.nodup_cons.mpr ⟨hnew, h.nodup⟩)
  · intro x hx
    rcases List.mem_cons.mp (hperm.mem_iff.mp hx) with rfl | hx
    · exact Nat.lt_succ_self _
    · exact Nat.lt_succ_of_lt (h.fresh x hx)

theorem Recorded.acknowledged (h : d.Recorded) {i : Fin totalDiffredPackets} {item : PackagePtr}
    (hi : d.stack.awaitStack.Holds i item false)
    (hlt : d.stack.awaitStack.ackedPackets + 1 < totalDiffredPackets) :
    Recorded ⟨{ d.stack with awaitStack := d.stack.awaitStack.ackPacket i }, d.exported⟩ := by
  refine ⟨⟨h.sound.lock, h.sound.awaitStack.ackPacket hi hlt⟩, ?_, h.length, h.nodup, h.fresh⟩
  intro j hj
  obtain ⟨x, b, hx, hget⟩ := h.slots j hj
  by_cases hji : j = i
  · subst hji
    have hitem := h.exported_of_holds hi
    exact ⟨item, true, (hi.ackPacket j item true).mpr (by simp), hitem⟩
  · exact ⟨x, b, (hi.ackPacket j x b).mpr (by simpa [hji] using hx), hget⟩

/-- A permitted call returns and leaves the exported items recorded. -/
theorem Recorded.deliver (h : d.Recorded) {c : SenderCall} (hp : d.Permitted c) :
    ∃ t, d.deliver c = some t ∧ t.Recorded := by
  cases c with
  | push package =>
    refine ⟨_, ?_, h.queued package (d.stack.senderStack ++ [⟨_, package⟩])
      (List.perm_append_singleton _ _)⟩
    simp [Delivery.deliver, ForwardStack.complete, ForwardStack.perform, h.sound.push_eq,
      Except.toOption, exports]
  | pushFront package =>
    refine ⟨_, ?_, h.queued package (⟨_, package⟩ :: d.stack.senderStack) (.refl _)⟩
    simp [Delivery.deliver, ForwardStack.complete, ForwardStack.perform, h.sound.pushFront_eq,
      Except.toOption, exports]
  | popForwardStack =>
    cases hs : d.stack.senderStack with
    | nil =>
      refine ⟨d, ?_, h⟩
      simp [Delivery.deliver, ForwardStack.complete, ForwardStack.perform,
        ForwardStack.popForwardStack_nil hs, Except.map, Except.toOption, exports, hs]
    | cons item rest =>
      have hpop : d.deliver .popForwardStack = some ⟨d.stack.popped item rest,
          d.exported ++ if item.ackable then [item] else []⟩ := by
        simp [Delivery.deliver, ForwardStack.complete, ForwardStack.perform,
          h.sound.popForwardStack_cons hs, Except.map, Except.toOption,
          exports_popForwardStack hs]
      refine ⟨_, hpop, ?_⟩
      by_cases ha : item.ackable = true
      · simpa [ha] using h.popped_exported hs ha (hp.index_lt hs ha)
      · simpa [ha] using h.popped_plain hs (by simpa using ha)
  | matchItem statusCode tableID =>
    by_cases hm : d.stack.awaitStack.Matches statusCode tableID
    · have hlt : d.stack.awaitStack.ackedPackets + 1 < totalDiffredPackets := by
        have hacked := h.sound.awaitStack.acked_lt
        have hne : d.stack.awaitStack.ackedPackets + 1 ≠ totalDiffredPackets :=
          fun he => hp.2 ⟨statusCode, tableID, rfl, he, hm⟩
        omega
      obtain ⟨i, item, hi, _, he⟩ := h.sound.awaitStack.matchItem_of_matches hm hlt
      refine ⟨_, ?_, h.acknowledged hi hlt⟩
      simp [Delivery.deliver, ForwardStack.complete, ForwardStack.perform, he, Except.map,
        Except.toOption, exports]
    · refine ⟨d, ?_, h⟩
      simp [Delivery.deliver, ForwardStack.complete, ForwardStack.perform,
        h.sound.awaitStack.matchItem_of_not_matches hm, Except.map, Except.toOption, exports]

theorem Recorded.of_guarded {calls : List SenderCall}
    (hg : Guarded Delivery.deliver Permitted start calls)
    (hd : exec Delivery.deliver start calls = some d) : d.Recorded := by
  refine hg.invariant (P := Recorded) (fun s c t hs hp ht => ?_) recorded_start hd
  obtain ⟨t', ht', hrec⟩ := hs.deliver hp
  cases ht'.symm.trans ht
  exact hrec

/-- An item exported while all slots are taken has no slot. -/
theorem Recorded.not_tracked (h : d.Recorded) {t : Delivery}
    (hc : d.ExportsUntracked .popForwardStack) (ht : d.deliver .popForwardStack = some t) :
    ¬ t.Tracked := by
  cases hs : d.stack.senderStack with
  | nil => simp [ExportsUntracked, exports, hs] at hc
  | cons item rest =>
    have ha : item.ackable = true := by
      by_contra ha
      simp [ExportsUntracked, exports_popForwardStack hs, ha] at hc
    have hge : ¬ d.stack.awaitStack.index < totalDiffredPackets := Nat.not_lt.mpr hc.2.2
    have hpop : t = ⟨d.stack.popped item rest, d.exported ++ [item]⟩ := by
      simpa [Delivery.deliver, ForwardStack.complete, ForwardStack.perform,
        h.sound.popForwardStack_cons hs, Except.map, Except.toOption,
        exports_popForwardStack hs, ha, eq_comm] using ht
    rw [hpop]
    intro htracked
    obtain ⟨i, acked, hi⟩ := htracked.holdsSlot item (by simp)
    have hi' : d.stack.awaitStack.Holds i item acked := by
      simpa [ForwardStack.popped, ha, hge] using hi
    have hmem : item ∈ d.exported := List.mem_of_getElem? (h.exported_of_holds hi')
    have hnd := h.nodup
    rw [hs] at hnd
    exact (List.nodup_append.mp hnd).2.2 item hmem item (by simp) rfl

/-- In every run of permitted calls the exported items are tracked, and a call
does what it has to exactly when it is permitted. -/
theorem correct_iff_permitted (calls : List SenderCall)
    (hg : Guarded Delivery.deliver Permitted start calls)
    (hd : exec Delivery.deliver start calls = some d) :
    d.Tracked ∧ ∀ c, d.Correct c ↔ d.Permitted c := by
  have h := Recorded.of_guarded hg hd
  refine ⟨h.tracked, fun c => ⟨fun hcorrect => ?_, fun hp => ?_⟩⟩
  · constructor
    · rintro ⟨rfl, hexp⟩
      obtain ⟨t, ht, htracked⟩ := hcorrect
      exact h.not_tracked ⟨rfl, hexp⟩ ht htracked
    · rintro ⟨statusCode, tableID, rfl, hlast⟩
      obtain ⟨result, awaitStack, he, _⟩ := hcorrect
      rw [h.sound.awaitStack.matchItem_blocked hlast.2 hlast.1] at he
      cases he
  · obtain ⟨t, ht, hrec⟩ := h.deliver hp
    cases c with
    | matchItem statusCode tableID => exact h.matchLaw hp.2
    | push | pushFront | popForwardStack => exact ⟨t, ht, hrec.tracked⟩

/-- `n` results are queued and exported. -/
def resultsExported (n : ℕ) : List SenderCall :=
  List.replicate n (.push ForwardStack.resultPackage) ++ List.replicate n .popForwardStack

/-- One exported result waits for its acknowledgement. -/
theorem correct_first_result :
    ∃ d, exec Delivery.deliver start (resultsExported 1) = some d ∧
      d.Tracked ∧ d.Correct (.matchItem spFresAck ['t']) := by
  have hrun : ((exec Delivery.deliver start (resultsExported 1)).map fun d =>
      d.stack.awaitStack.ackedPackets) = some 0 := by decide
  have hg : Guarded Delivery.deliver Permitted start (resultsExported 1) := by
    refine ⟨by simp [Permitted, ExportsUntracked, ForwardStack.AcksLastSlot], fun t ht => ?_⟩
    obtain rfl := Option.some.inj ht
    refine ⟨⟨fun h => ?_, by simp [ForwardStack.AcksLastSlot]⟩, fun _ _ => trivial⟩
    exact absurd h.2.2 (by decide)
  obtain ⟨d, hd, hacked⟩ := Option.map_eq_some_iff.mp hrun
  obtain ⟨htracked, hcorrect⟩ := correct_iff_permitted _ hg hd
  refine ⟨d, hd, htracked, (hcorrect (.matchItem spFresAck ['t'])).mpr ⟨?_, ?_⟩⟩
  · simp [ExportsUntracked]
  · rintro ⟨_, _, _, hlast, _⟩
    simp [hacked] at hlast

/-- The seventh result is exported without a slot. -/
theorem not_correct_seventh_result :
    ¬ ∀ calls d, exec Delivery.deliver start calls = some d → d.Tracked ∧ ∀ c, d.Correct c := by
  intro h
  have hrun : ((exec Delivery.deliver start (resultsExported 7)).map fun d =>
      decide (∀ item ∈ d.exported, d.HoldsSlot item)) = some false := by decide
  obtain ⟨d, hd, hlost⟩ := Option.map_eq_some_iff.mp hrun
  exact absurd (h _ d hd).1.holdsSlot (by simpa using hlost)

end Delivery

end WorkerUnit
