import WorkerUnit.Socket.SocketTask
import WorkerUnit.Worker.ServedTables

/-!
# What is sent about a table

The callbacks of the tables and the other threads push to one forward stack, from which
the socket loop pops and launches its clients. Seize notices overtake what waits in the
stack, and the loop drops a packet for which no client is free. Neither reorders what is
sent about a table.
-/

namespace WorkerUnit

open StepSystem SharedStore

namespace TableRun

variable {n totalThreads : ℕ} {tableData : TableData} {confirmValue : Text} {disk : Disk}
  {packages before : List ForwardStackPackage}

/-- The protocol without its last package. -/
theorem Told.dropLast (hs : Told totalThreads tableData confirmValue n disk packages) :
    Told totalThreads tableData confirmValue n disk packages.dropLast := by
  cases hs with
  | nothing | received => exact .nothing
  | failed | handed => exact .received
  | answered order finalString =>
    rw [List.dropLast_concat]
    exact .handed

theorem Told.of_prefix (hs : Told totalThreads tableData confirmValue n disk packages)
    (h : before <+: packages) : Told totalThreads tableData confirmValue n disk before := by
  obtain ⟨rest, rfl⟩ := h
  induction rest using List.reverseRecOn with
  | nil => rwa [List.append_nil] at hs
  | append_singleton rest last ih =>
    apply ih
    simpa only [← List.append_assoc, List.dropLast_concat] using hs.dropLast

end TableRun

/-- The packages of the items that are about the table. -/
def about (tableID : Text) (items : List PackagePtr) : List ForwardStackPackage :=
  (items.map (·.package)).filter fun package => package.tableID = tableID

@[simp] theorem about_append (tableID : Text) (items more : List PackagePtr) :
    about tableID (items ++ more) = about tableID items ++ about tableID more := by
  simp [about]

theorem about_cons_of_ne {tableID : Text} {item : PackagePtr} (items : List PackagePtr)
    (h : item.package.tableID ≠ tableID) : about tableID (item :: items) = about tableID items := by
  simp [about, h]

/-- The table that a pushed package is about. -/
def SocketEvent.tableID? : SocketEvent → Option Text
  | .pushPacket package => some package.tableID
  | _ => none

namespace SocketRun

variable {s t : SocketRun} {e : SocketEvent} {package : ForwardStackPackage} {tableID : Text}

/-- The items that have left the stack and those that wait in it. -/
def items (s : SocketRun) : List PackagePtr := s.removed ++ s.senderSink.fwdStack.senderStack

theorem items_popItem (h : s.Ordered) (ht : s.popItem = some t) : t.items = s.items := by
  unfold SocketRun.popItem at ht
  split at ht
  · cases ht
  · rename_i package fwdStack hpop
    obtain ⟨_, _, hstack, _⟩ := ForwardStack.popForwardStack_front h.lock hpop
    cases ht
    simp only [items, removed, List.map_append, List.map_map, Function.comp_def, List.map_id',
      List.append_assoc]
    rw [← hstack]

/-- A push adds one item: a seize notice behind the items that have left, any other
package behind all of them. -/
theorem items_pushPacket (h : s.Ordered) (ht : socketTask s (.pushPacket package) = some t) :
    t.removed = s.removed ∧ ∃ item : PackagePtr, item.package = package ∧
      t.senderSink.fwdStack.senderStack =
        if package.statusCode = .seize then item :: s.senderSink.fwdStack.senderStack
        else s.senderSink.fwdStack.senderStack ++ [item] := by
  obtain ⟨senderSink, hpush, rfl⟩ := socketTask_pushPacket ht
  refine ⟨rfl, ⟨s.senderSink.fwdStack.allocated, package⟩, rfl, ?_⟩
  unfold SenderSink.pushPacket at hpush
  split_ifs at hpush ⊢
  · simp only [ForwardStack.pushFront, h.lock, Semaphore.semWait_one, bind, Except.bind,
      Except.ok.injEq] at hpush
    subst hpush
    rfl
  · simp only [ForwardStack.push, h.lock, Semaphore.semWait_one, bind, Except.bind,
      Except.ok.injEq] at hpush
    subst hpush
    rfl

/-- No other event adds an item. -/
theorem items_step (h : s.Ordered) (he : ∀ package, e ≠ .pushPacket package)
    (ht : socketTask s e = some t) : t.items = s.items := by
  cases e with
  | readStatus =>
    obtain ⟨_, rfl⟩ := socketTask_readStatus ht
    rfl
  | popPacket =>
    obtain ⟨_, ⟨_, _, rfl⟩ | ⟨_, _, rfl⟩ | ⟨_, hpop⟩⟩ := socketTask_popPacket ht
    · rfl
    · rfl
    · exact items_popItem h hpop
  | workerIdSeen =>
    obtain ⟨_, _, rfl⟩ := socketTask_workerIdSeen ht
    rfl
  | workerIdTested =>
    obtain ⟨_, ⟨_, rfl⟩ | ⟨_, hpop⟩⟩ := socketTask_workerIdTested ht
    · rfl
    · exact items_popItem
        (s := { s with senderSink := { s.senderSink with initSender := true } })
        ⟨h.lock, h.nodup, h.fresh, h.sublist, h.made, h.clients, h.paired⟩ hpop
  | launch =>
    obtain ⟨_, _, _, ⟨_, rfl⟩ | ⟨_, _, _, rfl⟩ | ⟨_, _, rfl⟩⟩ := socketTask_launch ht <;> rfl
  | pushPacket package => exact absurd rfl (he package)
  | acknowledge awaitStack | setWorkerId id | changeFlag state statusFlag =>
    cases ht
    rfl

/-- Packages about something else leave the items about the table as they are, also when
they overtake them. -/
theorem about_step (h : s.Ordered) (he : e.tableID? ≠ some tableID) (ht : socketTask s e = some t) :
    about tableID t.items = about tableID s.items := by
  by_cases hpush : ∃ package, e = .pushPacket package
  · obtain ⟨package, rfl⟩ := hpush
    obtain ⟨hremoved, item, rfl, hstack⟩ := items_pushPacket h ht
    have hother : item.package.tableID ≠ tableID := fun hid => he (congrArg some hid)
    rw [items, hremoved, hstack]
    split_ifs
    · simp only [items, about_append, about_cons_of_ne _ hother]
    · simp only [items, about_append, about_cons_of_ne _ hother]
      simp [about]
  · rw [items_step h (not_exists.mp hpush) ht]

/-- Packages that are no seize notices enter behind all others. -/
theorem about_pushAll (tableID : Text) {new : List ForwardStackPackage}
    (hnew : ∀ package ∈ new, package.statusCode ≠ .seize) (h : s.Ordered)
    (ht : exec socketTask s (new.map .pushPacket) = some t) :
    t.Ordered ∧ about tableID t.items =
      about tableID s.items ++ new.filter fun package => package.tableID = tableID := by
  induction new generalizing s with
  | nil =>
    cases ht
    exact ⟨h, by simp⟩
  | cons package new ih =>
    obtain ⟨u, hu, hexec⟩ := exec_cons_eq_some.mp ht
    obtain ⟨hremoved, item, rfl, hstack⟩ := items_pushPacket h hu
    rw [if_neg (hnew _ (List.mem_cons_self ..))] at hstack
    have hbehind : ∀ package ∈ new, package.statusCode ≠ .seize :=
      fun package hpackage => hnew package (List.mem_cons_of_mem _ hpackage)
    obtain ⟨hordered, hrest⟩ := ih hbehind (h.step hu).1 hexec
    have hitems : u.items = s.items ++ [item] := by
      rw [items, hremoved, hstack, items, List.append_assoc]
    refine ⟨hordered, ?_⟩
    rw [hrest, hitems, about_append, List.append_assoc]
    by_cases hid : item.package.tableID = tableID <;> simp [about, hid]

end SocketRun

/-- The tables of the worker, and its socket loop with the forward stack. -/
structure ServingRun where
  tables : State ServedTable Text (Option Text) ForwardStackPackage
  loop : SocketRun

/-- A reception or a callback of a table, or a step of the socket loop or of another
thread. -/
inductive ServingEvent where
  | tables (e : Event TableEvent Reception)
  | socket (e : SocketEvent)

/-- The table that a package of another thread is about. -/
def ServingEvent.other? : ServingEvent → Option Text
  | .tables _ => none
  | .socket e => e.tableID?

namespace ServingRun

open ServedTable

def start (disk : Disk) : ServingRun := ⟨⟨disk, [], []⟩, .start⟩

variable (totalThreads : ℕ)

/-- The packages of a callback are pushed to the stack of the loop. -/
def servingStep (s : ServingRun) : ServingEvent → Option ServingRun
  | .tables e => (systemStep (callback totalThreads) receive s.tables e).bind fun tables =>
      (exec SocketRun.socketTask s.loop
        ((tables.log.drop s.tables.log.length).map .pushPacket)).map fun loop => ⟨tables, loop⟩
  | .socket e => (SocketRun.socketTask s.loop e).map fun loop => { s with loop := loop }

/-- The items about the table, left or waiting, are its packages in the order of their
pushes. -/
structure InOrder (tableID : Text) (s : ServingRun) : Prop where
  known : Known file fileOf (Served totalThreads) s.tables
  ordered : s.loop.Ordered
  queued : about tableID s.loop.items =
    s.tables.log.filter fun package => package.tableID = tableID

variable {totalThreads : ℕ} {tableID : Text} {s t : ServingRun}

theorem inOrder_start (disk : Disk) : (start disk).InOrder totalThreads tableID :=
  ⟨known_start disk, SocketRun.ordered_start, rfl⟩

/-- The tables push no seize notice. -/
theorem log_step {tables more : State ServedTable Text (Option Text) ForwardStackPackage}
    {e : Event TableEvent Reception}
    (h : systemStep (callback totalThreads) receive tables e = some more) :
    ∃ new, more.log = tables.log ++ new ∧ ∀ package ∈ new, package.statusCode ≠ .seize := by
  cases e with
  | arrive reception =>
    obtain ⟨_, _, rfl⟩ := Option.map_eq_some_iff.mp h
    exact ⟨[], by simp, by simp⟩
  | call i e =>
    obtain ⟨_, _, _, new, _, hcall, rfl⟩ := systemStep_call h
    obtain ⟨_, _, _, _, _, hnew⟩ := callback_eq_some hcall
    exact ⟨new, rfl, fun package hpackage => (hnew package hpackage).2⟩

theorem InOrder.step (hT : 1 ≤ totalThreads) (hs : s.InOrder totalThreads tableID)
    {e : ServingEvent} (he : e.other? ≠ some tableID)
    (h : s.servingStep totalThreads e = some t) : t.InOrder totalThreads tableID := by
  cases e with
  | tables e =>
    obtain ⟨tables, htables, h⟩ := Option.bind_eq_some_iff.mp h
    obtain ⟨loop, hloop, rfl⟩ := Option.map_eq_some_iff.mp h
    obtain ⟨new, hlog, hnew⟩ := log_step htables
    rw [hlog, List.drop_left] at hloop
    obtain ⟨hordered, hqueued⟩ := SocketRun.about_pushAll tableID hnew hs.ordered hloop
    refine ⟨(hs.known.step (confined hT) htables).1, hordered, ?_⟩
    dsimp only
    rw [hqueued, hlog, List.filter_append, hs.queued]
  | socket e =>
    obtain ⟨loop, hloop, rfl⟩ := Option.map_eq_some_iff.mp h
    refine ⟨hs.known, (hs.ordered.step hloop).1, ?_⟩
    exact (SocketRun.about_step hs.ordered he hloop).trans hs.queued

/-- What the loop has taken from the stack about a table that can be followed is a prefix of
the protocol for the table alone. The packets that clients were given are a part of those
that were taken, in the same order and each at most once, and a client's packet is made of
its item. -/
theorem sentInOrder {disk : Disk} {es : List ServingEvent} (hT : 1 ≤ totalThreads)
    (hrun : exec (servingStep totalThreads) (start disk) es = some s)
    (hids : (s.tables.components.map (·.tableData.tableID)).Nodup)
    (hplain : ∀ table ∈ s.tables.components, PlainId table.tableData.tableID)
    {table : ServedTable} (htable : table ∈ s.tables.components) (hfollowed : table.Followed)
    (hothers : ∀ e ∈ es, e.other? ≠ some table.tableData.tableID) :
    TableRun.Told totalThreads table.tableData table.reception.confirmValue
        (table.tableData.metadata.columns - 1) table.received
        (about table.tableData.tableID s.loop.removed) ∧
      about table.tableData.tableID s.loop.removed ++
          about table.tableData.tableID s.loop.senderSink.fwdStack.senderStack =
        packagesOf s.tables.log table ∧
      s.loop.removed.Nodup ∧ (s.loop.given ++ s.loop.inHand).Sublist s.loop.popped ∧
      ∀ client ∈ s.loop.clients, ∀ item ∈ client.item,
        ∃ packet ∈ client.packet, SocketRun.MadeOf item packet := by
  have hguarded : Guarded (servingStep totalThreads)
      (fun _ e => e.other? ≠ some table.tableData.tableID) (start disk) es :=
    .of_forall (fun e he _ => hothers e he) _
  have hs := hguarded.invariant (P := InOrder totalThreads table.tableData.tableID)
    (fun _ _ _ hs he h => hs.step hT he h) (inOrder_start disk) hrun
  have htold := (served_of_known hs.known hids hplain htable).told hfollowed
  have hqueued : about table.tableData.tableID s.loop.removed ++
      about table.tableData.tableID s.loop.senderSink.fwdStack.senderStack =
        packagesOf s.tables.log table := by
    rw [← about_append]
    exact hs.queued
  have hremoved : s.loop.removed.Nodup := (List.nodup_append.mp hs.ordered.nodup).1
  exact ⟨htold.of_prefix ⟨_, hqueued⟩, hqueued, hremoved, hs.ordered.sublist,
    fun client hclient item hitem => hs.ordered.made_client hclient hitem⟩

/-- The worker shakes hands and serves two tables. A seize notice overtakes what is left of
them; it finds no free client, as does the package behind it. -/
def overtaken : List ServingEvent :=
  ([.readStatus, .popPacket, .launch, .setWorkerId ['w'], .changeFlag false .normalMode] :
      List SocketEvent).map .socket ++
    twoTables.map .tables ++
    ([.readStatus, .popPacket, .launch, .pushPacket ⟨.seize, 3, [], []⟩, .readStatus,
      .popPacket, .launch, .readStatus, .popPacket, .launch, .changeFlag false .normalMode,
      .readStatus, .popPacket, .launch] : List SocketEvent).map .socket

theorem sentInOrder_overtaken :
    ∃ s, exec (servingStep 1) (start fun _ => none) overtaken = some s ∧
      s.loop.removed.length = 4 ∧ s.loop.given.length = 2 ∧
      ∀ table ∈ s.tables.components,
        TableRun.Told 1 table.tableData table.reception.confirmValue
            (table.tableData.metadata.columns - 1) table.received
            (about table.tableData.tableID s.loop.removed) ∧
          about table.tableData.tableID s.loop.removed ++
              about table.tableData.tableID s.loop.senderSink.fwdStack.senderStack =
            packagesOf s.tables.log table ∧
          s.loop.removed.Nodup ∧ (s.loop.given ++ s.loop.inHand).Sublist s.loop.popped ∧
          ∀ client ∈ s.loop.clients, ∀ item ∈ client.item,
            ∃ packet ∈ client.packet, SocketRun.MadeOf item packet := by
  have hrun : (exec (servingStep 1) (start fun _ => none) overtaken).map (fun s =>
      (s.tables.components.map (·.tableData.tableID),
        decide (∀ table ∈ s.tables.components, table.WalkedTable),
        s.loop.removed.length, s.loop.given.length)) =
      some ([['t'], ['u']], true, 4, 2) := by decide +kernel
  obtain ⟨s, hs, hend⟩ := Option.map_eq_some_iff.mp hrun
  simp only [Prod.mk.injEq, decide_eq_true_eq] at hend
  obtain ⟨hids, hwalked, hremoved, hgiven⟩ := hend
  refine ⟨s, hs, hremoved, hgiven, fun table htable => ?_⟩
  have hplain : ∀ table ∈ s.tables.components,
      PlainId table.tableData.tableID ∧ table.tableData.tableID ≠ [] := by
    have hall : ∀ tableID ∈ s.tables.components.map (·.tableData.tableID),
        PlainId tableID ∧ tableID ≠ [] := hids ▸ by decide
    exact fun table htable => hall _ (List.mem_map_of_mem htable)
  have hnotice : ∀ e ∈ overtaken, e.other? = none ∨ e.other? = some [] := by decide
  refine sentInOrder (le_refl 1) hs (hids ▸ by decide) (fun table h => (hplain table h).1) htable
    (hwalked table htable).followed ?_
  intro e he hother
  rcases hnotice e he with hnone | hnil
  · cases hnone.symm.trans hother
  · exact (hplain table htable).2 (Option.some.inj (hother.symm.trans hnil))

end ServingRun

end WorkerUnit
