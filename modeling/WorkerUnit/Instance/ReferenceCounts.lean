import WorkerUnit.Instance.Versions
import WorkerUnit.Receiver.InstanceDataParser

/-!
# Counting the tables of a version

A table counts for the version whose alias it carries until it is deallocated.
`update_algo_result` gives `dereferenceInstance` the id of the table, and
`process_data_failed` does not call it.
-/

namespace WorkerUnit

open StepSystem

/-- `live` are the tables that are not deallocated, and `retired` the versions
that were scheduled for deletion, as they were then. -/
structure CountState where
  store : InstanceStore
  live : List TableData
  retired : List InstanceModel

/-- A user packet that cannot be read, or whose file cannot be opened, is `none`.
The other one comes with the files it finds. -/
inductive CountEvent where
  | instancePacket (packet : InstanceDataPacket) (rand : ℕ → ℕ) (before : Char)
  | userPacket (packet : Option (UserDataPacket × Disk))
  | completed (k : ℕ)
  | failed (k : ℕ)

namespace CountState

def start (tables : Finset Text) : CountState := ⟨⟨.init, ⟨tables, 0⟩, []⟩, [], []⟩

abbrev models (s : CountState) : List InstanceModel := s.store.instanceList.instanceList

def withInstances (s : CountState) (instances : DataBaseInstanceList) : InstanceStore :=
  { s.store with instanceList := instances }

/-- The versions that are scheduled for deletion in the new list only. -/
def newlyRetired (old new : List InstanceModel) : List InstanceModel :=
  old.filter fun m =>
    !m.scheduledToDelete && new.any fun n => n.address == m.address && n.scheduledToDelete

/-- `update_algo_result` on its last split, and `process_data_failed`. The table is
deallocated by both. -/
def countStep (rc : SqliteCalls) (s : CountState) : CountEvent → Option CountState
  | .instancePacket packet rand before =>
    match InstanceDataParser.processInstancePacket rc rand before s.store packet [] with
    | none => none
    | some (_, _, store) =>
      some ⟨store, s.live, s.retired ++ newlyRetired s.models store.instanceList.instanceList⟩
  | .userPacket none => some s
  | .userPacket (some (packet, disk)) =>
    match s.store.instanceList.processDataPacket disk packet with
    | (_, none) => none
    | (instances, some (_, table, _)) =>
      some ⟨s.withInstances instances, s.live ++ table.toList, s.retired⟩
  | .completed k =>
    match s.live[k]? with
    | none => none
    | some table =>
      some ⟨s.withInstances (s.store.instanceList.dereferenceInstance table.tableID),
        s.live.eraseIdx k, s.retired⟩
  | .failed k =>
    match s.live[k]? with
    | none => none
    | some _ => some ⟨s.store, s.live.eraseIdx k, s.retired⟩

/-- The number of live tables that carry the alias. -/
def liveOf (s : CountState) (aliasName : Text) : ℕ :=
  s.live.countP fun table => table.instanceType == aliasName

/-- Every count is the number of live tables, and a version scheduled for deletion
is gone with its table when it has none. -/
structure CountsExact (s : CountState) : Prop where
  counts : ∀ m ∈ s.models, m.referenceCount = s.liveOf m.aliasName
  removed : ∀ r ∈ s.retired, s.liveOf r.aliasName = 0 →
    (∀ m ∈ s.models, m.address ≠ r.address) ∧ cStr r.aliasName ∉ s.store.database.tables

/-- What keeps the counts exact: no new version takes the alias of a live table;
the oldest version of a user's name is the current one, and its count does not
wrap; a table that completes has the alias as its id, and its version is not
scheduled for deletion; none fails. -/
def KeepsCounts (s : CountState) : CountEvent → Prop
  | .instancePacket packet rand _ => ∀ instanceid bodyData algoType,
      packet = ⟨some instanceid, some bodyData, some algoType⟩ →
        ∀ table ∈ s.live, table.instanceType ≠ newAlias instanceid rand
  | .userPacket packet => ∀ userPacket disk, packet = some (userPacket, disk) →
      ∀ oldest ∈ s.models, oldest.actualName = userPacket.instancetype →
        (∀ m ∈ s.models, m.actualName = userPacket.instancetype → oldest.address ≤ m.address) →
        oldest.scheduledToDelete = false ∧ oldest.referenceCount + 1 < 2 ^ 64
  | .completed k => ∀ table, s.live[k]? = some table → table.tableID = table.instanceType ∧
      ∃ m ∈ s.models, m.aliasName = table.instanceType ∧ m.scheduledToDelete = false
  | .failed _ => False

/-- While the counts are exact, each live table has its version in the list, no
two versions share an alias, and the retired versions are still there. -/
structure Accounted (s : CountState) : Prop where
  counts : ∀ m ∈ s.models, m.referenceCount = s.liveOf m.aliasName
  small : ∀ m ∈ s.models, m.referenceCount < 2 ^ 64
  inUse : ∀ m ∈ s.models, m.scheduledToDelete = true → s.liveOf m.aliasName ≠ 0
  bound : ∀ table ∈ s.live, ∃ m ∈ s.models, m.aliasName = table.instanceType
  unique : ∀ m ∈ s.models, ∀ n ∈ s.models, m.aliasName = n.aliasName → m = n
  retired : ∀ r ∈ s.retired, ∃ m ∈ s.models,
    m.address = r.address ∧ m.aliasName = r.aliasName ∧ m.scheduledToDelete = true

variable {rc : SqliteCalls} {s t : CountState}

theorem accounted_start (tables : Finset Text) : (start tables).Accounted :=
  ⟨nofun, nofun, nofun, nofun, nofun, nofun⟩

theorem Accounted.countsExact (h : s.Accounted) : s.CountsExact where
  counts := h.counts
  removed := by
    intro r hr hzero
    obtain ⟨m, hm, _, halias, hscheduled⟩ := h.retired r hr
    rw [← halias] at hzero
    exact absurd hzero (h.inUse m hm hscheduled)

theorem liveOf_ne_zero {table : TableData} (h : table ∈ s.live) :
    s.liveOf table.instanceType ≠ 0 := by
  rw [liveOf, Ne, List.countP_eq_zero]
  exact fun hnone => hnone table h (beq_self_eq_true _)

theorem liveOf_eq_zero {aliasName : Text} (h : ∀ table ∈ s.live, table.instanceType ≠ aliasName) :
    s.liveOf aliasName = 0 := by
  rw [liveOf, List.countP_eq_zero]
  intro table htable
  simpa using h table htable

theorem liveOf_append {table : TableData} (h : t.live = s.live ++ [table]) (aliasName : Text) :
    t.liveOf aliasName =
      s.liveOf aliasName + if table.instanceType = aliasName then 1 else 0 := by
  rw [liveOf, h, List.countP_append, List.countP_singleton]
  simp [liveOf]

theorem liveOf_eraseIdx {k : ℕ} {table : TableData} (hk : s.live[k]? = some table)
    (h : t.live = s.live.eraseIdx k) (aliasName : Text) :
    s.liveOf aliasName =
      t.liveOf aliasName + if table.instanceType = aliasName then 1 else 0 := by
  obtain ⟨hlt, hget⟩ := List.getElem?_eq_some_iff.mp hk
  have hperm := List.getElem_cons_eraseIdx_perm hlt
  rw [liveOf, ← hperm.countP_eq, List.countP_cons, hget, liveOf, h]
  simp

/-- A version whose alias comes up again is discarded before. -/
theorem Accounted.discarded (h : s.Accounted) {instanceName : Text} {rand : ℕ → ℕ}
    (hnew : ∀ table ∈ s.live, table.instanceType ≠ newAlias instanceName rand)
    {m : InstanceModel} (hm : m ∈ s.models) (halias : m.aliasName = newAlias instanceName rand) :
    m.Discarded instanceName := by
  obtain ⟨rand', hnamed⟩ := s.store.instanceList.named m hm
  have hzero : s.liveOf m.aliasName = 0 := liveOf_eq_zero fun table ht => halias ▸ hnew table ht
  refine ⟨newAlias_inj (hnamed.symm.trans halias), ?_, (h.counts m hm).trans hzero⟩
  by_contra hscheduled
  exact h.inUse m hm (by simpa using hscheduled) hzero

/-- No version that is kept has the new alias. -/
theorem Accounted.retire_alias_ne (h : s.Accounted) {instanceName : Text} {rand : ℕ → ℕ}
    (hnew : ∀ table ∈ s.live, table.instanceType ≠ newAlias instanceName rand)
    {old m : InstanceModel} (hold : old ∈ s.models) (hretire : old.retire instanceName = some m) :
    m.aliasName ≠ newAlias instanceName rand := by
  intro halias
  have hdiscarded := h.discarded hnew hold
    ((InstanceModel.retire_names hretire).2.2.1.symm.trans halias)
  rw [InstanceModel.retire_eq_none.mpr hdiscarded] at hretire
  cases hretire

theorem Accounted.unique_addInstance (h : s.Accounted) {instanceName : Text} {rand : ℕ → ℕ}
    (hnew : ∀ table ∈ s.live, table.instanceType ≠ newAlias instanceName rand)
    {m n : InstanceModel}
    (hm : m ∈ (s.store.instanceList.addInstance instanceName rand).instanceList)
    (hn : n ∈ (s.store.instanceList.addInstance instanceName rand).instanceList)
    (halias : m.aliasName = n.aliasName) : m = n := by
  rcases DataBaseInstanceList.mem_addInstance.mp hm with ⟨old, hold, hretire⟩ | rfl
  · rcases DataBaseInstanceList.mem_addInstance.mp hn with ⟨old', hold', hretire'⟩ | rfl
    · have hsame : old = old' := by
        apply h.unique old hold old' hold'
        rw [← (InstanceModel.retire_names hretire).2.2.1, halias,
          (InstanceModel.retire_names hretire').2.2.1]
      rw [hsame] at hretire
      exact Option.some.inj (hretire.symm.trans hretire')
    · exact absurd halias (h.retire_alias_ne hnew hold hretire)
  · rcases DataBaseInstanceList.mem_addInstance.mp hn with ⟨old', hold', hretire'⟩ | rfl
    · exact absurd halias.symm (h.retire_alias_ne hnew hold' hretire')
    · rfl

/-- The version of a live table is in use, so it is not discarded. -/
theorem Accounted.bound_addInstance (h : s.Accounted) (instanceName : Text) (rand : ℕ → ℕ)
    {table : TableData} (htable : table ∈ s.live) :
    ∃ m ∈ (s.store.instanceList.addInstance instanceName rand).instanceList,
      m.aliasName = table.instanceType := by
  obtain ⟨old, hold, halias⟩ := h.bound table htable
  cases hretire : old.retire instanceName with
  | none =>
    have hcount := (InstanceModel.retire_eq_none.mp hretire).2.2
    rw [h.counts old hold, halias] at hcount
    exact absurd hcount (liveOf_ne_zero htable)
  | some m =>
    exact ⟨m, DataBaseInstanceList.mem_addInstance.mpr (.inl ⟨old, hold, hretire⟩),
      (InstanceModel.retire_names hretire).2.2.1.trans halias⟩

theorem Accounted.retired_addInstance (h : s.Accounted) (instanceName : Text) (rand : ℕ → ℕ)
    {r : InstanceModel} (hr : r ∈ s.retired ++ newlyRetired s.models
      (s.store.instanceList.addInstance instanceName rand).instanceList) :
    ∃ m ∈ (s.store.instanceList.addInstance instanceName rand).instanceList,
      m.address = r.address ∧ m.aliasName = r.aliasName ∧ m.scheduledToDelete = true := by
  rcases List.mem_append.mp hr with hr | hr
  · obtain ⟨m, hm, haddress, halias, hscheduled⟩ := h.retired r hr
    have hkept : m.retire instanceName = some m :=
      InstanceModel.retire_of_not (by simp [hscheduled])
    exact ⟨m, DataBaseInstanceList.mem_addInstance.mpr (.inl ⟨m, hm, hkept⟩), haddress, halias,
      hscheduled⟩
  · obtain ⟨hr, hnewly⟩ := List.mem_filter.mp hr
    simp only [Bool.and_eq_true, List.any_eq_true, beq_iff_eq] at hnewly
    obtain ⟨_, n, hn, haddress, hscheduled⟩ := hnewly
    rcases DataBaseInstanceList.mem_addInstance.mp hn with ⟨old, hold, hretire⟩ | rfl
    · obtain ⟨haddress', _, halias, _⟩ := InstanceModel.retire_names hretire
      have hsame : old = r :=
        DataBaseInstanceList.eq_of_address_eq hold hr (haddress'.symm.trans haddress)
      exact ⟨n, hn, haddress, hsame ▸ halias, hscheduled⟩
    · cases hscheduled

/-- An instance packet whose new alias is not in use. -/
theorem Accounted.addInstance (h : s.Accounted) {instanceName : Text} {rand : ℕ → ℕ}
    {store : InstanceStore}
    (hlist : store.instanceList = s.store.instanceList.addInstance instanceName rand)
    (hnew : ∀ table ∈ s.live, table.instanceType ≠ newAlias instanceName rand) :
    Accounted ⟨store, s.live,
      s.retired ++ newlyRetired s.models store.instanceList.instanceList⟩ := by
  have hmem : ∀ m ∈ store.instanceList.instanceList,
      (∃ old ∈ s.models, old.retire instanceName = some m) ∨
        m = .new s.store.instanceList.allocated instanceName (newAlias instanceName rand) :=
    fun m hm => DataBaseInstanceList.mem_addInstance.mp (hlist ▸ hm)
  constructor
  · intro m hm
    rcases hmem m hm with ⟨old, hold, hretire⟩ | rfl
    · obtain ⟨_, _, halias, hcount⟩ := InstanceModel.retire_names hretire
      rw [hcount, halias]
      exact h.counts old hold
    · exact (liveOf_eq_zero hnew).symm
  · intro m hm
    rcases hmem m hm with ⟨old, hold, hretire⟩ | rfl
    · rw [(InstanceModel.retire_names hretire).2.2.2]
      exact h.small old hold
    · exact Nat.two_pow_pos 64
  · intro m hm hscheduled
    rcases hmem m hm with ⟨old, hold, hretire⟩ | rfl
    · rcases InstanceModel.retire_cases hretire with ⟨rfl, _⟩ | ⟨rfl, hcount⟩
      · exact h.inUse m hold hscheduled
      · rw [h.counts old hold] at hcount
        exact hcount
    · cases hscheduled
  · intro table htable
    simpa only [models, hlist] using h.bound_addInstance instanceName rand htable
  · intro m hm n hn halias
    exact h.unique_addInstance hnew (hlist ▸ hm) (hlist ▸ hn) halias
  · intro r hr
    rw [hlist] at hr
    simpa only [models, hlist] using h.retired_addInstance instanceName rand hr

/-- What no search changes. -/
theorem Accounted.unique_changeCount (h : s.Accounted) (p : InstanceModel → Bool)
    (count : ℕ → ℕ) {m n : InstanceModel}
    (hm : m ∈ (s.store.instanceList.changeCount p count).instanceList)
    (hn : n ∈ (s.store.instanceList.changeCount p count).instanceList)
    (halias : m.aliasName = n.aliasName) : m = n := by
  obtain ⟨old, hold, hmold⟩ := DataBaseInstanceList.exists_of_mem_changeCount hm
  obtain ⟨old', hold', hnold⟩ := DataBaseInstanceList.exists_of_mem_changeCount hn
  have hsame : old = old' := by
    apply h.unique old hold old' hold'
    rw [hmold, hnold] at halias
    exact halias
  apply DataBaseInstanceList.eq_of_address_eq hm hn
  rw [hmold, hnold, hsame]

theorem Accounted.retired_changeCount (h : s.Accounted) (p : InstanceModel → Bool)
    (count : ℕ → ℕ) {r : InstanceModel} (hr : r ∈ s.retired) :
    ∃ m ∈ (s.store.instanceList.changeCount p count).instanceList,
      m.address = r.address ∧ m.aliasName = r.aliasName ∧ m.scheduledToDelete = true := by
  obtain ⟨m, hm, haddress, halias, hscheduled⟩ := h.retired r hr
  obtain ⟨c, hc⟩ := DataBaseInstanceList.exists_mem_changeCount p count hm
  exact ⟨_, hc, haddress, halias, hscheduled⟩

theorem Accounted.bound_changeCount (h : s.Accounted) (p : InstanceModel → Bool)
    (count : ℕ → ℕ) {table : TableData} (htable : table ∈ s.live) :
    ∃ m ∈ (s.store.instanceList.changeCount p count).instanceList,
      m.aliasName = table.instanceType := by
  obtain ⟨m, hm, halias⟩ := h.bound table htable
  obtain ⟨c, hc⟩ := DataBaseInstanceList.exists_mem_changeCount p count hm
  exact ⟨_, hc, halias⟩

/-- The counts stay exact when the count of one version and the number of its live
tables change alike. -/
theorem Accounted.changeCount (h : s.Accounted) {p : InstanceModel → Bool} {count : ℕ → ℕ}
    {m : InstanceModel} (hfind : s.models.find? p = some m) (hcurrent : m.scheduledToDelete = false)
    {live : List TableData}
    (hbound : ∀ table ∈ live, table ∈ s.live ∨ table.instanceType = m.aliasName)
    (hcount : count m.referenceCount = (CountState.mk s.store live s.retired).liveOf m.aliasName)
    (hsmall : count m.referenceCount < 2 ^ 64)
    (hother : ∀ aliasName, aliasName ≠ m.aliasName →
      (CountState.mk s.store live s.retired).liveOf aliasName = s.liveOf aliasName) :
    Accounted ⟨s.withInstances (s.store.instanceList.changeCount p count), live, s.retired⟩ := by
  have hm := List.mem_of_find?_eq_some hfind
  have hmem : ∀ n ∈ (s.store.instanceList.changeCount p count).instanceList,
      n = m.withCount count ∨ (n ∈ s.models ∧ n.aliasName ≠ m.aliasName) := by
    intro n hn
    rw [DataBaseInstanceList.changeCount_of_some hfind] at hn
    obtain ⟨old, hold, rfl⟩ := List.mem_map.mp hn
    by_cases haddress : old.address = m.address
    · rw [if_pos haddress, DataBaseInstanceList.eq_of_address_eq hold hm haddress]
      exact .inl rfl
    · rw [if_neg haddress]
      exact .inr ⟨hold, fun halias => haddress (congrArg _ (h.unique old hold m hm halias))⟩
  constructor
  · intro n hn
    rcases hmem n hn with rfl | ⟨hold, hne⟩
    · exact hcount
    · exact (h.counts n hold).trans (hother _ hne).symm
  · intro n hn
    rcases hmem n hn with rfl | ⟨hold, _⟩
    · exact hsmall
    · exact h.small n hold
  · intro n hn hscheduled
    rcases hmem n hn with rfl | ⟨hold, hne⟩
    · exact absurd (hscheduled.symm.trans hcurrent) (by decide)
    · exact (hother _ hne).symm ▸ h.inUse n hold hscheduled
  · intro table htable
    rcases hbound table htable with hold | halias
    · exact h.bound_changeCount p count hold
    · obtain ⟨c, hc⟩ := DataBaseInstanceList.exists_mem_changeCount p count hm
      exact ⟨_, hc, halias.symm⟩
  · intro n hn n' hn' halias
    exact h.unique_changeCount p count hn hn' halias
  · intro r hr
    exact h.retired_changeCount p count hr

/-- A user packet of a name without a version changes nothing. One of another name
adds a table with the alias of the oldest version. -/
theorem userPacket_cases {packet : UserDataPacket} {disk : Disk}
    (ht : countStep rc s (.userPacket (some (packet, disk))) = some t) :
    ((∀ m ∈ s.models, m.actualName ≠ packet.instancetype) ∧ t = s) ∨
      ∃ oldest ∈ s.models, oldest.actualName = packet.instancetype ∧
        (∀ m ∈ s.models, m.actualName = packet.instancetype → oldest.address ≤ m.address) ∧
        ∃ table : TableData, table.instanceType = oldest.aliasName ∧
          t = ⟨s.withInstances (s.store.instanceList.incrimentRefrence packet.instancetype),
            s.live ++ [table], s.retired⟩ := by
  simp only [countStep, DataBaseInstanceList.processDataPacket] at ht
  cases hresult : UserDataParser.processDataPacket
      (s.store.instanceList.incrimentRefrence packet.instancetype).getInstanceAliasName disk
      packet with
  | none => simp [hresult] at ht
  | some result =>
    obtain ⟨status, table, disk'⟩ := result
    simp only [hresult, Option.some.injEq] at ht
    by_cases hname : ∃ m ∈ s.models, m.actualName = packet.instancetype
    · obtain ⟨oldest, holdest, hactual, hle, hread⟩ := DataBaseInstanceList.exists_oldest hname
      obtain ⟨rand, halias⟩ := s.store.instanceList.named oldest holdest
      refine .inr ⟨oldest, holdest, hactual, hle, ?_⟩
      rcases UserDataParser.processDataPacket_cases hresult with ⟨hempty, _⟩ | ⟨_, hknown⟩
      · rw [DataBaseInstanceList.incrimentRefrence, hread, halias] at hempty
        simp [newAlias] at hempty
      · obtain ⟨tableData, rfl, _, htype⟩ := hknown
        rw [DataBaseInstanceList.incrimentRefrence, hread] at htype
        exact ⟨tableData, htype, ht.symm⟩
    · have hnone : ∀ m ∈ s.models, m.actualName ≠ packet.instancetype :=
        fun m hm hactual => hname ⟨m, hm, hactual⟩
      have hsame : s.store.instanceList.incrimentRefrence packet.instancetype =
          s.store.instanceList := by
        refine DataBaseInstanceList.changeCount_of_none (List.find?_eq_none.mpr ?_)
        intro m hm
        simp [DataBaseInstanceList.isCurrent, hnone m hm]
      have hunknown : s.store.instanceList.getInstanceAliasName packet.instancetype = [] := by
        rw [DataBaseInstanceList.getInstanceAliasName, List.find?_eq_none.mpr]
        · rfl
        · intro m hm
          simp [hnone m hm]
      rw [hsame] at hresult ht
      rcases UserDataParser.processDataPacket_cases hresult with ⟨_, rfl⟩ | ⟨hknown, _⟩
      · refine .inl ⟨hnone, ht.symm.trans ?_⟩
        simp [withInstances]
      · exact absurd hunknown hknown

/-- The oldest version, when it is current, is the one that a user's packet counts
for. -/
theorem find_oldest {instanceName : Text} {oldest : InstanceModel} (holdest : oldest ∈ s.models)
    (hactual : oldest.actualName = instanceName)
    (hle : ∀ m ∈ s.models, m.actualName = instanceName → oldest.address ≤ m.address)
    (hcurrent : oldest.scheduledToDelete = false) :
    s.models.find? (DataBaseInstanceList.isCurrent instanceName) = some oldest := by
  have htest : DataBaseInstanceList.isCurrent instanceName oldest = true := by
    simp [DataBaseInstanceList.isCurrent, hactual, hcurrent]
  obtain ⟨c, hc⟩ := Option.isSome_iff_exists.mp (List.find?_isSome.mpr ⟨oldest, holdest, htest⟩)
  have hcmem := List.mem_of_find?_eq_some hc
  have hcname : c.actualName = instanceName := by
    have hfound := List.find?_some hc
    simp only [DataBaseInstanceList.isCurrent, Bool.and_eq_true, beq_iff_eq] at hfound
    exact hfound.1
  rw [hc, DataBaseInstanceList.eq_of_address_eq hcmem holdest
    (le_antisymm (DataBaseInstanceList.le_of_find? hc holdest htest) (hle c hcmem hcname))]

theorem Accounted.find_alias (h : s.Accounted) {m : InstanceModel} (hm : m ∈ s.models)
    (hcurrent : m.scheduledToDelete = false) :
    s.models.find? (fun n => n.aliasName == m.aliasName && !n.scheduledToDelete) = some m := by
  have hsome : (s.models.find? fun n =>
      n.aliasName == m.aliasName && !n.scheduledToDelete).isSome := by
    rw [List.find?_isSome]
    exact ⟨m, hm, by simp [hcurrent]⟩
  obtain ⟨c, hc⟩ := Option.isSome_iff_exists.mp hsome
  have hcalias : c.aliasName = m.aliasName := by
    have hfound := List.find?_some hc
    simp only [Bool.and_eq_true, beq_iff_eq] at hfound
    exact hfound.1
  rw [hc, h.unique c (List.mem_of_find?_eq_some hc) m hm hcalias]

theorem Accounted.userPacket (h : s.Accounted) {packet : UserDataPacket} {disk : Disk}
    (hG : s.KeepsCounts (.userPacket (some (packet, disk))))
    (ht : countStep rc s (.userPacket (some (packet, disk))) = some t) : t.Accounted := by
  rcases userPacket_cases ht with ⟨_, rfl⟩ | ⟨oldest, holdest, hactual, hle, table, halias, rfl⟩
  · exact h
  · obtain ⟨hcurrent, hsmall⟩ := hG packet disk rfl oldest holdest hactual hle
    have hlive : ∀ aliasName, (CountState.mk s.store (s.live ++ [table]) s.retired).liveOf
        aliasName = s.liveOf aliasName + if table.instanceType = aliasName then 1 else 0 :=
      liveOf_append rfl
    refine h.changeCount (find_oldest holdest hactual hle hcurrent) hcurrent ?_ ?_ ?_ ?_
    · intro table' htable
      rcases List.mem_append.mp htable with hold | hnew
      · exact .inl hold
      · exact .inr (List.mem_singleton.mp hnew ▸ halias)
    · rw [hlive, if_pos halias, Nat.mod_eq_of_lt hsmall, h.counts oldest holdest]
    · exact Nat.mod_lt _ (Nat.two_pow_pos 64)
    · intro aliasName hne
      rw [hlive, if_neg (halias ▸ hne.symm), Nat.add_zero]

theorem Accounted.completed (h : s.Accounted) {k : ℕ} (hG : s.KeepsCounts (.completed k))
    (ht : countStep rc s (.completed k) = some t) : t.Accounted := by
  cases hk : s.live[k]? with
  | none => simp [countStep, hk] at ht
  | some table =>
    simp only [countStep, hk, Option.some.injEq] at ht
    obtain ⟨hid, m, hm, halias, hcurrent⟩ := hG table hk
    have hlive : ∀ aliasName, s.liveOf aliasName =
        (CountState.mk s.store (s.live.eraseIdx k) s.retired).liveOf aliasName +
          if table.instanceType = aliasName then 1 else 0 := liveOf_eraseIdx hk rfl
    have hcount := h.counts m hm
    rw [hlive, if_pos halias.symm] at hcount
    have hsmall := h.small m hm
    have hless : (m.referenceCount + (2 ^ 64 - 1)) % 2 ^ 64 = m.referenceCount - 1 := by
      omega
    rw [← ht, hid, ← halias]
    refine h.changeCount (h.find_alias hm hcurrent) hcurrent ?_ ?_ ?_ ?_
    · exact fun table' htable => .inl ((List.eraseIdx_sublist ..).subset htable)
    · rw [hless, hcount, Nat.add_sub_cancel]
    · exact Nat.mod_lt _ (Nat.two_pow_pos 64)
    · intro aliasName hne
      rw [hlive, if_neg (halias ▸ hne.symm), Nat.add_zero]

/-- A packet that changes no list retires no version. -/
theorem newlyRetired_self (s : CountState) : newlyRetired s.models s.models = [] := by
  rw [newlyRetired, List.filter_eq_nil_iff]
  intro m hm hnewly
  simp only [Bool.and_eq_true, List.any_eq_true, beq_iff_eq, Bool.not_eq_true'] at hnewly
  obtain ⟨hcurrent, n, hn, haddress, hscheduled⟩ := hnewly
  rw [DataBaseInstanceList.eq_of_address_eq hn hm haddress, hcurrent] at hscheduled
  cases hscheduled

/-- A packet with all its fields adds a version, and another changes nothing. -/
theorem instancePacket_cases {packet : InstanceDataPacket} {rand : ℕ → ℕ} {before : Char}
    (ht : countStep rc s (.instancePacket packet rand before) = some t) :
    (t = s ∧ ¬ ∃ instanceid bodyData algoType,
        packet = ⟨some instanceid, some bodyData, some algoType⟩) ∨
      ∃ instanceid bodyData algoType store,
        packet = ⟨some instanceid, some bodyData, some algoType⟩ ∧
        store.instanceList = s.store.instanceList.addInstance instanceid rand ∧
        t = ⟨store, s.live,
          s.retired ++ newlyRetired s.models store.instanceList.instanceList⟩ := by
  simp only [countStep] at ht
  cases hresult : InstanceDataParser.processInstancePacket rc rand before s.store packet [] with
  | none => simp [hresult] at ht
  | some result =>
    obtain ⟨status, tableId, store⟩ := result
    simp only [hresult, Option.some.injEq] at ht
    by_cases hfields : ∃ instanceid bodyData algoType,
        packet = ⟨some instanceid, some bodyData, some algoType⟩
    · obtain ⟨instanceid, bodyData, algoType, rfl⟩ := hfields
      obtain ⟨_, _, _, _, _, _, _, _, _, hlist, _⟩ :=
        InstanceDataParser.processInstancePacket_eq_some hresult
      exact .inr ⟨instanceid, bodyData, algoType, store, rfl, hlist, ht.symm⟩
    · rw [InstanceDataParser.processInstancePacket_of_missing hfields] at hresult
      cases hresult
      rw [newlyRetired_self, List.append_nil] at ht
      exact .inl ⟨ht.symm, hfields⟩

theorem Accounted.instancePacket (h : s.Accounted) {packet : InstanceDataPacket} {rand : ℕ → ℕ}
    {before : Char} (hG : s.KeepsCounts (.instancePacket packet rand before))
    (ht : countStep rc s (.instancePacket packet rand before) = some t) : t.Accounted := by
  rcases instancePacket_cases ht with
    ⟨rfl, _⟩ | ⟨instanceid, bodyData, algoType, store, rfl, hlist, rfl⟩
  · exact h
  · exact h.addInstance hlist (hG instanceid bodyData algoType rfl)

/-- A user packet for a retired version, or for a count that wraps, spoils a count. -/
theorem Accounted.keepsCounts_userPacket (h : s.Accounted)
    {userPacket : Option (UserDataPacket × Disk)}
    (ht : countStep rc s (.userPacket userPacket) = some t) (hexact : t.CountsExact) :
    s.KeepsCounts (.userPacket userPacket) := by
  rintro packet disk rfl oldest holdest hactual hle
  rcases userPacket_cases ht with ⟨hnone, _⟩ | ⟨found, hfound, hname, hfirst, table, halias, rfl⟩
  · exact absurd hactual (hnone oldest holdest)
  · have hsame : found = oldest := DataBaseInstanceList.eq_of_address_eq hfound holdest
      (le_antisymm (hfirst oldest holdest hactual) (hle found hfound hname))
    rw [hsame] at halias
    have hlive := liveOf_append (s := s) (t := ⟨s.store, s.live ++ [table], s.retired⟩) rfl
      oldest.aliasName
    rw [if_pos halias, ← h.counts oldest holdest] at hlive
    by_cases hcurrent : oldest.scheduledToDelete = false
    · refine ⟨hcurrent, ?_⟩
      have hcount := hexact.counts (oldest.withCount fun count => (count + 1) % 2 ^ 64) <| by
        change _ ∈ (s.store.instanceList.changeCount _ _).instanceList
        rw [DataBaseInstanceList.changeCount_of_some
          (find_oldest holdest hactual hle hcurrent)]
        exact List.mem_map.mpr ⟨oldest, holdest, if_pos rfl⟩
      have hwrapped : (oldest.referenceCount + 1) % 2 ^ 64 = oldest.referenceCount + 1 :=
        hcount.trans hlive
      rw [← hwrapped]
      exact Nat.mod_lt _ (Nat.two_pow_pos 64)
    · have hcount := hexact.counts oldest (DataBaseInstanceList.mem_changeCount_of_not _ holdest
        (by simp [DataBaseInstanceList.isCurrent, hcurrent]))
      exact absurd (hcount.trans hlive) (Nat.succ_ne_self _).symm

/-- A table that completes must count for the version that is dereferenced. -/
theorem Accounted.keepsCounts_completed (h : s.Accounted) {k : ℕ}
    (ht : countStep rc s (.completed k) = some t) (hexact : t.CountsExact) :
    s.KeepsCounts (.completed k) := by
  intro table hk
  simp only [countStep, hk, Option.some.injEq] at ht
  obtain ⟨m, hm, halias⟩ := h.bound table (List.mem_of_getElem? hk)
  have hlive := liveOf_eraseIdx (t := ⟨s.store, s.live.eraseIdx k, s.retired⟩) hk rfl m.aliasName
  rw [if_pos halias.symm, ← h.counts m hm] at hlive
  by_cases htest : (m.aliasName == table.tableID && !m.scheduledToDelete) = true
  · simp only [Bool.and_eq_true, beq_iff_eq, Bool.not_eq_true'] at htest
    exact ⟨htest.1.symm.trans halias, m, hm, halias, htest.2⟩
  · subst ht
    have hcount := hexact.counts m (DataBaseInstanceList.mem_changeCount_of_not _ hm htest)
    exact absurd (hlive.symm.trans hcount) (Nat.succ_ne_self _)

/-- A step that keeps the counts exact met the condition. -/
theorem Accounted.keepsCounts (h : s.Accounted) {e : CountEvent} (ht : countStep rc s e = some t)
    (hexact : t.CountsExact) : s.KeepsCounts e := by
  cases e with
  | instancePacket packet rand before =>
    rintro instanceid bodyData algoType rfl table htable halias
    rcases instancePacket_cases ht with ⟨_, hmissing⟩ | ⟨_, _, _, store, heq, hlist, rfl⟩
    · exact hmissing ⟨_, _, _, rfl⟩
    · cases heq
      have hnew := hexact.counts _ (hlist ▸ DataBaseInstanceList.mem_addInstance.mpr (.inr rfl))
      apply liveOf_ne_zero (s := s) htable
      rw [halias]
      exact hnew.symm
  | userPacket userPacket => exact h.keepsCounts_userPacket ht hexact
  | completed k => exact h.keepsCounts_completed ht hexact
  | failed k =>
    cases hk : s.live[k]? with
    | none => simp [countStep, hk] at ht
    | some table =>
      simp only [countStep, hk, Option.some.injEq] at ht
      obtain ⟨m, hm, halias⟩ := h.bound table (List.mem_of_getElem? hk)
      have hlive := liveOf_eraseIdx (t := t) hk (by rw [← ht]) m.aliasName
      subst ht
      rw [if_pos halias.symm, ← h.counts m hm, hexact.counts m hm] at hlive
      exact absurd hlive (Nat.succ_ne_self _).symm

/-- One step keeps the counts exact when it meets the condition, and only then. -/
theorem Accounted.step (h : s.Accounted) (e : CountEvent) (ht : countStep rc s e = some t) :
    (t.CountsExact ↔ s.KeepsCounts e) ∧ (s.KeepsCounts e → t.Accounted) := by
  have hkeep : s.KeepsCounts e → t.Accounted := by
    intro hG
    cases e with
    | instancePacket packet rand before => exact h.instancePacket hG ht
    | userPacket packet =>
      match packet with
      | none =>
        cases ht
        exact h
      | some (packet, disk) => exact h.userPacket hG ht
    | completed k => exact h.completed hG ht
    | failed k => exact hG.elim
  exact step_iff_of_kept (fun ht => ht.countsExact) (h.keepsCounts ht) hkeep

/-- The counts are exact in every state of a run if and only if every event of the
run met the condition. -/
theorem countsExact_iff (rc : SqliteCalls) (tables : Finset Text) {events : List CountEvent}
    {s : CountState} (h : exec (countStep rc) (start tables) events = some s) :
    Always (countStep rc) CountsExact (start tables) events ↔
      Guarded (countStep rc) KeepsCounts (start tables) events :=
  always_iff_guarded (fun _ hs => hs.countsExact) (fun _ e _ hs => hs.step e)
    (accounted_start tables) h

/-- The packet of an instance named a. -/
def firstInstance : CountEvent :=
  .instancePacket ⟨some ['a'], some "x\n".toList, some 0⟩ (fun _ => 0) '\x00'

/-- The packet of a user table of that instance. -/
def userOf (tableid : Text) : CountEvent :=
  .userPacket (some (⟨tableid, "x\n1\n".toList, ['a'], .lowPriority⟩, fun _ => none))

theorem countsExact_userTable :
    ∃ s, exec (countStep (.plain fun _ => true)) (start ∅) [firstInstance, userOf ['t']] = some s ∧
      Always (countStep (.plain fun _ => true)) CountsExact (start ∅)
        [firstInstance, userOf ['t']] := by
  obtain ⟨s, hs⟩ : ∃ s, exec (countStep (.plain fun _ => true)) (start ∅)
      [firstInstance, userOf ['t']] = some s := ⟨_, rfl⟩
  refine ⟨s, hs, (countsExact_iff _ ∅ hs).mpr ⟨fun _ _ _ _ => nofun, fun t ht => ⟨?_, ?_⟩⟩⟩
  · have hmodels : t.models = [⟨0, ['a'], "a_aaaaa".toList, false, 0⟩] := by
      cases ht
      decide
    rintro _ _ _ oldest holdest _ _
    rw [hmodels, List.mem_singleton] at holdest
    rw [holdest]
    decide
  · exact fun _ _ => trivial

/-- A table that completes is still counted. -/
theorem not_countsExact_completed :
    ∃ s, exec (countStep (.plain fun _ => true)) (start ∅)
        [firstInstance, userOf ['t'], .completed 0] = some s ∧
      ¬ s.CountsExact := by
  refine ⟨_, rfl, fun hexact => ?_⟩
  have hcount := hexact.counts ⟨0, ['a'], "a_aaaaa".toList, false, 1⟩ (by decide)
  revert hcount
  decide

end CountState

end WorkerUnit
