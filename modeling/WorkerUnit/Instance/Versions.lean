import WorkerUnit.Library.StepSystem
import WorkerUnit.Instance.DataBaseInstanceList
import WorkerUnit.Receiver.UserDataParser

/-!
# The version a user table is bound to

`processDataPacket` raises the count of the version that is not scheduled for
deletion and then reads the alias of the first version of the name. The two are
different versions while an older one is still referred to.
-/

namespace WorkerUnit

open StepSystem

/-- The count is raised before the alias is read. -/
def DataBaseInstanceList.processDataPacket (d : DataBaseInstanceList) (disk : Disk)
    (packet : UserDataPacket) :
    DataBaseInstanceList × Option (ReceiverStatus × Option TableData × Disk) :=
  let d := d.incrimentRefrence packet.instancetype
  (d, UserDataParser.processDataPacket d.getInstanceAliasName disk packet)

/-- `lastAdded` is the version of each name that was added last. -/
structure VersionRun where
  instances : DataBaseInstanceList
  lastAdded : Text → Option ℕ

inductive VersionEvent where
  | addInstance (instanceName : Text) (rand : ℕ → ℕ)
  | incrimentRefrence (instanceName : Text)
  | dereferenceInstance (aliasName : Text)

namespace VersionRun

def start : VersionRun := ⟨.init, fun _ => none⟩

def versionStep (s : VersionRun) : VersionEvent → Option VersionRun
  | .addInstance instanceName rand => some
      ⟨s.instances.addInstance instanceName rand,
        Function.update s.lastAdded instanceName (some s.instances.allocated)⟩
  | .incrimentRefrence instanceName =>
    some { s with instances := s.instances.incrimentRefrence instanceName }
  | .dereferenceInstance aliasName =>
    some { s with instances := s.instances.dereferenceInstance aliasName }

/-- A table of the instance gets the alias of the version whose count is raised
for it, which is the last one added and not scheduled for deletion. -/
def TableBound (s : VersionRun) (instanceName : Text) : Prop :=
  ∃ m ∈ s.instances.instanceList, m.actualName = instanceName ∧
    s.lastAdded instanceName = some m.address ∧ m.scheduledToDelete = false ∧
    ∀ disk packet, packet.instancetype = instanceName →
      (s.instances.processDataPacket disk packet).1.instanceList =
        s.instances.instanceList.map (fun x =>
          if x.address = m.address then x.withCount (fun count => (count + 1) % 2 ^ 64) else x) ∧
      ∀ tableData disk', (s.instances.processDataPacket disk packet).2 =
        some (.success, some tableData, disk') → tableData.instanceType = m.aliasName

/-- The oldest version of the name is scheduled for deletion, and its alias is
not the one of the current version. -/
def Shadowed (s : VersionRun) (instanceName : Text) : Prop :=
  ∃ oldest ∈ s.instances.instanceList, ∃ current ∈ s.instances.instanceList,
    oldest.actualName = instanceName ∧ oldest.scheduledToDelete = true ∧
    (∀ m ∈ s.instances.instanceList, m.actualName = instanceName → oldest.address ≤ m.address) ∧
    current.actualName = instanceName ∧ current.scheduledToDelete = false ∧
    oldest.aliasName ≠ current.aliasName

/-- Every name in the list has a version that is not scheduled for deletion, and
such a version is the last one added. -/
structure Tracked (s : VersionRun) : Prop where
  last : ∀ m ∈ s.instances.instanceList, m.scheduledToDelete = false →
    s.lastAdded m.actualName = some m.address
  current : ∀ m ∈ s.instances.instanceList, ∃ c ∈ s.instances.instanceList,
    c.actualName = m.actualName ∧ c.scheduledToDelete = false

variable {s t : VersionRun} {instanceName : Text}

theorem tracked_start : start.Tracked := ⟨nofun, nofun⟩

theorem Tracked.addInstance (h : s.Tracked) (instanceName : Text) (rand : ℕ → ℕ) :
    Tracked ⟨s.instances.addInstance instanceName rand,
      Function.update s.lastAdded instanceName (some s.instances.allocated)⟩ where
  last := by
    intro m hm hcurrent
    rcases DataBaseInstanceList.mem_addInstance.mp hm with ⟨old, hold, hretire⟩ | rfl
    · rcases InstanceModel.retire_cases hretire with ⟨rfl, hkept⟩ | ⟨rfl, _⟩
      · have hname : m.actualName ≠ instanceName := fun hname => hkept ⟨hname, hcurrent⟩
        exact (Function.update_of_ne hname ..).trans (h.last m hold hcurrent)
      · cases hcurrent
    · exact Function.update_self ..
  current := by
    intro m hm
    by_cases hname : m.actualName = instanceName
    · exact ⟨_, DataBaseInstanceList.mem_addInstance.mpr (.inr rfl), hname.symm, rfl⟩
    · rcases DataBaseInstanceList.mem_addInstance.mp hm with ⟨old, hold, hretire⟩ | rfl
      · obtain ⟨c, hc, hcname, hcurrent⟩ := h.current old hold
        rw [← (InstanceModel.retire_names hretire).2.1] at hcname
        have hkept : c.retire instanceName = some c :=
          InstanceModel.retire_of_not fun hc => hname (hcname ▸ hc.1)
        exact ⟨c, DataBaseInstanceList.mem_addInstance.mpr (.inl ⟨c, hc, hkept⟩), hcname, hcurrent⟩
      · exact absurd rfl hname

theorem Tracked.changeCount (h : s.Tracked) (p : InstanceModel → Bool) (count : ℕ → ℕ) :
    Tracked ⟨s.instances.changeCount p count, s.lastAdded⟩ where
  last := by
    intro m hm hcurrent
    obtain ⟨old, hold, heq⟩ := DataBaseInstanceList.exists_of_mem_changeCount hm
    rw [heq] at hcurrent ⊢
    exact h.last old hold hcurrent
  current := by
    intro m hm
    obtain ⟨old, hold, heq⟩ := DataBaseInstanceList.exists_of_mem_changeCount hm
    obtain ⟨c, hc, hname, hcurrent⟩ := h.current old hold
    obtain ⟨n, hn⟩ := DataBaseInstanceList.exists_mem_changeCount p count hc
    refine ⟨_, hn, ?_, hcurrent⟩
    rw [heq]
    exact hname

theorem Tracked.step (e : VersionEvent) (h : s.Tracked) (ht : versionStep s e = some t) :
    t.Tracked := by
  cases e with
  | addInstance instanceName rand =>
    obtain rfl := Option.some.inj ht
    exact h.addInstance instanceName rand
  | incrimentRefrence instanceName =>
    obtain rfl := Option.some.inj ht
    exact h.changeCount _ _
  | dereferenceInstance aliasName =>
    obtain rfl := Option.some.inj ht
    exact h.changeCount _ _

/-- The version whose count is raised is the last one added. -/
theorem Tracked.find_current (h : s.Tracked)
    (hname : ∃ m ∈ s.instances.instanceList, m.actualName = instanceName) :
    ∃ m, s.instances.instanceList.find? (DataBaseInstanceList.isCurrent instanceName) = some m ∧
      m ∈ s.instances.instanceList ∧ m.actualName = instanceName ∧ m.scheduledToDelete = false ∧
      s.lastAdded instanceName = some m.address := by
  obtain ⟨old, hold, rfl⟩ := hname
  obtain ⟨c, hc, hcname, hcurrent⟩ := h.current old hold
  have hsome : (s.instances.instanceList.find?
      (DataBaseInstanceList.isCurrent old.actualName)).isSome := by
    rw [List.find?_isSome]
    exact ⟨c, hc, by simp [DataBaseInstanceList.isCurrent, hcname, hcurrent]⟩
  obtain ⟨m, hm⟩ := Option.isSome_iff_exists.mp hsome
  have htest := List.find?_some hm
  simp only [DataBaseInstanceList.isCurrent, Bool.and_eq_true, beq_iff_eq,
    Bool.not_eq_true'] at htest
  have hmem := List.mem_of_find?_eq_some hm
  exact ⟨m, hm, hmem, htest.1, htest.2, htest.1 ▸ h.last m hmem htest.2⟩

theorem tableBound_of_alias_eq (h : s.Tracked)
    (hname : ∃ m ∈ s.instances.instanceList, m.actualName = instanceName)
    (halias : ∀ m ∈ s.instances.instanceList, m.actualName = instanceName →
      m.scheduledToDelete = false →
      (s.instances.incrimentRefrence instanceName).getInstanceAliasName instanceName =
        m.aliasName) : s.TableBound instanceName := by
  obtain ⟨m, hfind, hm, hmname, hcurrent, hlast⟩ := h.find_current hname
  refine ⟨m, hm, hmname, hlast, hcurrent, ?_⟩
  rintro disk packet rfl
  refine ⟨DataBaseInstanceList.changeCount_of_some hfind, fun tableData disk' hresult => ?_⟩
  rw [UserDataParser.processDataPacket_instanceType hresult]
  exact halias m hm hmname hcurrent

/-- The alias a table is given is the one that is read after the count is raised. -/
theorem TableBound.alias_eq (h : s.Tracked) (hbound : s.TableBound instanceName)
    {m : InstanceModel} (hm : m ∈ s.instances.instanceList) (hmname : m.actualName = instanceName)
    (hcurrent : m.scheduledToDelete = false)
    (hknown : (s.instances.incrimentRefrence instanceName).getInstanceAliasName instanceName ≠ []) :
    (s.instances.incrimentRefrence instanceName).getInstanceAliasName instanceName =
      m.aliasName := by
  obtain ⟨n, hn, hnname, hlast, _, htable⟩ := hbound
  have hsame : n = m := by
    refine DataBaseInstanceList.eq_of_address_eq hn hm (Option.some.inj ?_)
    rw [← hlast, ← h.last m hm hcurrent, hmname]
  let packet : UserDataPacket := ⟨[], ['a'], instanceName, .lowPriority⟩
  have hlines : splitStringByNewline packet.data ≠ [] := by
    change splitStringByNewline ['a'] ≠ []
    decide
  obtain ⟨tableData, disk', hresult⟩ :=
    UserDataParser.processDataPacket_accepts (fun _ => none) hknown hlines
  rw [← hsame, ← (htable (fun _ => none) packet rfl).2 tableData disk' hresult,
    UserDataParser.processDataPacket_instanceType hresult]

/-- After any history, a table of an instance that has a version is bound to the
current one exactly when the oldest version of the name is not a retired one with
another alias. -/
theorem tableBound_iff {events : List VersionEvent} (h : exec versionStep start events = some s)
    (hname : ∃ m ∈ s.instances.instanceList, m.actualName = instanceName) :
    s.TableBound instanceName ↔ ¬ s.Shadowed instanceName := by
  have htracked : s.Tracked := exec_invariant (fun _ e _ hs => hs.step e) tracked_start h
  obtain ⟨oldest, holdest, holdname, hle, hread⟩ :=
    DataBaseInstanceList.exists_oldest hname
  constructor
  · rintro hbound ⟨shadow, hshadow, m, hm, hshadowName, _, hfirst, hmname, hcurrent, hne⟩
    have hsame : shadow = oldest := DataBaseInstanceList.eq_of_address_eq hshadow holdest
      (le_antisymm (hfirst oldest holdest holdname) (hle shadow hshadow hshadowName))
    obtain ⟨rand, halias⟩ := s.instances.named oldest holdest
    have hknown : oldest.aliasName ≠ [] := by simp [halias, newAlias]
    apply hne
    have halias := hbound.alias_eq htracked hm hmname hcurrent
    rw [DataBaseInstanceList.incrimentRefrence, hread] at halias
    rw [hsame]
    exact halias hknown
  · intro hshadowed
    apply tableBound_of_alias_eq htracked hname
    intro m hm hmname hcurrent
    rw [DataBaseInstanceList.incrimentRefrence, hread]
    by_contra hne
    cases hretired : oldest.scheduledToDelete with
    | true =>
      exact hshadowed ⟨oldest, holdest, m, hm, holdname, hretired, hle, hmname, hcurrent, hne⟩
    | false =>
      have hlast := htracked.last oldest holdest hretired
      rw [holdname, ← hmname, htracked.last m hm hcurrent] at hlast
      exact hne (congrArg _ (DataBaseInstanceList.eq_of_address_eq holdest hm
        (Option.some.inj hlast).symm))

/-- A first version that a user has referred to and let go, and a second one. -/
def replacedUnused : List VersionEvent :=
  [.addInstance "a".toList fun _ => 0, .incrimentRefrence "a".toList,
    .dereferenceInstance "a_aaaaa".toList, .addInstance "a".toList fun _ => 1]

theorem tableBound_replacedUnused :
    ∃ s, exec versionStep start replacedUnused = some s ∧ s.TableBound "a".toList := by
  obtain ⟨s, hs, hlist⟩ : ∃ s, exec versionStep start replacedUnused = some s ∧
      s.instances.instanceList = [⟨1, "a".toList, "a_bbbbb".toList, false, 0⟩] :=
    ⟨_, rfl, by decide⟩
  refine ⟨s, hs, (tableBound_iff hs ?_).mpr ?_⟩
  · rw [hlist]
    exact ⟨_, List.mem_cons_self, rfl⟩
  · rintro ⟨oldest, holdest, _, _, _, hretired, _⟩
    rw [hlist, List.mem_singleton] at holdest
    rw [holdest] at hretired
    cases hretired

/-- The history of a first version that a user refers to and a second one. -/
def replacedInUse : List VersionEvent :=
  [.addInstance "a".toList fun _ => 0, .incrimentRefrence "a".toList,
    .addInstance "a".toList fun _ => 1]

theorem not_tableBound_replacedInUse :
    ∃ s, exec versionStep start replacedInUse = some s ∧
      (∃ m ∈ s.instances.instanceList, m.actualName = "a".toList) ∧ ¬ s.TableBound "a".toList := by
  refine ⟨_, rfl, ⟨_, List.mem_cons_self, rfl⟩, fun hbound => ?_⟩
  have htracked := exec_invariant (fun _ e _ hs => hs.step e) tracked_start
    (show exec versionStep start replacedInUse = some _ from rfl)
  have halias := hbound.alias_eq htracked (m := ⟨1, "a".toList, "a_bbbbb".toList, false, 0⟩)
    (by decide) rfl rfl (by decide)
  revert halias
  decide

end VersionRun

end WorkerUnit
