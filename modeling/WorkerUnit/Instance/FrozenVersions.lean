import WorkerUnit.Instance.Versions

/-!
# The version that the tables of a name get

The versions of one name against an automaton that remembers two of them: the first one
that was replaced while it was in use, and the latest one. The list never lets go of the
first, and every later table of the name gets its alias.
-/

namespace WorkerUnit

open StepSystem FirstMatch

/-- The alias of the first version of a name that was replaced in use, and the alias and
the count of the latest version. -/
structure NameVersions where
  replaced : Option Text
  latest : Option (Text × ℕ)
  deriving DecidableEq

namespace NameVersions

def start : NameVersions := ⟨none, none⟩

/-- A new version. -/
def replace (v : NameVersions) (aliasName : Text) : NameVersions :=
  ⟨v.replaced.or ((v.latest.filter fun latest => latest.2 ≠ 0).map Prod.fst),
    some (aliasName, 0)⟩

def changeCount (v : NameVersions) (count : ℕ → ℕ) : NameVersions :=
  { v with latest := v.latest.map (Prod.map id count) }

/-- What an event means for the name. -/
def next (name : Text) (v : NameVersions) : VersionEvent → NameVersions
  | .addInstance instanceName rand =>
    if instanceName = name then v.replace (newAlias instanceName rand) else v
  | .incrimentRefrence instanceName =>
    if instanceName = name then v.changeCount fun count => (count + 1) % 2 ^ 64 else v
  | .dereferenceInstance aliasName =>
    if v.latest.map Prod.fst = some aliasName then
      v.changeCount fun count => (count + (2 ^ 64 - 1)) % 2 ^ 64
    else v

def after (name : Text) (events : List VersionEvent) : NameVersions :=
  events.foldl (next name) start

/-- The alias that a table of the name gets. -/
def bound (v : NameVersions) : Text := (v.replaced.or (v.latest.map Prod.fst)).getD []

theorem replaced_next {name aliasName : Text} {v : NameVersions} (h : v.replaced = some aliasName)
    (e : VersionEvent) : (v.next name e).replaced = some aliasName := by
  cases e with
  | addInstance instanceName rand =>
    simp only [next]
    split_ifs
    · simp [replace, h]
    · exact h
  | incrimentRefrence instanceName =>
    simp only [next]
    split_ifs <;> exact h
  | dereferenceInstance other =>
    simp only [next]
    split_ifs <;> exact h

/-- A version that was replaced in use is remembered for ever. -/
theorem replaced_after_append {name aliasName : Text} {earlier : List VersionEvent}
    (h : (after name earlier).replaced = some aliasName) (later : List VersionEvent) :
    (after name (earlier ++ later)).replaced = some aliasName := by
  induction later using List.reverseRecOn with
  | nil => rwa [List.append_nil]
  | append_singleton later e ih =>
    rw [← List.append_assoc, after, List.foldl_concat]
    exact replaced_next ih e

end NameVersions

/-- The versions of the name, the oldest one first. -/
def DataBaseInstanceList.versionsOf (d : DataBaseInstanceList) (name : Text) :
    List InstanceModel := d.instanceList.filter fun m => m.actualName == name

namespace DataBaseInstanceList

variable {d : DataBaseInstanceList} {name instanceName : Text}

theorem mem_versionsOf {m : InstanceModel} :
    m ∈ d.versionsOf name ↔ m ∈ d.instanceList ∧ m.actualName = name := by
  simp [versionsOf]

/-- The alias that is read is that of the oldest version. -/
theorem getInstanceAliasName_eq (d : DataBaseInstanceList) (name : Text) :
    d.getInstanceAliasName name = ((d.versionsOf name).head?.map (·.aliasName)).getD [] := by
  rw [versionsOf, List.head?_filter, getInstanceAliasName]

/-- Retiring the version of one name keeps those of each name in their order. -/
theorem filter_retire (name : Text) (l : List InstanceModel) :
    (l.filterMap (InstanceModel.retire instanceName)).filter (fun m => m.actualName == name) =
      (l.filter fun m => m.actualName == name).filterMap (InstanceModel.retire instanceName) := by
  induction l with
  | nil => rfl
  | cons m l ih =>
    cases hm : m.retire instanceName with
    | none => by_cases hname : m.actualName = name <;> simp [hm, hname, ih]
    | some n =>
      have hactual := (InstanceModel.retire_names hm).2.1
      by_cases hname : m.actualName = name <;> simp [hm, hactual, hname, ih]

theorem versionsOf_addInstance_of_ne (h : instanceName ≠ name) (rand : ℕ → ℕ) :
    (d.addInstance instanceName rand).versionsOf name = d.versionsOf name := by
  have hkept : ∀ m ∈ d.versionsOf name, m.retire instanceName = some m := by
    intro m hm
    apply InstanceModel.retire_of_not
    rintro ⟨hname, _⟩
    exact h (hname.symm.trans (mem_versionsOf.mp hm).2)
  have hnew : ([InstanceModel.new d.allocated instanceName (newAlias instanceName rand)].filter
      fun m => m.actualName == name) = [] := by
    simp [InstanceModel.new, h]
  rw [versionsOf, addInstance, List.filter_append, filter_retire, hnew, List.append_nil]
  rw [← versionsOf, List.filterMap_congr hkept, List.filterMap_some]

theorem versionsOf_addInstance (d : DataBaseInstanceList) (name : Text) (rand : ℕ → ℕ) :
    (d.addInstance name rand).versionsOf name =
      (d.versionsOf name).filterMap (InstanceModel.retire name) ++
        [.new d.allocated name (newAlias name rand)] := by
  rw [versionsOf, addInstance, List.filter_append, filter_retire]
  simp [versionsOf, InstanceModel.new]

theorem versionsOf_changeCount {p : InstanceModel → Bool} (count : ℕ → ℕ)
    (h : ∀ m ∈ d.instanceList, p m = true → m.actualName = name) :
    (d.changeCount p count).versionsOf name =
      changeFirst p (InstanceModel.withCount count) (d.versionsOf name) := by
  refine filter_changeFirst (fun _ => rfl) fun m hm hp => ?_
  rw [h m hm hp]
  exact beq_self_eq_true _

theorem versionsOf_changeCount_of_not {p : InstanceModel → Bool} (count : ℕ → ℕ)
    (h : ∀ m ∈ d.instanceList, p m = true → m.actualName ≠ name) :
    (d.changeCount p count).versionsOf name = d.versionsOf name := by
  refine filter_changeFirst_of_not (fun _ => rfl) fun m hm hp => ?_
  exact beq_eq_false_iff_ne.mpr (h m hm hp)

end DataBaseInstanceList

namespace VersionRun

variable {s t : VersionRun} {name : Text} {v : NameVersions}

/-- The list has the retired versions of the name and behind them the latest one. -/
def Remembers (name : Text) (s : VersionRun) (v : NameVersions) : Prop :=
  ∃ (retired : List InstanceModel) (latest : Option InstanceModel),
    s.instances.versionsOf name = retired ++ latest.toList ∧
    (∀ m ∈ retired, m.scheduledToDelete = true) ∧
    (∀ m ∈ latest, m.scheduledToDelete = false) ∧
    v = ⟨retired.head?.map (·.aliasName), latest.map fun m => (m.aliasName, m.referenceCount)⟩

theorem remembers_start (name : Text) : start.Remembers name .start :=
  ⟨[], none, rfl, by simp, by simp, rfl⟩

/-- A version that the list is split at has the name. -/
theorem actualName_of_split {retired : List InstanceModel} {latest : Option InstanceModel}
    {m : InstanceModel} (h : s.instances.versionsOf name = retired ++ latest.toList)
    (hm : m ∈ latest) : m.actualName = name := by
  have hmem : m ∈ s.instances.versionsOf name := by simp_all
  exact (DataBaseInstanceList.mem_versionsOf.mp hmem).2

theorem Remembers.bound_eq (h : s.Remembers name v) :
    s.instances.getInstanceAliasName name = v.bound := by
  obtain ⟨retired, latest, hversions, _, _, rfl⟩ := h
  rw [DataBaseInstanceList.getInstanceAliasName_eq, hversions, NameVersions.bound]
  cases retired <;> cases latest <;> simp

/-- A search among the versions of the name finds the latest one. -/
theorem Remembers.changeCount (h : s.Remembers name v) {p : InstanceModel → Bool} (count : ℕ → ℕ)
    (hp : ∀ m ∈ s.instances.instanceList, p m = true →
      m.actualName = name ∧ m.scheduledToDelete = false)
    (hlatest : ∀ m ∈ s.instances.versionsOf name, m.scheduledToDelete = false → p m = true) :
    Remembers name ⟨s.instances.changeCount p count, s.lastAdded⟩ (v.changeCount count) := by
  obtain ⟨retired, latest, hversions, hretired, hcurrent, rfl⟩ := h
  refine ⟨retired, latest.map (InstanceModel.withCount count), ?_, hretired, ?_, ?_⟩
  · dsimp only
    have hpassed : ∀ m ∈ retired, p m = false := by
      intro m hm
      have hmem : m ∈ s.instances.versionsOf name := hversions ▸ List.mem_append_left _ hm
      rw [Bool.eq_false_iff]
      intro hpm
      have hnot := (hp m (DataBaseInstanceList.mem_versionsOf.mp hmem).1 hpm).2
      rw [hretired m hm] at hnot
      cases hnot
    rw [DataBaseInstanceList.versionsOf_changeCount count fun m hm hpm => (hp m hm hpm).1,
      hversions, changeFirst_append hpassed]
    cases latest with
    | none => rfl
    | some m =>
      have hpm : p m = true := hlatest m (by simp [hversions]) (hcurrent m rfl)
      simp [changeFirst, hpm]
  · intro m hm
    obtain ⟨old, hold, rfl⟩ := Option.map_eq_some_iff.mp hm
    exact hcurrent old hold
  · cases latest <;> rfl

theorem Remembers.changeCount_of_not (h : s.Remembers name v) {p : InstanceModel → Bool}
    (count : ℕ → ℕ) (hp : ∀ m ∈ s.instances.instanceList, p m = true → m.actualName ≠ name) :
    Remembers name ⟨s.instances.changeCount p count, s.lastAdded⟩ v := by
  obtain ⟨retired, latest, hversions, hrest⟩ := h
  refine ⟨retired, latest, ?_, hrest⟩
  rw [← hversions]
  exact DataBaseInstanceList.versionsOf_changeCount_of_not count hp

theorem Remembers.addInstance (h : s.Remembers name v) (rand : ℕ → ℕ)
    (lastAdded : Text → Option ℕ) :
    Remembers name ⟨s.instances.addInstance name rand, lastAdded⟩
      (v.replace (newAlias name rand)) := by
  obtain ⟨retired, latest, hversions, hretired, hcurrent, rfl⟩ := h
  have hkept : retired.filterMap (InstanceModel.retire name) = retired := by
    have hsame : ∀ m ∈ retired, m.retire name = some m := by
      intro m hm
      apply InstanceModel.retire_of_not
      simp [hretired m hm]
    rw [List.filterMap_congr hsame, List.filterMap_some]
  refine ⟨retired ++ (latest.bind (InstanceModel.retire name)).toList,
    some (.new s.instances.allocated name (newAlias name rand)), ?_, ?_,
    by simp [InstanceModel.new], ?_⟩
  · rw [DataBaseInstanceList.versionsOf_addInstance, hversions, List.filterMap_append, hkept]
    cases latest with
    | none => rfl
    | some m => cases hm : m.retire name <;> simp [hm]
  · intro m hm
    rcases List.mem_append.mp hm with hm | hm
    · exact hretired m hm
    · obtain ⟨old, hold, hretire⟩ := Option.bind_eq_some_iff.mp (Option.mem_toList.mp hm)
      have hname := actualName_of_split hversions hold
      rcases InstanceModel.retire_cases hretire with ⟨_, hnot⟩ | ⟨rfl, _⟩
      · exact absurd ⟨hname, hcurrent old hold⟩ hnot
      · rfl
  · cases latest with
    | none => cases retired <;> rfl
    | some m =>
      have hname := actualName_of_split hversions rfl
      have hnot := hcurrent m rfl
      by_cases hcount : m.referenceCount = 0 <;> cases retired <;>
        simp [NameVersions.replace, InstanceModel.retire, InstanceModel.new, hname, hnot, hcount,
          Option.filter]

theorem Remembers.dereferenceInstance (h : s.Remembers name v) (aliasName : Text) :
    Remembers name ⟨s.instances.dereferenceInstance aliasName, s.lastAdded⟩
      (v.next name (.dereferenceInstance aliasName)) := by
  simp only [NameVersions.next]
  obtain ⟨retired, latest, hversions, hretired, hcurrent, hv⟩ := id h
  -- An alias belongs to one name only, so the search stays among its versions.
  split_ifs with hlatest
  · obtain ⟨m, rfl, halias⟩ : ∃ m, latest = some m ∧ m.aliasName = aliasName := by
      simpa [hv, and_assoc] using hlatest
    have hm : m ∈ s.instances.versionsOf name := by simp [hversions]
    obtain ⟨hmem, hname⟩ := DataBaseInstanceList.mem_versionsOf.mp hm
    obtain ⟨rand, hrand⟩ := s.instances.named m hmem
    refine h.changeCount _ (fun n hn hp => ?_) fun n hn hncurrent => ?_
    · simp only [Bool.and_eq_true, beq_iff_eq, Bool.not_eq_true'] at hp
      obtain ⟨rand', hrand'⟩ := s.instances.named n hn
      have hsame := newAlias_inj (hrand'.symm.trans (hp.1.trans (halias.symm.trans hrand)))
      exact ⟨hsame.trans hname, hp.2⟩
    · rw [hversions] at hn
      rcases List.mem_append.mp hn with hn | hn
      · rw [hretired n hn] at hncurrent
        cases hncurrent
      · obtain rfl : n = m := by simpa using hn
        simp [halias, hncurrent]
  · refine h.changeCount_of_not _ fun n hn hp hname => hlatest ?_
    simp only [Bool.and_eq_true, beq_iff_eq, Bool.not_eq_true'] at hp
    have hmem : n ∈ retired ++ latest.toList :=
      hversions ▸ DataBaseInstanceList.mem_versionsOf.mpr ⟨hn, hname⟩
    rcases List.mem_append.mp hmem with hmem | hmem
    · rw [hretired n hmem] at hp
      cases hp.2
    · obtain rfl : latest = some n := by simpa using hmem
      simp [hv, hp.1]

/-- The automaton follows the list. -/
theorem Remembers.step (h : s.Remembers name v) {e : VersionEvent}
    (ht : versionStep s e = some t) : t.Remembers name (v.next name e) := by
  cases e with
  | addInstance instanceName rand =>
    obtain rfl := Option.some.inj ht
    simp only [NameVersions.next]
    split_ifs with hname
    · subst hname
      exact h.addInstance rand _
    · obtain ⟨retired, latest, hversions, hrest⟩ := h
      refine ⟨retired, latest, ?_, hrest⟩
      rw [← hversions]
      exact DataBaseInstanceList.versionsOf_addInstance_of_ne hname rand
  | incrimentRefrence instanceName =>
    obtain rfl := Option.some.inj ht
    simp only [NameVersions.next]
    split_ifs with hname
    · subst hname
      refine h.changeCount _ (fun m _ hp => ?_) fun m hm hcurrent => ?_
      · simpa [DataBaseInstanceList.isCurrent] using hp
      · have hactual := (DataBaseInstanceList.mem_versionsOf.mp hm).2
        simp [DataBaseInstanceList.isCurrent, hactual, hcurrent]
    · refine h.changeCount_of_not _ fun m _ hp hactual => hname ?_
      simp only [DataBaseInstanceList.isCurrent, Bool.and_eq_true, beq_iff_eq] at hp
      exact hp.1.symm.trans hactual
  | dereferenceInstance aliasName =>
    obtain rfl := Option.some.inj ht
    exact h.dereferenceInstance aliasName

theorem remembers_of_exec {events : List VersionEvent} (h : exec versionStep start events = some s)
    (name : Text) : s.Remembers name (.after name events) :=
  exec_simulates (fun _ _ _ _ hs ht => hs.step ht) (remembers_start name) h

/-- After any history an accepted table carries the alias of the first version of its
name that was replaced while in use, or that of the latest version when there is none. So
once a version has been replaced in use, all later tables of the name carry its alias. -/
theorem instanceType_of_exec {events : List VersionEvent}
    (h : exec versionStep start events = some s) {disk disk' : Disk} {packet : UserDataPacket}
    {tableData : TableData}
    (hresult : (s.instances.processDataPacket disk packet).2 =
      some (.success, some tableData, disk')) :
    tableData.instanceType = (NameVersions.after packet.instancetype events).bound ∧
      ∀ earlier later aliasName, events = earlier ++ later →
        (NameVersions.after packet.instancetype earlier).replaced = some aliasName →
        tableData.instanceType = aliasName := by
  have htype : tableData.instanceType = (NameVersions.after packet.instancetype events).bound := by
    rw [UserDataParser.processDataPacket_instanceType hresult, ← (remembers_of_exec h _).bound_eq]
    exact DataBaseInstanceList.getInstanceAliasName_changeCount _
  refine ⟨htype, ?_⟩
  rintro earlier later aliasName rfl hreplaced
  rw [htype, NameVersions.bound, NameVersions.replaced_after_append hreplaced later]
  rfl

/-- A first version that is replaced in use, let go by its only user, and replaced again. -/
def letGoTooLate : List VersionEvent :=
  replacedInUse ++ [.dereferenceInstance "a_aaaaa".toList, .addInstance "a".toList fun _ => 2]

theorem instanceType_letGoTooLate :
    ∃ s tableData disk', exec versionStep start letGoTooLate = some s ∧
      (s.instances.processDataPacket (fun _ => none) ⟨['t'], ['h'], "a".toList, .lowPriority⟩).2 =
        some (.success, some tableData, disk') ∧
      tableData.instanceType = (NameVersions.after "a".toList letGoTooLate).bound ∧
      tableData.instanceType = "a_aaaaa".toList := by
  obtain ⟨s, hs⟩ : ∃ s, exec versionStep start letGoTooLate = some s := ⟨_, rfl⟩
  let packet : UserDataPacket := ⟨['t'], ['h'], "a".toList, .lowPriority⟩
  have hknown : (s.instances.incrimentRefrence packet.instancetype).getInstanceAliasName
      packet.instancetype ≠ [] := by
    rw [DataBaseInstanceList.incrimentRefrence,
      DataBaseInstanceList.getInstanceAliasName_changeCount, (remembers_of_exec hs _).bound_eq]
    decide
  have hlines : splitStringByNewline packet.data ≠ [] := by
    change splitStringByNewline ['h'] ≠ []
    decide
  obtain ⟨tableData, disk', hresult⟩ :=
    UserDataParser.processDataPacket_accepts (fun _ => none) hknown hlines
  obtain ⟨hbound, hfrozen⟩ := instanceType_of_exec hs hresult
  refine ⟨s, tableData, disk', hs, hresult, hbound, hfrozen replacedInUse _ _ rfl ?_⟩
  decide

end VersionRun

end WorkerUnit
