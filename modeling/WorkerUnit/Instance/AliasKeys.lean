import WorkerUnit.Instance.Versions
import WorkerUnit.Services.SqliteDatabaseAccess

/-!
# The alias of a version as its key

The random suffix keeps a new alias apart only from those of the versions that
are discarded anyway, and its pool is taken for one letter longer than it is.
-/

namespace WorkerUnit

open StepSystem

/-- No draw is the index past the end of the pool. -/
def DrawsLetters (rand : ℕ → ℕ) : Prop := ∀ i < 5, rand i % 27 ≠ 26

/-- Every statement on the table of this alias is passed whole by `c_str()`, when the
other texts in it can be. -/
def PassedWhole (aliasName : Text) : Prop :=
  ∀ s : SqlStatement, s.tableId = aliasName → (∀ feild ∈ s.feilds, '\x00' ∉ feild) →
    cStr s.text = s.text

/-- The aliases are different, have no null character, and lead back to the names. -/
structure AliasesUsable (d : DataBaseInstanceList) : Prop where
  distinct : (d.instanceList.map (·.aliasName)).Nodup
  noNull : ∀ m ∈ d.instanceList, '\x00' ∉ m.aliasName ∧ PassedWhole m.aliasName
  mapsBack : ∀ m ∈ d.instanceList, d.getInstanceActualName m.aliasName = m.actualName

/-- A new alias is usable when its name has no null character, its draws are letters
and no version that stays has it. -/
def AddsUsable (s : VersionRun) : VersionEvent → Prop
  | .addInstance instanceName rand => '\x00' ∉ instanceName ∧ DrawsLetters rand ∧
      ∀ m ∈ s.instances.instanceList, m.aliasName = newAlias instanceName rand →
        m.Discarded instanceName
  | _ => True

theorem null_mem_getPrefixString {rand : ℕ → ℕ} :
    '\x00' ∈ getPrefixString rand ↔ ¬ DrawsLetters rand := by
  have hpool : ∀ k < 27, (("abcdefghijklmnopqrstuvwxyz".toList[k]?).getD '\x00' = '\x00' ↔
      k = 26) := by decide
  simp only [getPrefixString, List.mem_map, List.mem_range, DrawsLetters, not_forall, not_not,
    exists_prop]
  exact exists_congr fun i => and_congr_right fun _ => hpool (rand i % 27) (Nat.mod_lt _ (by omega))

theorem null_notMem_newAlias {instanceName : Text} {rand : ℕ → ℕ} :
    '\x00' ∉ newAlias instanceName rand ↔ '\x00' ∉ instanceName ∧ DrawsLetters rand := by
  have hseparator : '\x00' ≠ '_' := by decide
  rw [newAlias, List.mem_append, List.mem_cons, null_mem_getPrefixString]
  tauto

theorem passedWhole_of_noNull {aliasName : Text} (h : '\x00' ∉ aliasName) :
    PassedWhole aliasName := by
  rintro s rfl hfeilds
  exact SqlStatement.cStr_text_iff.mpr ⟨h, hfeilds⟩

variable {d : DataBaseInstanceList}

/-- Different aliases without null characters are all that is needed. -/
theorem aliasesUsable_iff : AliasesUsable d ↔ (d.instanceList.map (·.aliasName)).Nodup ∧
    ∀ aliasName ∈ d.instanceList.map (·.aliasName), '\x00' ∉ aliasName := by
  constructor
  · intro h
    refine ⟨h.distinct, fun aliasName hmem => ?_⟩
    obtain ⟨m, hm, rfl⟩ := List.mem_map.mp hmem
    exact (h.noNull m hm).1
  · rintro ⟨hdistinct, hnull⟩
    refine ⟨hdistinct, fun m hm => ?_, fun m hm => ?_⟩
    · have hm := hnull _ (List.mem_map_of_mem hm)
      exact ⟨hm, passedWhole_of_noNull hm⟩
    · have hsome : (d.instanceList.find? fun n => n.aliasName == m.aliasName).isSome := by
        rw [List.find?_isSome]
        exact ⟨m, hm, beq_self_eq_true _⟩
      obtain ⟨n, hfind⟩ := Option.isSome_iff_exists.mp hsome
      have halias : n.aliasName = m.aliasName := by
        simpa using List.find?_some hfind
      have hsame := List.inj_on_of_nodup_map hdistinct (List.mem_of_find?_eq_some hfind) hm halias
      rw [DataBaseInstanceList.getInstanceActualName, hfind, hsame]
      rfl

/-- A change of a count changes no alias. -/
theorem aliasesUsable_changeCount (p : InstanceModel → Bool) (count : ℕ → ℕ) :
    AliasesUsable (d.changeCount p count) ↔ AliasesUsable d := by
  have haliases : (d.changeCount p count).instanceList.map (·.aliasName) =
      d.instanceList.map (·.aliasName) :=
    FirstMatch.map_changeFirst (g := InstanceModel.withCount count) (fun _ => rfl) d.instanceList
  rw [aliasesUsable_iff, aliasesUsable_iff, haliases]

/-- The new alias is not among those that stay when the versions that have it are
discarded. -/
theorem newAlias_notMem_iff {instanceName : Text} {rand : ℕ → ℕ} :
    newAlias instanceName rand ∉
        (d.instanceList.filterMap (InstanceModel.retire instanceName)).map (·.aliasName) ↔
      ∀ m ∈ d.instanceList, m.aliasName = newAlias instanceName rand →
        m.Discarded instanceName := by
  constructor
  · intro h m hm halias
    rw [← InstanceModel.retire_eq_none]
    by_contra hstays
    obtain ⟨n, hn⟩ := Option.ne_none_iff_exists'.mp hstays
    have hmem : n.aliasName ∈
        (d.instanceList.filterMap (InstanceModel.retire instanceName)).map (·.aliasName) :=
      List.mem_map_of_mem (List.mem_filterMap.mpr ⟨m, hm, hn⟩)
    rw [(InstanceModel.retire_names hn).2.2.1, halias] at hmem
    exact h hmem
  · intro h hmem
    obtain ⟨n, hn, halias⟩ := List.mem_map.mp hmem
    obtain ⟨m, hm, hretire⟩ := List.mem_filterMap.mp hn
    rw [(InstanceModel.retire_names hretire).2.2.1] at halias
    rw [InstanceModel.retire_eq_none.mpr (h m hm halias)] at hretire
    cases hretire

/-- The aliases stay usable exactly when the new one is. -/
theorem aliasesUsable_addInstance (h : AliasesUsable d) (instanceName : Text) (rand : ℕ → ℕ) :
    AliasesUsable (d.addInstance instanceName rand) ↔
      '\x00' ∉ instanceName ∧ DrawsLetters rand ∧
        ∀ m ∈ d.instanceList, m.aliasName = newAlias instanceName rand →
          m.Discarded instanceName := by
  obtain ⟨hdistinct, hnull⟩ := aliasesUsable_iff.mp h
  have hstay := map_retire (f := (·.aliasName)) instanceName
    (fun _ _ hretire => (InstanceModel.retire_names hretire).2.2.1) d.instanceList
  have hnew : (d.addInstance instanceName rand).instanceList.map (·.aliasName) =
      (d.instanceList.filterMap (InstanceModel.retire instanceName)).map (·.aliasName) ++
        [newAlias instanceName rand] := List.map_append
  rw [aliasesUsable_iff, hnew, List.nodup_append_comm, List.singleton_append, List.nodup_cons,
    newAlias_notMem_iff, ← and_assoc, ← null_notMem_newAlias]
  constructor
  · rintro ⟨⟨hunused, _⟩, hall⟩
    exact ⟨hall _ (List.mem_append_right _ (List.mem_singleton_self _)), hunused⟩
  · rintro ⟨hletters, hunused⟩
    refine ⟨⟨hunused, hdistinct.sublist hstay⟩, fun aliasName hmem => ?_⟩
    rcases List.mem_append.mp hmem with hmem | hmem
    · exact hnull aliasName (hstay.subset hmem)
    · rw [List.mem_singleton.mp hmem]
      exact hletters

namespace VersionRun

variable {s t : VersionRun}

/-- The aliases are usable all along any history exactly when every new one is. -/
theorem aliasesUsable_iff_adds {events : List VersionEvent}
    (h : exec versionStep start events = some t) :
    Always versionStep (fun s => AliasesUsable s.instances) start events ↔
      Guarded versionStep AddsUsable start events := by
  have hstart : AliasesUsable start.instances := aliasesUsable_iff.mpr ⟨.nil, nofun⟩
  refine always_iff_guarded (P := fun s => AliasesUsable s.instances) (fun _ hs => hs) ?_ hstart h
  intro s e t hs ht
  cases e with
  | addInstance instanceName rand =>
    obtain rfl := Option.some.inj ht
    have hadds := aliasesUsable_addInstance hs instanceName rand
    exact ⟨hadds, hadds.mpr⟩
  | incrimentRefrence instanceName =>
    obtain rfl := Option.some.inj ht
    have hkept : AliasesUsable (s.instances.incrimentRefrence instanceName) :=
      (aliasesUsable_changeCount _ _).mpr hs
    exact ⟨iff_of_true hkept trivial, fun _ => hkept⟩
  | dereferenceInstance aliasName =>
    obtain rfl := Option.some.inj ht
    have hkept : AliasesUsable (s.instances.dereferenceInstance aliasName) :=
      (aliasesUsable_changeCount _ _).mpr hs
    exact ⟨iff_of_true hkept trivial, fun _ => hkept⟩

/-- A call of `addInstance` with the values that `rand` gives it. -/
abbrev AddCall := Text × (ℕ → ℕ)

def addCall (call : AddCall) : VersionEvent := .addInstance call.1 call.2

/-- Without references every version of a name is discarded by the next one. -/
def Unreferenced (s : VersionRun) : Prop :=
  ∀ m ∈ s.instances.instanceList, m.scheduledToDelete = false ∧ m.referenceCount = 0

theorem Unreferenced.step {call : AddCall} (h : s.Unreferenced)
    (ht : versionStep s (addCall call) = some t) : t.Unreferenced := by
  obtain rfl := Option.some.inj ht
  intro m hm
  rcases DataBaseInstanceList.mem_addInstance.mp hm with ⟨old, hold, hretire⟩ | rfl
  · rcases InstanceModel.retire_cases hretire with ⟨rfl, _⟩ | ⟨rfl, hcount⟩
    · exact h m hold
    · exact absurd (h old hold).2 hcount
  · exact ⟨rfl, rfl⟩

/-- Among versions that nobody refers to only the draws matter. -/
theorem Unreferenced.addsUsable_iff (h : s.Unreferenced) {call : AddCall}
    (hname : '\x00' ∉ call.1) : AddsUsable s (addCall call) ↔ DrawsLetters call.2 := by
  constructor
  · rintro ⟨_, hletters, _⟩
    exact hletters
  · intro hletters
    refine ⟨hname, hletters, fun m hm halias => ?_⟩
    obtain ⟨rand, hnamed⟩ := s.instances.named m hm
    exact ⟨newAlias_inj (hnamed.symm.trans halias), h m hm⟩

theorem Unreferenced.guarded_iff (h : s.Unreferenced) {calls : List AddCall}
    (hnames : ∀ call ∈ calls, '\x00' ∉ call.1) :
    Guarded versionStep AddsUsable s (calls.map addCall) ↔
      ∀ call ∈ calls, DrawsLetters call.2 := by
  induction calls generalizing s with
  | nil => simp [Guarded]
  | cons call calls ih =>
    obtain ⟨hname, hrest⟩ := List.forall_mem_cons.mp hnames
    rw [List.map_cons, Guarded, List.forall_mem_cons, h.addsUsable_iff hname]
    apply and_congr_right
    intro _
    constructor
    · intro hnext
      exact (ih (h.step rfl) hrest).mp (hnext _ rfl)
    · intro hletters t ht
      exact (ih (h.step ht) hrest).mpr hletters

/-- Through any sequence of calls of `addInstance` the aliases of all versions are
usable keys exactly when no call draws the index past the end of the pool. -/
theorem usableKeys_iff (calls : List AddCall) (hnames : ∀ call ∈ calls, '\x00' ∉ call.1) :
    Always versionStep (fun s => AliasesUsable s.instances) start (calls.map addCall) ↔
      ∀ call ∈ calls, DrawsLetters call.2 := by
  have htotal : ∀ s e, ∃ t, versionStep s e = some t := by
    rintro s (_ | _ | _) <;> exact ⟨_, rfl⟩
  obtain ⟨t, ht⟩ := exec_total htotal start (calls.map addCall)
  have hstart : start.Unreferenced := nofun
  rw [aliasesUsable_iff_adds ht, hstart.guarded_iff hnames]

theorem usableKeys_threeCalls :
    Always versionStep (fun s => AliasesUsable s.instances) start
      ([("a".toList, fun _ => 0), ("b".toList, fun _ => 0), ("a".toList, fun i => i)].map
        addCall) :=
  (usableKeys_iff _ (by decide)).mpr (by simp [DrawsLetters]; omega)

/-- A draw of 26 puts a null character into the alias. -/
theorem not_usableKeys_lastIndex :
    ¬ Always versionStep (fun s => AliasesUsable s.instances) start
      ([("a".toList, fun _ => 26)].map addCall) := by
  intro h
  have husable := h _ _ (List.prefix_refl _) rfl
  have hnull := (husable.noNull _ List.mem_cons_self).1
  revert hnull
  decide

end VersionRun

end WorkerUnit
