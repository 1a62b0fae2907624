import WorkerUnit.Instance.Versions
import WorkerUnit.Library.CircularList

/-!
# The current version of a name

The loop of `addInstance` retires the version that is current, and only then is
the new one put at the end. So a name has one current version, and a version that
is referred to stays.
-/

namespace WorkerUnit

open StepSystem CircularList

/-- One round of the loop of `addInstance`. -/
def addInstanceRound (instanceName : Text) (c : Cursor InstanceModel) :
    Option (Bool × Cursor InstanceModel) :=
  match c.place with
  | none => some (true, c)
  | some i =>
    match c.nodes[i]? with
    | none => none
    | some m =>
      let c := c.visit m
      if m.actualName = instanceName then
        if m.scheduledToDelete then some (false, c.advance)
        else if m.referenceCount = 0 then some (false, (c.eraseBack i).advance)
        else some (false, (c.replace i { m with scheduledToDelete := true }).advance)
      else some (false, c.advance)

/-- Every version in the list is visited once, a version that is referred to stays
with its names and its count, and the new version comes behind those that stay. -/
def AddsSafely (d : DataBaseInstanceList) (instanceName : Text) (rand : ℕ → ℕ) : Prop :=
  ∃ kept, Loop.Ends (addInstanceRound instanceName) id (.first d.instanceList)
      ⟨kept, none, d.instanceList⟩ ∧
    (d.addInstance instanceName rand).instanceList =
      kept ++ [.new d.allocated instanceName (newAlias instanceName rand)] ∧
    ∀ m ∈ d.instanceList, m.referenceCount ≠ 0 →
      ∃ n ∈ kept, n = { m with scheduledToDelete := n.scheduledToDelete }

namespace VersionRun

/-- The name has one version that is not scheduled for deletion, the last one that
was added, and a reference changes its count and nothing else. -/
def OneCurrent (s : VersionRun) (instanceName : Text) : Prop :=
  ∃ m ∈ s.instances.instanceList, m.actualName = instanceName ∧ m.scheduledToDelete = false ∧
    (∀ n ∈ s.instances.instanceList, n.actualName = instanceName →
      n.scheduledToDelete = false → n = m) ∧
    s.lastAdded instanceName = some m.address ∧
    ∃ count, count ≠ m.referenceCount ∧
      (s.instances.incrimentRefrence instanceName).instanceList =
        s.instances.instanceList.map fun n =>
          if n = m then { m with referenceCount := count } else n

/-- A name that was added has a version that is not scheduled for deletion. -/
def Present (s : VersionRun) : Prop :=
  ∀ instanceName, s.lastAdded instanceName ≠ none →
    ∃ m ∈ s.instances.instanceList, m.actualName = instanceName ∧ m.scheduledToDelete = false

end VersionRun

/-- The round keeps, marks or erases a version as `retire` says. -/
theorem addInstanceRound_eq (instanceName : Text) :
    addInstanceRound instanceName = visitRound (InstanceModel.retire instanceName) := by
  funext c
  obtain ⟨nodes, place, visited⟩ := c
  cases place with
  | none => rfl
  | some i =>
    cases hm : nodes[i]? with
    | none => simp [addInstanceRound, visitRound, hm]
    | some m =>
      have hself : nodes.set i m = nodes := by
        obtain ⟨hi, rfl⟩ := List.getElem?_eq_some_iff.mp hm
        exact List.set_getElem_self hi
      by_cases hname : m.actualName = instanceName
      · by_cases hscheduled : m.scheduledToDelete = true
        · simp [addInstanceRound, visitRound, hm, InstanceModel.retire, hname, hscheduled,
            Cursor.visit, Cursor.replace, hself]
        · by_cases hcount : m.referenceCount = 0
          · simp [addInstanceRound, visitRound, hm, InstanceModel.retire, hname, hscheduled, hcount]
          · simp [addInstanceRound, visitRound, hm, InstanceModel.retire, hname, hscheduled, hcount]
      · simp [addInstanceRound, visitRound, hm, InstanceModel.retire, hname, Cursor.visit,
          Cursor.replace, hself]

/-- A version that is referred to stays. -/
theorem InstanceModel.exists_retire {instanceName : Text} {m : InstanceModel}
    (h : m.referenceCount ≠ 0) :
    ∃ n, m.retire instanceName = some n ∧
      n = { m with scheduledToDelete := n.scheduledToDelete } := by
  cases hretire : m.retire instanceName with
  | none => exact absurd (retire_eq_none.mp hretire).2.2 h
  | some n =>
    refine ⟨n, rfl, ?_⟩
    rcases retire_cases hretire with ⟨rfl, _⟩ | ⟨rfl, _⟩ <;> rfl

theorem addsSafely (d : DataBaseInstanceList) (instanceName : Text) (rand : ℕ → ℕ) :
    AddsSafely d instanceName rand := by
  refine ⟨d.instanceList.filterMap (InstanceModel.retire instanceName), ?_, rfl, ?_⟩
  · rw [addInstanceRound_eq]
    exact ends_first d.instanceList
  · intro m hm hcount
    obtain ⟨n, hretire, heq⟩ := InstanceModel.exists_retire hcount
    exact ⟨n, List.mem_filterMap.mpr ⟨m, hm, hretire⟩, heq⟩

namespace VersionRun

variable {s t : VersionRun} {instanceName : Text}

theorem Present.addInstance (h : s.Present) (instanceName : Text) (rand : ℕ → ℕ) :
    Present ⟨s.instances.addInstance instanceName rand,
      Function.update s.lastAdded instanceName (some s.instances.allocated)⟩ := by
  intro name hname
  by_cases hsame : name = instanceName
  · subst hsame
    exact ⟨_, DataBaseInstanceList.mem_addInstance.mpr (.inr rfl), rfl, rfl⟩
  · dsimp only at hname
    rw [Function.update_of_ne hsame] at hname
    obtain ⟨m, hm, hmname, hcurrent⟩ := h name hname
    have hkept : m.retire instanceName = some m :=
      InstanceModel.retire_of_not fun hm => hsame (hmname.symm.trans hm.1)
    exact ⟨m, DataBaseInstanceList.mem_addInstance.mpr (.inl ⟨m, hm, hkept⟩), hmname, hcurrent⟩

theorem Present.changeCount (h : s.Present) (p : InstanceModel → Bool) (count : ℕ → ℕ) :
    Present ⟨s.instances.changeCount p count, s.lastAdded⟩ := by
  intro name hname
  obtain ⟨m, hm, hmname, hcurrent⟩ := h name hname
  obtain ⟨c, hc⟩ := DataBaseInstanceList.exists_mem_changeCount p count hm
  exact ⟨_, hc, hmname, hcurrent⟩

theorem Present.step (e : VersionEvent) (h : s.Present) (ht : versionStep s e = some t) :
    t.Present := by
  cases e with
  | addInstance instanceName rand =>
    obtain rfl := Option.some.inj ht
    exact h.addInstance instanceName rand
  | incrimentRefrence instanceName =>
    obtain rfl := Option.some.inj ht
    exact h.changeCount _ _
  | dereferenceInstance aliasName =>
    obtain rfl := Option.some.inj ht
    exact h.changeCount _ _

/-- A name that was added stays added. -/
theorem lastAdded_step (e : VersionEvent) (ht : versionStep s e = some t)
    (h : s.lastAdded instanceName ≠ none ∨ ∃ rand, e = .addInstance instanceName rand) :
    t.lastAdded instanceName ≠ none := by
  cases e with
  | addInstance name rand =>
    obtain rfl := Option.some.inj ht
    dsimp only
    by_cases hname : instanceName = name
    · rw [hname, Function.update_self]
      nofun
    · rw [Function.update_of_ne hname]
      apply h.resolve_right
      rintro ⟨rand', heq⟩
      cases heq
      exact hname rfl
  | incrimentRefrence name =>
    obtain rfl := Option.some.inj ht
    exact h.resolve_right nofun
  | dereferenceInstance aliasName =>
    obtain rfl := Option.some.inj ht
    exact h.resolve_right nofun

theorem lastAdded_exec {events : List VersionEvent} (ht : exec versionStep s events = some t)
    (h : s.lastAdded instanceName ≠ none ∨
      ∃ rand, VersionEvent.addInstance instanceName rand ∈ events) :
    t.lastAdded instanceName ≠ none := by
  induction events generalizing s with
  | nil =>
    cases ht
    exact h.resolve_right nofun
  | cons e events ih =>
    obtain ⟨u, hu, ht⟩ := exec_cons_eq_some.mp ht
    rcases h with h | ⟨rand, hmem⟩
    · exact ih ht (.inl (lastAdded_step e hu (.inl h)))
    · rcases List.mem_cons.mp hmem with heq | hmem
      · exact ih ht (.inl (lastAdded_step e hu (.inr ⟨rand, heq.symm⟩)))
      · exact ih ht (.inr ⟨rand, hmem⟩)

/-- A count of 64 bits is different after it has been raised. -/
theorem raised_ne (count : ℕ) : (count + 1) % 2 ^ 64 ≠ count := by omega

theorem Tracked.oneCurrent (h : s.Tracked)
    (hname : ∃ m ∈ s.instances.instanceList, m.actualName = instanceName) :
    s.OneCurrent instanceName := by
  obtain ⟨m, hfind, hm, hmname, hcurrent, hlast⟩ := h.find_current hname
  refine ⟨m, hm, hmname, hcurrent, ?_, hlast, (m.referenceCount + 1) % 2 ^ 64,
    raised_ne m.referenceCount, ?_⟩
  · intro n hn hnname hncurrent
    apply DataBaseInstanceList.eq_of_address_eq hn hm
    have hnlast := h.last n hn hncurrent
    rw [hnname, hlast] at hnlast
    exact (Option.some.inj hnlast).symm
  · refine (DataBaseInstanceList.changeCount_of_some hfind).trans (List.map_congr_left ?_)
    intro n hn
    by_cases hsame : n = m
    · rw [hsame, if_pos rfl, if_pos rfl]
      rfl
    · have haddress : n.address ≠ m.address := fun he =>
        hsame (DataBaseInstanceList.eq_of_address_eq hn hm he)
      rw [if_neg haddress, if_neg hsame]

/-- After any history, each name that was added has one current version, and a
further `addInstance` visits every version once and keeps those in use. -/
theorem oneCurrent_always {events : List VersionEvent}
    (h : exec versionStep start events = some s) :
    (∀ instanceName rand, VersionEvent.addInstance instanceName rand ∈ events →
      s.OneCurrent instanceName) ∧
    ∀ instanceName rand, AddsSafely s.instances instanceName rand := by
  have htracked : s.Tracked := exec_invariant (fun _ e _ hs => hs.step e) tracked_start h
  have hpresent : s.Present :=
    exec_invariant (fun _ e _ hs => hs.step e) (fun _ hnone => absurd rfl hnone) h
  refine ⟨fun instanceName rand hadded => ?_, addsSafely s.instances⟩
  obtain ⟨m, hm, hmname, _⟩ := hpresent instanceName (lastAdded_exec h (.inr ⟨rand, hadded⟩))
  exact htracked.oneCurrent ⟨m, hm, hmname⟩

theorem oneCurrent_replacedInUse :
    ∃ s, exec versionStep start replacedInUse = some s ∧ s.OneCurrent "a".toList ∧
      AddsSafely s.instances "a".toList fun _ => 2 := by
  obtain ⟨s, hs⟩ : ∃ s, exec versionStep start replacedInUse = some s := ⟨_, rfl⟩
  have hall := oneCurrent_always hs
  exact ⟨s, hs, hall.1 "a".toList (fun _ => 0) (by simp [replacedInUse]), hall.2 _ _⟩

end VersionRun

end WorkerUnit
