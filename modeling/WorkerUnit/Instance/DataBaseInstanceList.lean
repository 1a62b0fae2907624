import WorkerUnit.Include.Text
import WorkerUnit.Library.FirstMatch

/-!
# The versions of the instances

`instance/instance_model.hpp` and `instance/instance_list.cpp`. Each packet for an
instance name adds a version with an alias of its own. A version that user tables
refer to is only marked when a newer one arrives. Allocations of `InstanceModel`
are numbered; the numbers stand for the addresses.
-/

namespace WorkerUnit

open FirstMatch

structure InstanceModel where
  address : ℕ
  actualName : Text
  aliasName : Text
  scheduledToDelete : Bool
  referenceCount : ℕ
  deriving DecidableEq

/-- The constructor. -/
def InstanceModel.new (address : ℕ) (actualName aliasName : Text) : InstanceModel :=
  ⟨address, actualName, aliasName, false, 0⟩

/-- Five letters of the pool. The index may also be the one past its end, where
the string has its terminating null character. -/
def getPrefixString (rand : ℕ → ℕ) : Text :=
  let alphabetPool := "abcdefghijklmnopqrstuvwxyz".toList
  (List.range 5).map fun i => (alphabetPool[rand i % 27]?).getD '\x00'

/-- The alias of a new version. -/
def newAlias (instanceName : Text) (rand : ℕ → ℕ) : Text :=
  instanceName ++ '_' :: getPrefixString rand

theorem newAlias_inj {name name' : Text} {rand rand' : ℕ → ℕ}
    (h : newAlias name rand = newAlias name' rand') : name = name' :=
  List.append_inj_left' h (by simp [getPrefixString])

/-- The version with its count changed. -/
def InstanceModel.withCount (count : ℕ → ℕ) (m : InstanceModel) : InstanceModel :=
  { m with referenceCount := count m.referenceCount }

@[simp] theorem InstanceModel.withCount_address (count : ℕ → ℕ) (m : InstanceModel) :
    (m.withCount count).address = m.address := rfl

/-- A new version is put at the end, so the versions are in the order of their
allocation. -/
structure DataBaseInstanceList where
  instanceList : List InstanceModel
  allocated : ℕ
  sorted : (instanceList.map (·.address)).Pairwise (· < ·)
  fresh : ∀ m ∈ instanceList, m.address < allocated
  named : ∀ m ∈ instanceList, ∃ rand, m.aliasName = newAlias m.actualName rand

/-- What `addInstance` does with a version that is in the list: the current one
of the name is deleted, or marked when it is in use. -/
def InstanceModel.retire (instanceName : Text) (m : InstanceModel) : Option InstanceModel :=
  if m.actualName = instanceName ∧ m.scheduledToDelete = false then
    if m.referenceCount = 0 then none else some { m with scheduledToDelete := true }
  else some m

/-- `addInstance` deletes the version. -/
def InstanceModel.Discarded (instanceName : Text) (m : InstanceModel) : Prop :=
  m.actualName = instanceName ∧ m.scheduledToDelete = false ∧ m.referenceCount = 0

instance (instanceName : Text) (m : InstanceModel) : Decidable (m.Discarded instanceName) :=
  inferInstanceAs (Decidable (_ ∧ _ ∧ _))

/-- A version that stays is as it was, or it was the current one and in use. -/
theorem InstanceModel.retire_cases {instanceName : Text} {m n : InstanceModel}
    (h : m.retire instanceName = some n) :
    (n = m ∧ ¬ (m.actualName = instanceName ∧ m.scheduledToDelete = false)) ∨
      (n = { m with scheduledToDelete := true } ∧ m.referenceCount ≠ 0) := by
  unfold retire at h
  split_ifs at h with hm hcount
  · cases h
    exact .inr ⟨rfl, hcount⟩
  · cases h
    exact .inl ⟨rfl, hm⟩

theorem InstanceModel.retire_names {instanceName : Text} {m n : InstanceModel}
    (h : m.retire instanceName = some n) :
    n.address = m.address ∧ n.actualName = m.actualName ∧ n.aliasName = m.aliasName ∧
      n.referenceCount = m.referenceCount := by
  rcases retire_cases h with ⟨rfl, _⟩ | ⟨rfl, _⟩ <;> exact ⟨rfl, rfl, rfl, rfl⟩

theorem InstanceModel.retire_of_not {instanceName : Text} {m : InstanceModel}
    (h : ¬ (m.actualName = instanceName ∧ m.scheduledToDelete = false)) :
    m.retire instanceName = some m := if_neg h

theorem InstanceModel.retire_eq_none {instanceName : Text} {m : InstanceModel} :
    m.retire instanceName = none ↔ m.Discarded instanceName := by
  unfold retire Discarded
  split_ifs <;> simp_all

/-- What the versions that stay keep is in the order it was. -/
theorem map_retire {κ : Type} {f : InstanceModel → κ} (instanceName : Text)
    (hf : ∀ m n, m.retire instanceName = some n → f n = f m) (l : List InstanceModel) :
    ((l.filterMap (InstanceModel.retire instanceName)).map f).Sublist (l.map f) := by
  induction l with
  | nil => exact .slnil
  | cons m l ih =>
    cases hm : m.retire instanceName with
    | none => simpa [hm] using ih.cons (f m)
    | some n => simpa [hm, hf m n hm] using ih.cons_cons (f m)

theorem map_address_retire (instanceName : Text) (l : List InstanceModel) :
    ((l.filterMap (InstanceModel.retire instanceName)).map (·.address)).Sublist
      (l.map (·.address)) :=
  map_retire instanceName (fun _ _ h => (InstanceModel.retire_names h).1) l

namespace DataBaseInstanceList

def init : DataBaseInstanceList := ⟨[], 0, .nil, nofun, nofun⟩

theorem nodup (d : DataBaseInstanceList) : (d.instanceList.map (·.address)).Nodup :=
  d.sorted.imp ne_of_lt

theorem address_retire_lt (d : DataBaseInstanceList) {instanceName : Text} {address : ℕ}
    (h : address ∈ (d.instanceList.filterMap (InstanceModel.retire instanceName)).map (·.address)) :
    address < d.allocated := by
  obtain ⟨m, hm, rfl⟩ := List.mem_map.mp ((map_address_retire _ _).subset h)
  exact d.fresh m hm

/-- Every version in the list is visited: an `erase(i--)` at the first element
goes round through the end of the list. -/
def addInstance (d : DataBaseInstanceList) (instanceName : Text) (rand : ℕ → ℕ) :
    DataBaseInstanceList where
  instanceList := d.instanceList.filterMap (InstanceModel.retire instanceName) ++
    [.new d.allocated instanceName (newAlias instanceName rand)]
  allocated := d.allocated + 1
  sorted := by
    rw [List.map_append]
    refine List.pairwise_append.mpr ⟨d.sorted.sublist (map_address_retire _ _), by simp, ?_⟩
    intro a ha b hb
    obtain rfl : b = d.allocated := by simpa [InstanceModel.new] using hb
    exact d.address_retire_lt ha
  fresh := by
    intro m hm
    rcases List.mem_append.mp hm with hm | hm
    · exact (d.address_retire_lt (List.mem_map_of_mem hm)).trans (Nat.lt_succ_self _)
    · rw [List.mem_singleton.mp hm]
      exact Nat.lt_succ_self _
  named := by
    intro m hm
    rcases List.mem_append.mp hm with hm | hm
    · obtain ⟨old, hold, hretire⟩ := List.mem_filterMap.mp hm
      obtain ⟨_, hactual, halias, _⟩ := InstanceModel.retire_names hretire
      rw [hactual, halias]
      exact d.named old hold
    · rw [List.mem_singleton.mp hm]
      exact ⟨rand, rfl⟩

/-- A search that changes the count of the first version passing the test. -/
def changeCount (d : DataBaseInstanceList) (p : InstanceModel → Bool) (count : ℕ → ℕ) :
    DataBaseInstanceList where
  instanceList := changeFirst p (InstanceModel.withCount count) d.instanceList
  allocated := d.allocated
  sorted := by
    rw [map_changeFirst (InstanceModel.withCount_address count)]
    exact d.sorted
  fresh := by
    intro m hm
    have hmem := List.mem_map_of_mem (f := (·.address)) hm
    rw [map_changeFirst (InstanceModel.withCount_address count)] at hmem
    obtain ⟨old, hold, haddress⟩ := List.mem_map.mp hmem
    exact haddress ▸ d.fresh old hold
  named := by
    intro m hm
    have hmem := List.mem_map_of_mem (f := fun m => (m.actualName, m.aliasName)) hm
    rw [map_changeFirst (g := InstanceModel.withCount count) fun _ => rfl] at hmem
    obtain ⟨old, hold, heq⟩ := List.mem_map.mp hmem
    obtain ⟨hactual, halias⟩ := Prod.mk.inj heq
    rw [← hactual, ← halias]
    exact d.named old hold

/-- The version of a name that is not scheduled for deletion. -/
def isCurrent (instanceName : Text) (m : InstanceModel) : Bool :=
  m.actualName == instanceName && !m.scheduledToDelete

/-- The count is unsigned and has 64 bits. -/
def incrimentRefrence (d : DataBaseInstanceList) (instanceName : Text) : DataBaseInstanceList :=
  d.changeCount (isCurrent instanceName) fun count => (count + 1) % 2 ^ 64

def dereferenceInstance (d : DataBaseInstanceList) (aliasName : Text) : DataBaseInstanceList :=
  d.changeCount (fun m => m.aliasName == aliasName && !m.scheduledToDelete)
    fun count => (count + (2 ^ 64 - 1)) % 2 ^ 64

def getInstanceActualName (d : DataBaseInstanceList) (aliasName : Text) : Text :=
  ((d.instanceList.find? fun m => m.aliasName == aliasName).map (·.actualName)).getD []

def getInstanceAliasName (d : DataBaseInstanceList) (instanceName : Text) : Text :=
  ((d.instanceList.find? fun m => m.actualName == instanceName).map (·.aliasName)).getD []

variable {d : DataBaseInstanceList} {p : InstanceModel → Bool} {count : ℕ → ℕ} {m : InstanceModel}

/-- The version that is found counts differently, and nothing else changes. -/
theorem changeCount_of_some (h : d.instanceList.find? p = some m) :
    (d.changeCount p count).instanceList = d.instanceList.map fun x =>
      if x.address = m.address then x.withCount count else x :=
  changeFirst_of_some d.nodup h

theorem changeCount_of_none (h : d.instanceList.find? p = none) : d.changeCount p count = d := by
  obtain ⟨instanceList, allocated, _, _, _⟩ := d
  simp only [changeCount, changeFirst_of_none h]

theorem eq_of_address_eq {m n : InstanceModel} (hm : m ∈ d.instanceList) (hn : n ∈ d.instanceList)
    (h : m.address = n.address) : m = n :=
  List.inj_on_of_nodup_map d.nodup hm hn h

theorem mem_addInstance {instanceName : Text} {rand : ℕ → ℕ} :
    m ∈ (d.addInstance instanceName rand).instanceList ↔
      (∃ old ∈ d.instanceList, old.retire instanceName = some m) ∨
        m = .new d.allocated instanceName (newAlias instanceName rand) := by
  simp [addInstance]

/-- A search finds the oldest version passing its test. -/
theorem le_of_find? (h : d.instanceList.find? p = some m) {x : InstanceModel}
    (hx : x ∈ d.instanceList) (hpx : p x = true) : m.address ≤ x.address := by
  obtain ⟨_, before, after, hlist, hbefore⟩ := List.find?_eq_some_iff_append.mp h
  have hsorted := d.sorted
  rw [hlist] at hx hsorted
  rw [List.map_append, List.map_cons] at hsorted
  rcases List.mem_append.mp hx with hx | hx
  · have hnot := hbefore x hx
    rw [hpx] at hnot
    cases hnot
  · rcases List.mem_cons.mp hx with rfl | hx
    · exact le_rfl
    · have hrest := (List.pairwise_append.mp hsorted).2.1
      exact ((List.pairwise_cons.mp hrest).1 _ (List.mem_map_of_mem hx)).le

theorem getInstanceAliasName_changeCount (instanceName : Text) :
    (d.changeCount p count).getInstanceAliasName instanceName =
      d.getInstanceAliasName instanceName :=
  congrArg (Option.getD · []) (find?_changeFirst (g := InstanceModel.withCount count)
    (fun _ => rfl) (fun _ => rfl) d.instanceList)

/-- A name that has a version has an oldest one, whose alias is the one that is
read. -/
theorem exists_oldest {instanceName : Text}
    (hname : ∃ m ∈ d.instanceList, m.actualName = instanceName) :
    ∃ oldest ∈ d.instanceList, oldest.actualName = instanceName ∧
      (∀ m ∈ d.instanceList, m.actualName = instanceName → oldest.address ≤ m.address) ∧
      ∀ p count, (d.changeCount p count).getInstanceAliasName instanceName = oldest.aliasName := by
  obtain ⟨m, hm, hmname⟩ := hname
  have hsome : (d.instanceList.find? fun m => m.actualName == instanceName).isSome := by
    rw [List.find?_isSome]
    exact ⟨m, hm, by simp [hmname]⟩
  obtain ⟨oldest, hfind⟩ := Option.isSome_iff_exists.mp hsome
  refine ⟨oldest, List.mem_of_find?_eq_some hfind, by simpa using List.find?_some hfind, ?_, ?_⟩
  · intro x hx hxname
    exact le_of_find? hfind hx (by simp [hxname])
  · intro p count
    rw [getInstanceAliasName_changeCount, getInstanceAliasName, hfind]
    rfl

/-- No field but the count is changed by a search. -/
theorem exists_of_mem_changeCount (h : m ∈ (d.changeCount p count).instanceList) :
    ∃ old ∈ d.instanceList, m = { old with referenceCount := m.referenceCount } := by
  cases hfind : d.instanceList.find? p with
  | none =>
    rw [changeCount_of_none hfind] at h
    exact ⟨m, h, rfl⟩
  | some found =>
    rw [changeCount_of_some hfind] at h
    obtain ⟨old, hold, rfl⟩ := List.mem_map.mp h
    refine ⟨old, hold, ?_⟩
    split_ifs <;> rfl

/-- A version that does not pass the test is not changed. -/
theorem mem_changeCount_of_not (count : ℕ → ℕ) (h : m ∈ d.instanceList) (hp : ¬ p m = true) :
    m ∈ (d.changeCount p count).instanceList := by
  cases hfind : d.instanceList.find? p with
  | none => rwa [changeCount_of_none hfind]
  | some found =>
    have hne : m.address ≠ found.address := by
      intro haddress
      rw [eq_of_address_eq h (List.mem_of_find?_eq_some hfind) haddress] at hp
      exact hp (List.find?_some hfind)
    rw [changeCount_of_some hfind]
    exact List.mem_map.mpr ⟨m, h, if_neg hne⟩

theorem exists_mem_changeCount (p : InstanceModel → Bool) (count : ℕ → ℕ)
    (h : m ∈ d.instanceList) :
    ∃ c, { m with referenceCount := c } ∈ (d.changeCount p count).instanceList := by
  cases hfind : d.instanceList.find? p with
  | none =>
    rw [changeCount_of_none hfind]
    exact ⟨m.referenceCount, h⟩
  | some found =>
    rw [changeCount_of_some hfind]
    by_cases hm : m.address = found.address
    · exact ⟨count m.referenceCount, List.mem_map.mpr ⟨m, h, by rw [if_pos hm]; rfl⟩⟩
    · exact ⟨m.referenceCount, List.mem_map.mpr ⟨m, h, by rw [if_neg hm]⟩⟩

end DataBaseInstanceList

end WorkerUnit
