import WorkerUnit.Library.StepSystem

/-!
# The ids of registered processes

`registerProcess` means to draw an id until no registered process has it. The flag
that should end the loop is clear from the start, and its sense is the wrong way
round, so that the id is whatever the variable held.
-/

namespace WorkerUnit

open StepSystem

/-- The address of a process table with its id. -/
structure RegisteredProcess where
  address : ℕ
  pid : ℕ
  deriving DecidableEq, Repr

/-- The loop of `registerProcess` on the values of the generator: it goes on while
`exitLoop` is set, and no result means that the values have run out. -/
def drawPid (pids : List ℕ) : Bool → ℕ → List ℕ → Option ℕ
  | false, pid, _ => some pid
  | true, _, [] => none
  | true, _, draw :: draws => drawPid pids (decide (draw ∉ pids)) draw draws

/-- A new table is at an address that no other one has; `indeterminate` is what the
variable `pid` holds before it is assigned. -/
inductive RegistryCall where
  | registerProcess (address indeterminate : ℕ) (draws : List ℕ)
  | unregisterProcess (address : ℕ)
  deriving DecidableEq, Repr

abbrev ProcessRegistry := List RegisteredProcess

namespace ProcessRegistry

def pids (pidVector : ProcessRegistry) : List ℕ := pidVector.map (·.pid)

def addresses (pidVector : ProcessRegistry) : List ℕ := pidVector.map (·.address)

/-- The first entry with the address is erased. -/
def unregisterProcess (pidVector : ProcessRegistry) (address : ℕ) : ProcessRegistry :=
  pidVector.eraseP fun process => process.address == address

def call (pidVector : ProcessRegistry) : RegistryCall → Option ProcessRegistry
  | .registerProcess address indeterminate draws =>
    if address ∈ pidVector.addresses then none
    else (drawPid pidVector.pids false indeterminate draws).map fun pid =>
      pidVector ++ [⟨address, pid⟩]
  | .unregisterProcess address => some (pidVector.unregisterProcess address)

/-- The ids are different and in the range of the generator, and to unregister a table
removes it and nothing else. -/
structure PidLaw (pidVector : ProcessRegistry) : Prop where
  distinct : pidVector.pids.Nodup
  range : ∀ pid ∈ pidVector.pids, 1 ≤ pid ∧ pid ≤ 9999
  removes : ∀ address, pidVector.unregisterProcess address =
    pidVector.filter fun process => process.address ≠ address

/-- The variable happens to hold an id that is in the range and not in use. -/
def LuckyPid (pidVector : ProcessRegistry) : RegistryCall → Prop
  | .registerProcess _ indeterminate _ =>
    (1 ≤ indeterminate ∧ indeterminate ≤ 9999) ∧ indeterminate ∉ pidVector.pids
  | .unregisterProcess _ => True

instance (pidVector : ProcessRegistry) (c : RegistryCall) : Decidable (pidVector.LuckyPid c) := by
  unfold LuckyPid
  cases c <;> exact inferInstance

variable {pidVector t : ProcessRegistry}

/-- No two tables are at one address. -/
structure Registered (pidVector : ProcessRegistry) : Prop where
  addresses : pidVector.addresses.Nodup
  distinct : pidVector.pids.Nodup
  range : ∀ pid ∈ pidVector.pids, 1 ≤ pid ∧ pid ≤ 9999

theorem unregisterProcess_eq_filter (h : pidVector.addresses.Nodup) (address : ℕ) :
    pidVector.unregisterProcess address =
      pidVector.filter fun process => process.address ≠ address := by
  induction pidVector with
  | nil => rfl
  | cons process rest ih =>
    obtain ⟨hnew, hrest⟩ := List.nodup_cons.mp h
    by_cases haddress : process.address = address
    · have hkept : ∀ other ∈ rest, other.address ≠ address := by
        intro other hother heq
        exact hnew (List.mem_map.mpr ⟨other, hother, heq.trans haddress.symm⟩)
      have hall : rest.filter (fun process => process.address ≠ address) = rest :=
        List.filter_eq_self.mpr fun other hother => decide_eq_true (hkept other hother)
      rw [unregisterProcess, List.eraseP_cons_of_pos (by simpa using haddress),
        List.filter_cons_of_neg (by simp [haddress]), hall]
    · rw [unregisterProcess, List.eraseP_cons_of_neg (by simpa using haddress),
        List.filter_cons_of_pos (by simp [haddress])]
      exact congrArg _ (ih hrest)

theorem unregisterProcess_sublist (pidVector : ProcessRegistry) (address : ℕ) :
    (pidVector.unregisterProcess address).Sublist pidVector := List.eraseP_sublist

theorem Registered.law (h : pidVector.Registered) : pidVector.PidLaw :=
  ⟨h.distinct, h.range, unregisterProcess_eq_filter h.addresses⟩

theorem Registered.unregisterProcess (h : pidVector.Registered) (address : ℕ) :
    (pidVector.unregisterProcess address).Registered := by
  have hsub := pidVector.unregisterProcess_sublist address
  exact ⟨(hsub.map _).nodup h.addresses, (hsub.map _).nodup h.distinct,
    fun pid hpid => h.range pid ((hsub.map _).subset hpid)⟩

theorem Registered.step (h : pidVector.Registered) {c : RegistryCall}
    (ht : pidVector.call c = some t) :
    (t.PidLaw ↔ pidVector.LuckyPid c) ∧ (pidVector.LuckyPid c → t.Registered) := by
  cases c with
  | unregisterProcess address =>
    cases ht
    exact step_iff_of_met (fun h => h.law) trivial (h.unregisterProcess address)
  | registerProcess address indeterminate draws =>
    simp only [call, drawPid, Option.map_some] at ht
    split_ifs at ht with hused
    cases ht
    have hpids : pids (pidVector ++ [⟨address, indeterminate⟩]) =
        pidVector.pids ++ [indeterminate] := List.map_append
    have haddresses : ProcessRegistry.addresses (pidVector ++ [⟨address, indeterminate⟩]) =
        pidVector.addresses ++ [address] := List.map_append
    have hsnoc : ∀ (l : List ℕ) (a : ℕ), (l ++ [a]).Nodup ↔ l.Nodup ∧ a ∉ l := by
      intro l a
      rw [← List.concat_eq_append, List.nodup_concat, and_comm]
    have hkeep : pidVector.LuckyPid (.registerProcess address indeterminate draws) →
        Registered (pidVector ++ [⟨address, indeterminate⟩]) := by
      rintro ⟨hrange, hnew⟩
      refine ⟨?_, ?_, ?_⟩
      · rw [haddresses]
        exact (hsnoc _ _).mpr ⟨h.addresses, hused⟩
      · rw [hpids]
        exact (hsnoc _ _).mpr ⟨h.distinct, hnew⟩
      · intro pid hpid
        rw [hpids] at hpid
        rcases List.mem_append.mp hpid with hpid | hpid
        · exact h.range pid hpid
        · exact (List.mem_singleton.mp hpid) ▸ hrange
    refine step_iff_of_kept (fun h => h.law) (fun law => ?_) hkeep
    have hdistinct := law.distinct
    rw [hpids] at hdistinct
    exact ⟨law.range indeterminate (by simp [hpids]), ((hsnoc _ _).mp hdistinct).2⟩

end ProcessRegistry

/-- The registered processes have different ids in the range all along exactly when the
uninitialised variable happens to hold such an id in each registration. -/
theorem pidLaw_iff (calls : List RegistryCall) (s : ProcessRegistry)
    (hrun : exec ProcessRegistry.call [] calls = some s) :
    Always ProcessRegistry.call ProcessRegistry.PidLaw [] calls ↔
      Guarded ProcessRegistry.call ProcessRegistry.LuckyPid [] calls := by
  have hstart : ProcessRegistry.Registered [] := ⟨List.nodup_nil, List.nodup_nil, nofun⟩
  exact always_iff_guarded (fun _ h => h.law) (fun _ _ _ h ht => h.step ht) hstart hrun

/-- Two registrations that find different ids in the variable. -/
def luckyRegistrations : List RegistryCall :=
  [.registerProcess 0 17 [5], .registerProcess 1 4711 [5], .unregisterProcess 0]

theorem pidLaw_luckyRegistrations :
    exec ProcessRegistry.call [] luckyRegistrations = some [⟨1, 4711⟩] ∧
      Always ProcessRegistry.call ProcessRegistry.PidLaw [] luckyRegistrations :=
  ⟨rfl, (pidLaw_iff luckyRegistrations [⟨1, 4711⟩] rfl).mpr (by decide)⟩

/-- Two registrations find a zero in the variable, whatever the generator gives. -/
theorem not_pidLaw_zero :
    ∃ s, exec ProcessRegistry.call [] [.registerProcess 0 0 [17], .registerProcess 1 0 [4711]] =
      some s ∧ ¬ s.PidLaw := by
  refine ⟨_, rfl, fun law => ?_⟩
  have hdistinct := law.distinct
  revert hdistinct
  decide

end WorkerUnit
