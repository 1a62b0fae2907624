import Mathlib.Algebra.BigOperators.Group.List.Basic
import Mathlib.Data.List.Nodup
import WorkerUnit.Library.BoundedRuns

/-!
# Components on a shared store

Components come one after another and are called in any order. They share one store and
one log, and each of them owns a key of the store. When a component changes no other key
and what is known of it depends on its own key only, it is known of every component in
every run, of its own part of the log, as if each of them were alone.
-/

namespace SharedStore

open StepSystem

variable {σ κ β ω α γ : Type*}

structure State (σ κ β ω : Type*) where
  store : κ → β
  components : List σ
  log : List ω

inductive Event (α γ : Type*) where
  | arrive (g : γ)
  | call (i : ℕ) (a : α)

namespace Event

end Event

/-- A call changes the component and the store, and appends to the log. -/
abbrev Call (σ κ β ω α : Type*) := σ → (κ → β) → α → Option (σ × (κ → β) × List ω)

abbrev Arrival (σ κ β γ : Type*) := (κ → β) → γ → Option (σ × (κ → β))

variable (act : Call σ κ β ω α) (enter : Arrival σ κ β γ)

def systemStep (s : State σ κ β ω) : Event α γ → Option (State σ κ β ω)
  | .arrive g => (enter s.store g).map fun (c, store) =>
      { s with store := store, components := s.components ++ [c] }
  | .call i a => s.components[i]?.bind fun c => (act c s.store a).map fun (c, store, said) =>
      ⟨store, s.components.set i c, s.log ++ said⟩

variable [DecidableEq κ] (owns : σ → κ) (tag : ω → κ)

/-- What has been said by a component. -/
def said (s : State σ κ β ω) (c : σ) : List ω := s.log.filter fun x => tag x = owns c

/-- `P` is known of a component, the store and what the component has said. -/
structure Confined (P : σ → (κ → β) → List ω → Prop) : Prop where
  tagged : ∀ {c store a c' store' new}, act c store a = some (c', store', new) →
    owns c' = owns c ∧ ∀ x ∈ new, tag x = owns c
  arrives : ∀ {store g c store'}, enter store g = some (c, store') →
    P c store' [] ∧ ∀ k ≠ owns c, store' k = store k
  called : ∀ {c store history a c' store' new}, P c store history →
    act c store a = some (c', store', new) →
    P c' store' (history ++ new) ∧ ∀ k ≠ owns c, store' k = store k
  framed : ∀ {c store history store'}, P c store history → store' (owns c) = store (owns c) →
    P c store' history

/-- Everything in the log has been said by a component, and `P` is known of all components
that own different keys. -/
structure Known (P : σ → (κ → β) → List ω → Prop) (s : State σ κ β ω) : Prop where
  logged : ∀ x ∈ s.log, tag x ∈ s.components.map owns
  known : (s.components.map owns).Nodup → ∀ c ∈ s.components, P c s.store (said owns tag s c)

variable {act enter owns tag} {P : σ → (κ → β) → List ω → Prop} {s t : State σ κ β ω}

theorem known_start (store : κ → β) : Known owns tag P ⟨store, [], []⟩ :=
  ⟨by simp, by simp⟩

omit [DecidableEq κ] in
theorem systemStep_call {i : ℕ} {a : α}
    (h : systemStep act enter s (.call i a) = some t) :
    ∃ c c' store new, s.components[i]? = some c ∧ act c s.store a = some (c', store, new) ∧
      t = ⟨store, s.components.set i c', s.log ++ new⟩ := by
  obtain ⟨c, hc, h⟩ := Option.bind_eq_some_iff.mp h
  obtain ⟨⟨c', store, new⟩, hcall, rfl⟩ := Option.map_eq_some_iff.mp h
  exact ⟨c, c', store, new, hc, hcall, rfl⟩

omit [DecidableEq κ] in
/-- A call keeps the keys of all components. -/
theorem map_owns_set {i : ℕ} {c c' : σ} (hc : s.components[i]? = some c)
    (howns : owns c' = owns c) : (s.components.set i c').map owns = s.components.map owns := by
  obtain ⟨hi, rfl⟩ := List.getElem?_eq_some_iff.mp hc
  have hkey : owns c' = (s.components.map owns).get ⟨i, by simpa using hi⟩ := by
    simp [howns]
  rw [List.map_set, hkey, List.get_eq_getElem, List.set_getElem_self]

omit [DecidableEq κ] in
theorem owns_ne {l : List σ} (hnodup : (l.map owns).Nodup) {i j : ℕ} {c d : σ}
    (hc : l[i]? = some c) (hd : l[j]? = some d) (hij : i ≠ j) : owns c ≠ owns d := by
  intro heq
  obtain ⟨hi, _⟩ := List.getElem?_eq_some_iff.mp hc
  have hsame : (l.map owns)[i]? = (l.map owns)[j]? := by
    rw [List.getElem?_map, List.getElem?_map, hc, hd, Option.map_some, Option.map_some, heq]
  exact hij ((List.getElem?_inj (by simpa using hi) hnodup).mp hsame)

theorem Known.arrives (hP : Confined act enter owns tag P) (hs : Known owns tag P s) {g : γ}
    (h : systemStep act enter s (.arrive g) = some t) :
    Known owns tag P t ∧ (s.components.map owns).Sublist (t.components.map owns) := by
  obtain ⟨⟨c, store⟩, harrive, rfl⟩ := Option.map_eq_some_iff.mp h
  obtain ⟨hnew, hkept⟩ := hP.arrives harrive
  refine ⟨⟨?_, ?_⟩, by simp⟩
  · intro x hx
    rw [List.map_append]
    exact List.mem_append_left _ (hs.logged x hx)
  · intro hnodup d hd
    rw [List.map_append, List.map_singleton] at hnodup
    obtain ⟨hold, _, hfresh⟩ := List.nodup_append.mp hnodup
    have hne : ∀ k ∈ s.components.map owns, k ≠ owns c := fun k hk =>
      hfresh k hk (owns c) (List.mem_singleton_self _)
    rcases List.mem_append.mp hd with hd | hd
    · exact hP.framed (hs.known hold d hd) (hkept _ (hne _ (List.mem_map_of_mem hd)))
    · obtain rfl := List.mem_singleton.mp hd
      have hsilent : said owns tag ⟨store, s.components ++ [d], s.log⟩ d = [] := by
        apply List.filter_eq_nil_iff.mpr
        intro x hx
        simpa using hne _ (hs.logged x hx)
      rw [hsilent]
      exact hnew

theorem Known.called (hP : Confined act enter owns tag P) (hs : Known owns tag P s) {i : ℕ} {a : α}
    (h : systemStep act enter s (.call i a) = some t) :
    Known owns tag P t ∧ t.components.map owns = s.components.map owns := by
  obtain ⟨c, c', store, new, hc, hcall, rfl⟩ := systemStep_call h
  obtain ⟨howns, htag⟩ := hP.tagged hcall
  have hmap := map_owns_set hc howns
  refine ⟨⟨?_, ?_⟩, hmap⟩
  · intro x hx
    rw [hmap]
    rcases List.mem_append.mp hx with hx | hx
    · exact hs.logged x hx
    · rw [htag x hx]
      exact List.mem_map_of_mem (List.mem_of_getElem? hc)
  · intro hnodup d hd
    rw [hmap] at hnodup
    obtain ⟨hnext, hkept⟩ := hP.called (hs.known hnodup c (List.mem_of_getElem? hc)) hcall
    obtain ⟨j, hj⟩ := List.mem_iff_getElem?.mp hd
    rw [List.getElem?_set] at hj
    split_ifs at hj with hij hlt
    · cases hj
      have hsaid : said owns tag ⟨store, s.components.set i c', s.log ++ new⟩ c' =
          said owns tag s c ++ new := by
        have hall : new.filter (fun x => tag x = owns c) = new :=
          List.filter_eq_self.mpr fun x hx => decide_eq_true (htag x hx)
        rw [said, howns, List.filter_append, hall, said]
      rw [hsaid]
      exact hnext
    · have hne := owns_ne hnodup hc hj hij
      have hsaid : said owns tag ⟨store, s.components.set i c', s.log ++ new⟩ d =
          said owns tag s d := by
        have hnone : new.filter (fun x => tag x = owns d) = [] := by
          apply List.filter_eq_nil_iff.mpr
          intro x hx
          simpa [htag x hx] using hne
        rw [said, List.filter_append, hnone, List.append_nil, said]
      rw [hsaid]
      exact hP.framed (hs.known hnodup d (List.mem_of_getElem? hj)) (hkept _ hne.symm)

theorem Known.step (hP : Confined act enter owns tag P) (hs : Known owns tag P s)
    {e : Event α γ} (h : systemStep act enter s e = some t) :
    Known owns tag P t ∧ (s.components.map owns).Sublist (t.components.map owns) := by
  cases e with
  | arrive g => exact hs.arrives hP h
  | call i a =>
    obtain ⟨ht, hmap⟩ := hs.called hP h
    exact ⟨ht, hmap ▸ List.Sublist.refl _⟩

theorem known_of_exec (hP : Confined act enter owns tag P) {store : κ → β}
    {es : List (Event α γ)} (h : exec (systemStep act enter) ⟨store, [], []⟩ es = some s) :
    Known owns tag P s :=
  exec_invariant (fun _ _ _ hs h => (hs.step hP h).1) (known_start store) h

section Descent

variable {Q : σ → Prop} {measure bound : σ → ℕ}

end Descent

end SharedStore
