import Mathlib.Tactic

/-!
# Calling a body until it stops

A body takes a state and gives a report and the next state, or no result. It is
called again and again until a report says stop; fuel bounds the calls.
-/

namespace Loop

variable {σ ρ : Type*} (body : σ → Option (ρ × σ)) (stop : ρ → Bool)

/-- The state in which the body reported the stop. -/
def run : ℕ → σ → Option σ
  | 0, _ => none
  | fuel + 1, s =>
    match body s with
    | none => none
    | some (r, t) => if stop r then some t else run fuel t

variable {body stop}

theorem run_of_stop {s t : σ} {r : ρ} (h : body s = some (r, t)) (hr : stop r = true) (fuel : ℕ) :
    run body stop (fuel + 1) s = some t := by
  simp [run, h, hr]

theorem run_of_continue {s t : σ} {r : ρ} (h : body s = some (r, t)) (hr : stop r = false)
    (fuel : ℕ) : run body stop (fuel + 1) s = run body stop fuel t := by
  simp [run, h, hr]

/-- More fuel does not change a result. -/
theorem run_add {s t : σ} {fuel : ℕ} (h : run body stop fuel s = some t) (k : ℕ) :
    run body stop (fuel + k) s = some t := by
  induction fuel generalizing s with
  | zero => cases h
  | succ fuel ih =>
    rw [Nat.succ_add]
    cases hbody : body s with
    | none => simp [run, hbody] at h
    | some result =>
      obtain ⟨r, u⟩ := result
      cases hr : stop r with
      | true =>
        rw [run_of_stop hbody hr] at h ⊢
        exact h
      | false =>
        rw [run_of_continue hbody hr] at h ⊢
        exact ih h

/-- What the body preserves holds in the state of the stop. -/
theorem run_invariant {P : σ → Prop} (hbody : ∀ s r t, P s → body s = some (r, t) → P t)
    {s t : σ} {fuel : ℕ} (hs : P s) (h : run body stop fuel s = some t) :
    P t ∧ ∃ u r, body u = some (r, t) ∧ stop r = true := by
  induction fuel generalizing s with
  | zero => cases h
  | succ fuel ih =>
    cases hcall : body s with
    | none => simp [run, hcall] at h
    | some result =>
      obtain ⟨r, u⟩ := result
      have hu := hbody s r u hs hcall
      cases hr : stop r with
      | true =>
        rw [run_of_stop hcall hr] at h
        cases h
        exact ⟨hu, s, r, hcall, hr⟩
      | false =>
        rw [run_of_continue hcall hr] at h
        exact ih hu h

/-- A body that decreases a measure until it stops ends within the measure. -/
theorem run_of_measure {P : σ → Prop} {μ : σ → ℕ}
    (hbody : ∀ s, P s → ∃ r t, body s = some (r, t) ∧ (stop r = true ∨ P t ∧ μ t < μ s)) {s : σ}
    {fuel : ℕ} (hs : P s) (hfuel : μ s < fuel) : ∃ t, run body stop fuel s = some t := by
  induction fuel generalizing s with
  | zero => exact absurd hfuel (Nat.not_lt_zero _)
  | succ fuel ih =>
    obtain ⟨r, t, hcall, hnext⟩ := hbody s hs
    cases hr : stop r with
    | true => exact ⟨t, run_of_stop hcall hr fuel⟩
    | false =>
      rcases hnext with hstop | ⟨ht, hless⟩
      · rw [hr] at hstop
        cases hstop
      · rw [run_of_continue hcall hr]
        exact ih ht (by omega)

/-- A loop whose states are read by `f` runs like the one on what is read. -/
theorem run_map {τ : Type*} {body' : τ → Option (ρ × τ)} {f : σ → τ}
    (hbody : ∀ s, body' (f s) = (body s).map fun r => (r.1, f r.2)) (fuel : ℕ) (s : σ) :
    run body' stop fuel (f s) = (run body stop fuel s).map f := by
  induction fuel generalizing s with
  | zero => rfl
  | succ fuel ih =>
    cases hcall : body s with
    | none => simp [run, hbody, hcall]
    | some result =>
      obtain ⟨r, t⟩ := result
      cases hr : stop r with
      | true => simp [run, hbody, hcall, hr]
      | false => simp [run, hbody, hcall, hr, ih]

variable (body stop)

/-- The states in which the body is called, and the one of the stop. -/
def visited : ℕ → σ → List σ
  | 0, s => [s]
  | fuel + 1, s => s ::
    match body s with
    | none => []
    | some (r, t) => if stop r then [t] else visited fuel t

variable {body stop}

/-- What the body preserves holds in every state that is visited. -/
theorem visited_invariant {P : σ → Prop} (hbody : ∀ s r t, P s → body s = some (r, t) → P t)
    {s : σ} (hs : P s) (fuel : ℕ) : ∀ t ∈ visited body stop fuel s, P t := by
  induction fuel generalizing s with
  | zero => simpa [visited] using hs
  | succ fuel ih =>
    rw [visited, List.forall_mem_cons]
    refine ⟨hs, ?_⟩
    cases hcall : body s with
    | none => nofun
    | some result =>
      obtain ⟨r, t⟩ := result
      have ht := hbody s r t hs hcall
      dsimp only
      split_ifs
      · simpa using ht
      · exact ih ht

variable (body stop)

/-- Called often enough from `s`, the body stops in `t`. -/
def Ends (s t : σ) : Prop := ∃ fuel, run body stop fuel s = some t

variable {body stop}

theorem Ends.of_stop {s t : σ} {r : ρ} (h : body s = some (r, t)) (hr : stop r = true) :
    Ends body stop s t := ⟨1, run_of_stop h hr 0⟩

theorem Ends.of_continue {s t u : σ} {r : ρ} (h : body s = some (r, t)) (hr : stop r = false)
    (ht : Ends body stop t u) : Ends body stop s u := by
  obtain ⟨fuel, hfuel⟩ := ht
  exact ⟨fuel + 1, (run_of_continue h hr fuel).trans hfuel⟩

theorem Ends.unique {s t u : σ} (ht : Ends body stop s t) (hu : Ends body stop s u) : t = u := by
  obtain ⟨m, hm⟩ := ht
  obtain ⟨n, hn⟩ := hu
  have hmn := run_add hm n
  rw [Nat.add_comm, run_add hn m] at hmn
  exact (Option.some.inj hmn).symm

variable {ι γ : Type*} {init : ι → σ} {out : σ → γ} {value : ι → γ} {is : List ι}

/-- A family of loops that all end has a list of final states. -/
theorem exists_ends (h : ∀ i ∈ is, ∃ t, Ends body stop (init i) t ∧ out t = value i) :
    ∃ ts, List.Forall₂ (fun i t => Ends body stop (init i) t) is ts := by
  induction is with
  | nil => exact ⟨[], .nil⟩
  | cons i is ih =>
    obtain ⟨t, ht, _⟩ := h i (List.mem_cons_self ..)
    obtain ⟨ts, hts⟩ := ih fun j hj => h j (List.mem_cons_of_mem _ hj)
    exact ⟨t :: ts, .cons ht hts⟩

/-- Any list of final states of the family has the values of the family. -/
theorem map_ends (h : ∀ i ∈ is, ∃ t, Ends body stop (init i) t ∧ out t = value i) {ts : List σ}
    (hts : List.Forall₂ (fun i t => Ends body stop (init i) t) is ts) :
    ts.map out = is.map value := by
  induction hts with
  | nil => rfl
  | @cons i t is ts hend _ ih =>
    obtain ⟨u, hu, hvalue⟩ := h i (List.mem_cons_self ..)
    rw [List.map_cons, List.map_cons, hend.unique hu, hvalue,
      ih fun j hj => h j (List.mem_cons_of_mem _ hj)]

end Loop
