import Mathlib.Tactic

/-!
# Runs of a partial step function

A system is a state type with a step function `σ → α → Option σ`: an event is
either enabled, and gives the next state, or it is not. Every interleaving is a
list of events, so a statement about all runs is a statement about all lists.
`Guarded` singles out the runs in which every event meets a condition on the
state in which it happens.
-/

namespace StepSystem

variable {σ α : Type*} (step : σ → α → Option σ)

/-- The state after the listed events, when each of them is enabled in turn. -/
def exec : σ → List α → Option σ
  | s, [] => some s
  | s, a :: as => (step s a).bind fun t => exec t as

@[simp] theorem exec_nil (s : σ) : exec step s [] = some s := rfl

theorem exec_cons (s : σ) (a : α) (as : List α) :
    exec step s (a :: as) = (step s a).bind fun t => exec step t as := rfl

variable {step}

theorem exec_cons_eq_some {s u : σ} {a : α} {as : List α} :
    exec step s (a :: as) = some u ↔ ∃ t, step s a = some t ∧ exec step t as = some u := by
  simp [exec_cons, Option.bind_eq_some_iff]

theorem exec_append (s : σ) (as bs : List α) :
    exec step s (as ++ bs) = (exec step s as).bind fun t => exec step t bs := by
  induction as generalizing s with
  | nil => rfl
  | cons a as ih =>
    simp only [List.cons_append, exec_cons]
    cases step s a with
    | none => rfl
    | some t => simpa using ih t

theorem exec_trans {s t u : σ} {as bs : List α} (hs : exec step s as = some t)
    (ht : exec step t bs = some u) : exec step s (as ++ bs) = some u := by
  rw [exec_append, hs]
  exact ht

theorem exec_snoc {s t u : σ} {as : List α} {a : α}
    (hs : exec step s as = some t) (ht : step t a = some u) :
    exec step s (as ++ [a]) = some u := by
  simp [exec_append, hs, exec_cons, ht]

/-- A system in which every event is enabled completes every run. -/
theorem exec_total (hstep : ∀ s a, ∃ t, step s a = some t) (s : σ) (as : List α) :
    ∃ t, exec step s as = some t := by
  induction as generalizing s with
  | nil => exact ⟨s, rfl⟩
  | cons a as ih =>
    obtain ⟨u, hu⟩ := hstep s a
    obtain ⟨t, ht⟩ := ih u
    exact ⟨t, exec_cons_eq_some.mpr ⟨u, hu, ht⟩⟩

/-- What every enabled step preserves, every run preserves. -/
theorem exec_invariant {P : σ → Prop}
    (hstep : ∀ s a t, P s → step s a = some t → P t) {s t : σ} {as : List α}
    (hs : P s) (h : exec step s as = some t) : P t := by
  induction as generalizing s with
  | nil =>
    cases h
    exact hs
  | cons a as ih =>
    obtain ⟨u, hu, h⟩ := exec_cons_eq_some.mp h
    exact ih (hstep s a u hs hu) h

/-- Every event of the run meets `G` in the state in which it happens. -/
def Guarded (step : σ → α → Option σ) (G : σ → α → Prop) : σ → List α → Prop
  | _, [] => True
  | s, a :: as => G s a ∧ ∀ t, step s a = some t → Guarded step G t as

/-- Events that meet `G` in every state make a guarded run. -/
theorem Guarded.of_forall {G : σ → α → Prop} {as : List α} (h : ∀ a ∈ as, ∀ s, G s a) (s : σ) :
    Guarded step G s as := by
  induction as generalizing s with
  | nil => trivial
  | cons a as ih =>
    exact ⟨h a (List.mem_cons_self ..) s,
      fun t _ => ih (fun b hb => h b (List.mem_cons_of_mem a hb)) t⟩

theorem Guarded.and {G H : σ → α → Prop} {s : σ} {as : List α} (hG : Guarded step G s as)
    (hH : Guarded step H s as) : Guarded step (fun s a => G s a ∧ H s a) s as := by
  induction as generalizing s with
  | nil => trivial
  | cons a as ih => exact ⟨⟨hG.1, hH.1⟩, fun t ht => ih (hG.2 t ht) (hH.2 t ht)⟩

/-- Whether a run is guarded can be computed. -/
instance Guarded.decidable {G : σ → α → Prop} [∀ s a, Decidable (G s a)] :
    ∀ (s : σ) (as : List α), Decidable (Guarded step G s as)
  | _, [] => isTrue trivial
  | s, a :: as =>
    match h : step s a with
    | none => decidable_of_iff (G s a) (by simp [Guarded, h])
    | some t =>
      have : Decidable (Guarded step G t as) := Guarded.decidable t as
      decidable_of_iff (G s a ∧ Guarded step G t as) (by simp [Guarded, h])

/-- A guarded run goes on with one from the state it has reached. -/
theorem Guarded.append {G : σ → α → Prop} {s : σ} {as bs : List α} (has : Guarded step G s as)
    (hbs : ∀ t, exec step s as = some t → Guarded step G t bs) : Guarded step G s (as ++ bs) := by
  induction as generalizing s with
  | nil => exact hbs s rfl
  | cons a as ih =>
    exact ⟨has.1, fun t ht => ih (has.2 t ht) fun u hu =>
      hbs u (exec_cons_eq_some.mpr ⟨t, ht, hu⟩)⟩

/-- What every guarded step preserves, every guarded run preserves. -/
theorem Guarded.invariant {G : σ → α → Prop} {P : σ → Prop}
    (hstep : ∀ s a t, P s → G s a → step s a = some t → P t) {s t : σ} {as : List α}
    (hs : P s) (hg : Guarded step G s as) (h : exec step s as = some t) : P t := by
  induction as generalizing s with
  | nil =>
    cases h
    exact hs
  | cons a as ih =>
    obtain ⟨u, hu, h⟩ := exec_cons_eq_some.mp h
    exact ih (hstep s a u hs hg.1 hu) (hg.2 u hu) h

/-- A condition that each step keeps exactly when it meets `G` holds at the end
of a run exactly when it held at the start and every event met `G`. -/
theorem guarded_iff {G : σ → α → Prop} {P C : σ → Prop}
    (hstep : ∀ s a t, P s → step s a = some t → P t ∧ (C t ↔ C s ∧ G s a)) {s t : σ} {as : List α}
    (hs : P s) (h : exec step s as = some t) : C t ↔ C s ∧ Guarded step G s as := by
  induction as generalizing s with
  | nil =>
    cases h
    simp [Guarded]
  | cons a as ih =>
    obtain ⟨u, hu, h⟩ := exec_cons_eq_some.mp h
    obtain ⟨hP, hC⟩ := hstep s a u hs hu
    have hrest : (∀ t, step s a = some t → Guarded step G t as) ↔ Guarded step G u as := by
      simp [hu]
    rw [ih hP h, hC, Guarded, hrest]
    tauto

/-- Conditions that agree in every state that keeps `P` guard the same runs. -/
theorem guarded_congr {G H : σ → α → Prop} {P : σ → Prop}
    (hstep : ∀ s a t, P s → step s a = some t → P t) (hG : ∀ s a, P s → (G s a ↔ H s a)) {s : σ}
    (hs : P s) (as : List α) : Guarded step G s as ↔ Guarded step H s as := by
  induction as generalizing s with
  | nil => exact Iff.rfl
  | cons a as ih =>
    have hrest : (∀ t, step s a = some t → Guarded step G t as) ↔
        ∀ t, step s a = some t → Guarded step H t as :=
      forall_congr' fun t => imp_congr_right fun ht => ih (hstep s a t hs ht)
    rw [Guarded, Guarded, hG s a hs, hrest]

/-- Every state that the run goes through satisfies `C`. -/
def Always (step : σ → α → Option σ) (C : σ → Prop) (s : σ) (as : List α) : Prop :=
  ∀ bs t, bs <+: as → exec step s bs = some t → C t

theorem always_nil {C : σ → Prop} {s : σ} : Always step C s [] ↔ C s := by
  constructor
  · intro h
    exact h [] s (List.nil_prefix ..) rfl
  · intro hs bs t hbs ht
    rw [List.prefix_nil.mp hbs] at ht
    cases ht
    exact hs

theorem always_cons {C : σ → Prop} {s t : σ} {a : α} {as : List α} (ht : step s a = some t) :
    Always step C s (a :: as) ↔ C s ∧ Always step C t as := by
  constructor
  · intro h
    refine ⟨h [] s (List.nil_prefix ..) rfl, fun bs u hbs hu => ?_⟩
    exact h (a :: bs) u (List.cons_prefix_cons.mpr ⟨rfl, hbs⟩) (exec_cons_eq_some.mpr ⟨t, ht, hu⟩)
  · rintro ⟨hs, hrest⟩ bs u hbs hu
    cases bs with
    | nil =>
      cases hu
      exact hs
    | cons b bs =>
      obtain ⟨rfl, hprefix⟩ := List.cons_prefix_cons.mp hbs
      obtain ⟨v, hv, hu⟩ := exec_cons_eq_some.mp hu
      cases ht.symm.trans hv
      exact hrest bs u hprefix hu

theorem always_cons_of_none {C : σ → Prop} {s : σ} {a : α} {as : List α} (h : step s a = none) :
    Always step C s (a :: as) ↔ C s := by
  constructor
  · exact fun hall => hall [] s (List.nil_prefix ..) rfl
  · intro hs bs t hbs ht
    cases bs with
    | nil =>
      cases ht
      exact hs
    | cons b bs =>
      obtain ⟨rfl, _⟩ := List.cons_prefix_cons.mp hbs
      simp [exec_cons, h] at ht

/-- Whether a condition holds all along a run can be computed. -/
instance Always.decidable {C : σ → Prop} [DecidablePred C] :
    ∀ (s : σ) (as : List α), Decidable (Always step C s as)
  | s, [] => decidable_of_iff (C s) always_nil.symm
  | s, a :: as =>
    match h : step s a with
    | none => decidable_of_iff (C s) (always_cons_of_none h).symm
    | some t =>
      have : Decidable (Always step C t as) := Always.decidable t as
      decidable_of_iff (C s ∧ Always step C t as) (always_cons h).symm

/-- What every step from a state with `C` preserves, a run through such states
preserves. -/
theorem always_invariant {P C : σ → Prop}
    (hstep : ∀ s a t, C s → P s → step s a = some t → P t) {s t : σ} {as : List α}
    (hs : P s) (halways : Always step C s as) (h : exec step s as = some t) : P t := by
  induction as generalizing s with
  | nil =>
    cases h
    exact hs
  | cons a as ih =>
    obtain ⟨u, hu, h⟩ := exec_cons_eq_some.mp h
    obtain ⟨hC, hrest⟩ := (always_cons hu).mp halways
    exact ih (hstep s a u hC hs hu) hrest h

/-- What `always_iff_guarded` asks of a step: the condition needs `G`, and with `G` the
invariant is kept. -/
theorem step_iff_of_kept {G P C : Prop} (hP : P → C) (hneeds : C → G) (hkept : G → P) :
    (C ↔ G) ∧ (G → P) :=
  ⟨⟨hneeds, fun hG => hP (hkept hG)⟩, hkept⟩

/-- A step that meets `G` keeps the invariant. -/
theorem step_iff_of_met {G P C : Prop} (hP : P → C) (hG : G) (hkept : P) :
    (C ↔ G) ∧ (G → P) :=
  step_iff_of_kept hP (fun _ => hG) fun _ => hkept

/-- A condition that a step keeps exactly when it meets `G`, in the states with
`P`, holds all along a run exactly when every event met `G`. -/
theorem always_iff_guarded {G : σ → α → Prop} {P C : σ → Prop} (hP : ∀ s, P s → C s)
    (hstep : ∀ s a t, P s → step s a = some t → (C t ↔ G s a) ∧ (G s a → P t)) {s t : σ}
    {as : List α} (hs : P s) (h : exec step s as = some t) :
    Always step C s as ↔ Guarded step G s as := by
  induction as generalizing s with
  | nil => simp [always_nil, Guarded, hP s hs]
  | cons a as ih =>
    obtain ⟨u, hu, h⟩ := exec_cons_eq_some.mp h
    obtain ⟨hC, hkeep⟩ := hstep s a u hs hu
    rw [always_cons hu, Guarded]
    constructor
    · rintro ⟨_, hrest⟩
      have hG : G s a := hC.mp (hrest [] u (List.nil_prefix ..) rfl)
      refine ⟨hG, fun v hv => ?_⟩
      cases hu.symm.trans hv
      exact (ih (hkeep hG) h).mp hrest
    · rintro ⟨hG, hrest⟩
      exact ⟨hP s hs, (ih (hkeep hG) h).mpr (hrest u hu)⟩

/-- A system whose steps are matched by a total function is matched all along. -/
theorem exec_simulates {ρ : Type*} {R : σ → ρ → Prop} {f : ρ → α → ρ}
    (hstep : ∀ s r a t, R s r → step s a = some t → R t (f r a)) {s t : σ} {r : ρ} {as : List α}
    (hs : R s r) (h : exec step s as = some t) : R t (as.foldl f r) := by
  induction as generalizing s r with
  | nil =>
    cases h
    exact hs
  | cons a as ih =>
    obtain ⟨u, hu, h⟩ := exec_cons_eq_some.mp h
    exact ih (hstep s r a u hs hu) h

end StepSystem
