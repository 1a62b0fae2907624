import WorkerUnit.Library.StepSystem

/-!
# Runs that come to an end

When every step decreases a measure, the measure bounds the length of every run, and
every run can be continued to a state in which no event is enabled.
-/

namespace StepSystem

variable {σ α : Type*} {step : σ → α → Option σ}

/-- No event is enabled. -/
def Stuck (step : σ → α → Option σ) (s : σ) : Prop := ∀ a, step s a = none

/-- When outside of `D` some event that `Q` allows decreases the measure, such events lead
to `D`. -/
theorem exists_run_to {P D : σ → Prop} {Q : α → Prop} {μ : σ → ℕ}
    (hstep : ∀ s, P s → ¬ D s → ∃ a t, Q a ∧ step s a = some t ∧ P t ∧ μ t < μ s) {s : σ}
    (hs : P s) :
    ∃ as t, exec step s as = some t ∧ (∀ a ∈ as, Q a) ∧ as.length ≤ μ s ∧ P t ∧ D t := by
  induction hμ : μ s using Nat.strong_induction_on generalizing s with
  | _ m ih =>
    by_cases hD : D s
    · exact ⟨[], s, rfl, by simp, Nat.zero_le _, hs, hD⟩
    · obtain ⟨a, t, ha, ht, hP, hless⟩ := hstep s hs hD
      obtain ⟨as, u, hrun, hall, hlength, hu⟩ := ih (μ t) (hμ ▸ hless) hP rfl
      refine ⟨a :: as, u, exec_cons_eq_some.mpr ⟨t, ht, hrun⟩, ?_, ?_, hu⟩
      · exact List.forall_mem_cons.mpr ⟨ha, hall⟩
      · rw [List.length_cons]
        omega

end StepSystem
