import Mathlib.Order.Bounds.Basic
import Mathlib.Tactic

/-!
# Learning a conjunctive concept

An example gives each attribute a value. A hypothesis requires a value of some
attributes and leaves the others free; it is below another one when it requires
at least as much. The examples to be covered have a least hypothesis that covers
them, and it decides whether the examples can be separated at all.
-/

namespace ConceptLearning

variable {ι κ : Type*}

@[ext]
structure Hypothesis (ι κ : Type*) where
  required : ι → Option κ

namespace Hypothesis

/-- The example has every value that is required. -/
def Covers (h : Hypothesis ι κ) (x : ι → κ) : Prop := ∀ i, ∀ v ∈ h.required i, x i = v

/-- A more special hypothesis requires what the more general one requires. -/
instance : PartialOrder (Hypothesis ι κ) where
  le h k := ∀ i, ∀ v ∈ k.required i, v ∈ h.required i
  le_refl _ _ _ hv := hv
  le_trans _ _ _ hhk hkl i v hv := hhk i v (hkl i v hv)
  le_antisymm h k hhk hkh := by
    ext i v
    exact ⟨hkh i v, hhk i v⟩

theorem Covers.mono {h k : Hypothesis ι κ} (hhk : h ≤ k) {x : ι → κ} (hx : h.Covers x) :
    k.Covers x :=
  fun i v hv => hx i v (hhk i v hv)

/-- The hypotheses that cover all of the examples. -/
def covering (examples : Set (ι → κ)) : Set (Hypothesis ι κ) := {h | ∀ x ∈ examples, h.Covers x}

variable {positive negative : Set (ι → κ)} {h : Hypothesis ι κ}

/-- A hypothesis that requires exactly what the examples have in common is the
least one that covers them. -/
theorem isLeast_covering (hrequired : ∀ i v, v ∈ h.required i ↔ ∀ x ∈ positive, x i = v) :
    IsLeast (covering positive) h := by
  constructor
  · intro x hx i v hv
    exact (hrequired i v).mp hv x hx
  · intro k hk i v hv
    exact (hrequired i v).mpr fun x hx => hk x hx i v hv

/-- The hypothesis tells the examples of the concept from the others. -/
structure Consistent (h : Hypothesis ι κ) (positive negative : Set (ι → κ)) : Prop where
  covers : ∀ x ∈ positive, h.Covers x
  rejects : ∀ x ∈ negative, ¬ h.Covers x

/-- The examples can be separated exactly when the least covering hypothesis
separates them. -/
theorem exists_consistent_iff (hleast : IsLeast (covering positive) h) :
    (∃ k : Hypothesis ι κ, k.Consistent positive negative) ↔ h.Consistent positive negative := by
  constructor
  · rintro ⟨k, hk⟩
    have hle : h ≤ k := hleast.2 hk.covers
    exact ⟨hleast.1, fun x hx hcovers => hk.rejects x hx (hcovers.mono hle)⟩
  · intro hconsistent
    exact ⟨h, hconsistent⟩

variable [DecidableEq ι]

/-- The hypothesis that requires one value. -/
def literal (i : ι) (v : κ) : Hypothesis ι κ := ⟨fun j => if j = i then some v else none⟩

theorem literal_covers {i : ι} {v : κ} {x : ι → κ} : (literal i v).Covers x ↔ x i = v := by
  constructor
  · intro hx
    exact hx i v (if_pos rfl)
  · intro hx j w hw
    obtain ⟨rfl, rfl⟩ : j = i ∧ v = w := by simpa [literal] using hw
    exact hx

/-- A single value separates the examples when it is the one that the examples of
the concept have, and no other example has it. -/
theorem literal_consistent_iff {i : ι} {v : κ} :
    (literal i v).Consistent positive negative ↔
      (∀ x ∈ positive, x i = v) ∧ ∀ x ∈ negative, x i ≠ v := by
  constructor
  · intro hconsistent
    exact ⟨fun x hx => literal_covers.mp (hconsistent.covers x hx),
      fun x hx hv => hconsistent.rejects x hx (literal_covers.mpr hv)⟩
  · rintro ⟨hpositive, hnegative⟩
    exact ⟨fun x hx => literal_covers.mpr (hpositive x hx),
      fun x hx hcovers => hnegative x hx (literal_covers.mp hcovers)⟩

end Hypothesis

end ConceptLearning
