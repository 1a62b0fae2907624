import Mathlib.Data.List.TakeWhile
import Mathlib.Tactic

/-!
# Strings

A `std::string` is a list of characters, each standing for one byte. `boost::iequals`
is a parameter, with what it does in the classic locale as its instance.
-/

namespace WorkerUnit

abbrev Text := List Char

/-- The string made from `c_str()`: it stops at the first null character. -/
def cStr (t : Text) : Text := t.takeWhile fun c => c.toNat != 0

/-- Only a string without null characters is passed whole by `c_str()`. -/
theorem cStr_eq_self_iff {t : Text} : cStr t = t ↔ '\x00' ∉ t := by
  have hnull : ∀ c : Char, c.toNat = 0 ↔ c = '\x00' := fun c =>
    (show c.toNat = ('\x00' : Char).toNat ↔ c = '\x00' from Char.toNat_inj)
  simp only [cStr, List.takeWhile_eq_self_iff, bne_iff_ne, ne_eq, hnull]
  exact ⟨fun h hmem => h _ hmem rfl, fun h c hc he => h (he ▸ hc)⟩

/-- Strings joined with a separator have no other characters. -/
theorem mem_intercalate_iff {sep c : Char} (hc : c ≠ sep) (feilds : List Text) :
    c ∈ [sep].intercalate feilds ↔ ∃ feild ∈ feilds, c ∈ feild := by
  induction feilds with
  | nil => simp
  | cons feild feilds ih =>
    cases feilds with
    | nil => simp
    | cons next rest =>
      rw [List.intercalate_cons_cons, List.mem_append, List.mem_append, ih, List.mem_singleton]
      simp [hc]

/-- `boost::iequals`, and what the program relies on: a question mark has no other case. -/
class BoostIequals where
  iequals : Text → Text → Bool
  refl : ∀ a, iequals a a = true
  symm : ∀ {a b}, iequals a b = true → iequals b a = true
  trans : ∀ {a b c}, iequals a b = true → iequals b c = true → iequals a c = true
  quest : ∀ {a}, iequals a ['?'] = true ↔ a = ['?']

export BoostIequals (iequals)

section Laws

variable [BoostIequals]

@[simp] theorem iequals_refl (a : Text) : iequals a a = true := BoostIequals.refl a

theorem iequals_symm {a b : Text} (h : iequals a b = true) : iequals b a = true :=
  BoostIequals.symm h

theorem iequals_comm (a b : Text) : iequals a b = iequals b a := by
  rw [Bool.eq_iff_iff]
  exact ⟨iequals_symm, iequals_symm⟩

theorem iequals_trans {a b c : Text} (hab : iequals a b = true) (hbc : iequals b c = true) :
    iequals a c = true :=
  BoostIequals.trans hab hbc

theorem iequals_quest {a : Text} : iequals a ['?'] = true ↔ a = ['?'] := BoostIequals.quest

end Laws

/-- No other character has the upper case of a question mark. -/
theorem toUpper_eq_quest {c : Char} (h : c.toUpper = '?') : c = '?' := by
  unfold Char.toUpper at h
  split_ifs at h with hlower
  · have hval := congrArg (fun c => c.val.toNat) h
    have hge : 97 ≤ c.toNat := hlower.1
    have hle : c.toNat ≤ 122 := hlower.2
    simp at hval
    omega
  · exact h

/-- In the classic locale both sides are compared in upper case. -/
instance : BoostIequals where
  iequals a b := a.map Char.toUpper == b.map Char.toUpper
  refl a := by simp
  symm {a b} h := by
    rw [beq_iff_eq] at h ⊢
    exact h.symm
  trans {a b c} hab hbc := by
    rw [beq_iff_eq] at hab hbc ⊢
    exact hab.trans hbc
  quest {a} := by
    rw [beq_iff_eq]
    constructor
    · intro h
      obtain ⟨c, rfl⟩ : ∃ c, a = [c] := by
        apply List.length_eq_one_iff.mp
        simpa using congrArg List.length h
      have hc : c.toUpper = '?' := by simpa using h
      rw [toUpper_eq_quest hc]
    · rintro rfl
      rfl

theorem iequals_iff {a b : Text} :
    iequals a b = true ↔ a.map Char.toUpper = b.map Char.toUpper := by
  simp [iequals]

end WorkerUnit
