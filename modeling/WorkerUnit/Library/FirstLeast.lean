import Mathlib.Data.List.FinRange
import Mathlib.Tactic

/-!
# The first least candidate

A loop over ordered indices that keeps the best candidate so far, starting from a
bound, and changes it only for a strictly smaller key. It finds nothing exactly
when there is no candidate below the bound, and otherwise the first candidate
whose key is least. A loop that keeps no key finds the last candidate.
-/

namespace FirstLeast

variable {ι κ : Type*} [LinearOrder ι] [LinearOrder κ] {p : ι → Prop} {key : ι → κ}

/-- A candidate with the least key, and the first of these. -/
structure IsFirstLeast (p : ι → Prop) (key : ι → κ) (i : ι) : Prop where
  candidate : p i
  least : ∀ j, p j → key i ≤ key j
  first : ∀ j, p j → j < i → key i < key j

instance [Fintype ι] [DecidablePred p] (i : ι) : Decidable (IsFirstLeast p key i) :=
  decidable_of_iff (p i ∧ (∀ j, p j → key i ≤ key j) ∧ ∀ j, p j → j < i → key i < key j)
    ⟨fun h => ⟨h.1, h.2.1, h.2.2⟩, fun h => ⟨h.candidate, h.least, h.first⟩⟩

theorem IsFirstLeast.unique {i j : ι} (hi : IsFirstLeast p key i) (hj : IsFirstLeast p key j) :
    i = j := by
  rcases lt_trichotomy i j with hlt | heq | hlt
  · exact absurd (hi.least j hj.candidate) (not_le.mpr (hj.first i hi.candidate hlt))
  · exact heq
  · exact absurd (hj.least i hi.candidate) (not_le.mpr (hi.first j hj.candidate hlt))

/-- Only the candidates and the order of their keys count. -/
theorem isFirstLeast_congr {κ' : Type*} [LinearOrder κ'] {q : ι → Prop} {key' : ι → κ'}
    (hp : ∀ i, p i ↔ q i) (hkey : ∀ i j, key i ≤ key j ↔ key' i ≤ key' j) (i : ι) :
    IsFirstLeast p key i ↔ IsFirstLeast q key' i := by
  have hlt : ∀ i j, key i < key j ↔ key' i < key' j := by
    intro i j
    rw [← not_le, ← not_le, hkey]
  constructor
  · rintro ⟨hi, hleast, hfirst⟩
    exact ⟨(hp i).mp hi, fun j hj => (hkey i j).mp (hleast j ((hp j).mpr hj)),
      fun j hj hji => (hlt i j).mp (hfirst j ((hp j).mpr hj) hji)⟩
  · rintro ⟨hi, hleast, hfirst⟩
    exact ⟨(hp i).mpr hi, fun j hj => (hkey i j).mpr (hleast j ((hp j).mp hj)),
      fun j hj hji => (hlt i j).mpr (hfirst j ((hp j).mp hj) hji)⟩

variable [DecidablePred p]

/-- One round of the loop. -/
def round (p : ι → Prop) [DecidablePred p] (key : ι → κ) (best : Option ι × κ) (i : ι) :
    Option ι × κ :=
  if p i then if key i < best.2 then (some i, key i) else best else best

/-- What the loop has found in the part of the list behind it. -/
def Found (p : ι → Prop) (key : ι → κ) (bound : κ) (l : List ι) (best : Option ι × κ) : Prop :=
  (best = (none, bound) ∧ ∀ j ∈ l, ¬ p j) ∨
    ∃ i ∈ l, best = (some i, key i) ∧ IsFirstLeast (fun j => j ∈ l ∧ p j) key i

section Append

omit [DecidablePred p]

variable {l : List ι} {i k : ι}

/-- A candidate below all earlier ones is the one to be found. -/
theorem isFirstLeast_append_last (hk : p k) (hless : ∀ j ∈ l, p j → key k < key j) :
    IsFirstLeast (fun j => j ∈ l ++ [k] ∧ p j) key k where
  candidate := ⟨by simp, hk⟩
  least := by
    rintro j ⟨hj, hpj⟩
    rcases List.mem_append.mp hj with hj | hj
    · exact (hless j hj hpj).le
    · rw [List.mem_singleton.mp hj]
  first := by
    rintro j ⟨hj, hpj⟩ hjk
    rcases List.mem_append.mp hj with hj | hj
    · exact hless j hj hpj
    · exact absurd hjk (List.mem_singleton.mp hj ▸ lt_irrefl k)

/-- A later index that is not below it leaves a candidate the first least one. -/
theorem IsFirstLeast.append_later (h : IsFirstLeast (fun j => j ∈ l ∧ p j) key i) (hik : i < k)
    (hk : p k → key i ≤ key k) : IsFirstLeast (fun j => j ∈ l ++ [k] ∧ p j) key i where
  candidate := ⟨List.mem_append_left _ h.candidate.1, h.candidate.2⟩
  least := by
    rintro j ⟨hj, hpj⟩
    rcases List.mem_append.mp hj with hj | hj
    · exact h.least j ⟨hj, hpj⟩
    · rw [List.mem_singleton.mp hj] at hpj ⊢
      exact hk hpj
  first := by
    rintro j ⟨hj, hpj⟩ hji
    rcases List.mem_append.mp hj with hj | hj
    · exact h.first j ⟨hj, hpj⟩ hji
    · rw [List.mem_singleton.mp hj] at hji
      exact absurd hik hji.not_gt

end Append

theorem Found.round {bound : κ} {l : List ι} {best : Option ι × κ} {k : ι}
    (h : Found p key bound l best) (hlast : ∀ j ∈ l, j < k) (hbound : p k → key k < bound) :
    Found p key bound (l ++ [k]) (round p key best k) := by
  have hmem : k ∈ l ++ [k] := by simp
  rcases h with ⟨rfl, hnone⟩ | ⟨i, hi, rfl, hleast⟩
  · by_cases hk : p k
    · -- the first candidate is below the bound
      right
      exact ⟨k, hmem, by simp [FirstLeast.round, hk, hbound hk],
        isFirstLeast_append_last hk fun j hj hpj => absurd hpj (hnone j hj)⟩
    · left
      constructor
      · simp [FirstLeast.round, hk]
      · intro j hj
        rcases List.mem_append.mp hj with hj | hj
        · exact hnone j hj
        · exact List.mem_singleton.mp hj ▸ hk
  · right
    by_cases hless : p k ∧ key k < key i
    · obtain ⟨hk, hless⟩ := hless
      exact ⟨k, hmem, by simp [FirstLeast.round, hk, hless],
        isFirstLeast_append_last hk fun j hj hpj => hless.trans_le (hleast.least j ⟨hj, hpj⟩)⟩
    · have hkeep : FirstLeast.round p key (some i, key i) k = (some i, key i) := by
        unfold FirstLeast.round
        split_ifs with hk hlt
        · exact absurd ⟨hk, hlt⟩ hless
        · rfl
        · rfl
      exact ⟨i, List.mem_append_left _ hi, hkeep,
        hleast.append_later (hlast i hi) fun hk => not_lt.mp fun hlt => hless ⟨hk, hlt⟩⟩

/-- The loop over increasing indices, when every candidate is below the bound. -/
theorem found_foldl {bound : κ} (hbound : ∀ i, p i → key i < bound) {l : List ι}
    (hl : l.Pairwise (· < ·)) : Found p key bound l (l.foldl (round p key) (none, bound)) := by
  induction l using List.reverseRecOn with
  | nil => exact .inl ⟨rfl, nofun⟩
  | append_singleton l k ih =>
    obtain ⟨hinit, -, hlast⟩ := List.pairwise_append.mp hl
    rw [List.foldl_append]
    exact (ih hinit).round (fun j hj => hlast j hj k (by simp)) (hbound k)

/-- The loop over all indices. -/
def search {n : ℕ} (p : Fin n → Prop) [DecidablePred p] (key : Fin n → κ) (bound : κ) :
    Option (Fin n) :=
  ((List.finRange n).foldl (round p key) (none, bound)).1

section Search

variable {n : ℕ} {p : Fin n → Prop} [DecidablePred p] {key : Fin n → κ} {bound : κ}

theorem search_cases (hbound : ∀ i, p i → key i < bound) :
    (search p key bound = none ∧ ∀ i, ¬ p i) ∨
      ∃ i, search p key bound = some i ∧ IsFirstLeast p key i := by
  have hall : ∀ j, j ∈ List.finRange n ∧ p j ↔ p j := by simp
  rcases found_foldl hbound (List.pairwise_lt_finRange n) with ⟨hbest, hnone⟩ | ⟨i, _, hbest, hi⟩
  · exact .inl ⟨congrArg Prod.fst hbest, fun i => hnone i (List.mem_finRange i)⟩
  · exact .inr ⟨i, congrArg Prod.fst hbest,
      (isFirstLeast_congr hall (fun _ _ => Iff.rfl) i).mp hi⟩

theorem search_eq_none_iff (hbound : ∀ i, p i → key i < bound) :
    search p key bound = none ↔ ∀ i, ¬ p i := by
  rcases search_cases hbound with ⟨hnone, hall⟩ | ⟨i, hsome, hi⟩
  · exact ⟨fun _ => hall, fun _ => hnone⟩
  · rw [hsome]
    exact ⟨nofun, fun hall => absurd hi.candidate (hall i)⟩

theorem search_eq_some_iff (hbound : ∀ i, p i → key i < bound) {i : Fin n} :
    search p key bound = some i ↔ IsFirstLeast p key i := by
  rcases search_cases hbound with ⟨hnone, hall⟩ | ⟨k, hsome, hk⟩
  · rw [hnone]
    exact ⟨nofun, fun hi => absurd hi.candidate (hall i)⟩
  · rw [hsome, Option.some.injEq]
    constructor
    · rintro rfl
      exact hk
    · exact hk.unique

end Search

/-- The last of the candidates. -/
structure IsLast (p : ι → Prop) (i : ι) : Prop where
  candidate : p i
  last : ∀ j, i < j → ¬ p j

instance [Fintype ι] (i : ι) : Decidable (IsLast p i) :=
  decidable_of_iff (p i ∧ ∀ j, i < j → ¬ p j)
    ⟨fun h => ⟨h.1, h.2⟩, fun h => ⟨h.candidate, h.last⟩⟩

omit [DecidablePred p] in
theorem IsLast.unique {i j : ι} (hi : IsLast p i) (hj : IsLast p j) : i = j := by
  rcases lt_trichotomy i j with hlt | heq | hlt
  · exact absurd hj.candidate (hi.last j hlt)
  · exact heq
  · exact absurd hi.candidate (hj.last i hlt)

/-- A search that replaces what it has found ends with the last match. -/
theorem foldl_last {is : List ι} (hsorted : is.Pairwise (· < ·)) :
    match is.foldl (fun found i => if p i then some i else found) none with
    | none => ∀ i ∈ is, ¬ p i
    | some b => p b ∧ ∀ i ∈ is, b < i → ¬ p i := by
  induction is using List.reverseRecOn with
  | nil => nofun
  | append_singleton is k ih =>
    rw [List.pairwise_append] at hsorted
    obtain ⟨hbefore, _, hlast⟩ := hsorted
    rw [List.foldl_append, List.foldl_cons, List.foldl_nil]
    by_cases hk : p k
    · rw [if_pos hk]
      refine ⟨hk, fun i hi hki => ?_⟩
      rcases List.mem_append.mp hi with hi | hi
      · exact absurd (hlast i hi k (List.mem_singleton_self k)) hki.asymm
      · rw [List.mem_singleton.mp hi] at hki
        exact absurd hki (lt_irrefl k)
    · rw [if_neg hk]
      have hfound := ih hbefore
      split at hfound
      · exact List.forall_mem_append.mpr ⟨hfound, List.forall_mem_singleton.mpr hk⟩
      · refine ⟨hfound.1, fun i hi hbi => ?_⟩
        rcases List.mem_append.mp hi with hi | hi
        · exact hfound.2 i hi hbi
        · rw [List.mem_singleton.mp hi]
          exact hk

/-- The loop over all indices that keeps no key. -/
def searchLast {n : ℕ} (p : Fin n → Prop) [DecidablePred p] : Option (Fin n) :=
  (List.finRange n).foldl (fun found i => if p i then some i else found) none

section SearchLast

variable {n : ℕ} {p : Fin n → Prop} [DecidablePred p]

theorem searchLast_cases :
    (searchLast p = none ∧ ∀ i, ¬ p i) ∨ ∃ i, searchLast p = some i ∧ IsLast p i := by
  have hlast := foldl_last (p := p) (List.pairwise_lt_finRange n)
  cases hfound : searchLast p with
  | none =>
    rw [← searchLast, hfound] at hlast
    exact .inl ⟨rfl, fun i => hlast i (List.mem_finRange i)⟩
  | some b =>
    rw [← searchLast, hfound] at hlast
    exact .inr ⟨b, rfl, hlast.1, fun i => hlast.2 i (List.mem_finRange i)⟩

theorem searchLast_eq_none_iff : searchLast p = none ↔ ∀ i, ¬ p i := by
  rcases searchLast_cases (p := p) with ⟨hnone, hall⟩ | ⟨i, hsome, hi⟩
  · exact ⟨fun _ => hall, fun _ => hnone⟩
  · rw [hsome]
    exact ⟨nofun, fun hall => absurd hi.candidate (hall i)⟩

theorem searchLast_eq_some_iff {i : Fin n} : searchLast p = some i ↔ IsLast p i := by
  rcases searchLast_cases (p := p) with ⟨hnone, hall⟩ | ⟨k, hsome, hk⟩
  · rw [hnone]
    exact ⟨nofun, fun hi => absurd hi.candidate (hall i)⟩
  · rw [hsome, Option.some.injEq]
    constructor
    · rintro rfl
      exact hk
    · exact hk.unique

end SearchLast

end FirstLeast
