import WorkerUnit.Algorithm.CeFinalize
import WorkerUnit.Library.Separated

/-!
# The string of a final result

`CeFinalize::getFinalResult` puts the entries of `s`, those of `g` and the two totals
behind each other. The entries are table cells, which may hold colons; nothing marks
the colon that stands between `s` and `g`.
-/

namespace WorkerUnit

open Separated

/-- The members that `getFinalResult` reads. -/
structure FinalResult where
  s : List Text
  g : List Text
  totalPositves : ℤ
  totalNegatives : ℤ
  deriving DecidableEq, Repr

/-- `std::to_string`. -/
def stdToString : ℤ → Text
  | .ofNat n => Nat.toDigits 10 n
  | .negSucc n => '-' :: Nat.toDigits 10 (n + 1)

/-- The entries with commas between them; the source reads the last entry of an empty
vector too. -/
def joinEntries (entries : List Text) : Option Text :=
  entries.getLast?.map fun last => (entries.dropLast.flatMap fun entry => entry ++ [',']) ++ last

def FinalResult.getFinalResult (r : FinalResult) : Option Text :=
  (joinEntries r.s).bind fun s => (joinEntries r.g).map fun g =>
    s ++ ':' :: (g ++ ':' :: (stdToString r.totalPositves ++ ':' :: stdToString r.totalNegatives))

def CeFinalize.getFinalResult {n : ℕ} (r : CeFinalize n) : Option Text :=
  FinalResult.getFinalResult
    ⟨List.ofFn r.s, List.ofFn r.g, r.totalPositves, r.totalNegatives⟩

/-- Both vectors have an entry for each column, and no entry has a comma. -/
structure FinalResult.Tabular (r : FinalResult) : Prop where
  nonempty : r.s ≠ []
  columns : r.s.length = r.g.length
  cells : ∀ entry ∈ r.s ++ r.g, ',' ∉ entry

/-- The number of colons in the last entry of `s`. -/
def FinalResult.lastColons (r : FinalResult) : ℕ := (r.s.getLastD []).count ':'

theorem digit_ne {c : Char} {n : ℕ} (h : c ∈ Nat.toDigits 10 n) : c ≠ ':' ∧ c ≠ '-' := by
  have hdigit := Nat.isDigit_of_mem_toDigits (by decide) (by decide) h
  constructor
  · rintro rfl
    revert hdigit
    decide
  · rintro rfl
    revert hdigit
    decide

theorem toDigits_injective {m n : ℕ} (h : Nat.toDigits 10 m = Nat.toDigits 10 n) : m = n := by
  rw [← Nat.ofDigitChars_ten_toDigits (n := m), h, Nat.ofDigitChars_ten_toDigits]

theorem colon_notMem_stdToString (z : ℤ) : ':' ∉ stdToString z := by
  intro hmem
  cases z with
  | ofNat n => exact (digit_ne hmem).1 rfl
  | negSucc n =>
    rcases List.mem_cons.mp hmem with hsign | hmem
    · cases hsign
    · exact (digit_ne hmem).1 rfl

theorem stdToString_injective {y z : ℤ} (h : stdToString y = stdToString z) : y = z := by
  have hsign : ∀ m n : ℕ, stdToString (.ofNat m) ≠ stdToString (.negSucc n) := by
    intro m n heq
    have hmem : '-' ∈ stdToString (.ofNat m) := heq ▸ List.mem_cons_self ..
    exact (digit_ne hmem).2 rfl
  cases y with
  | ofNat m =>
    cases z with
    | ofNat n => rw [toDigits_injective h]
    | negSucc n => exact absurd h (hsign m n)
  | negSucc m =>
    cases z with
    | ofNat n => exact absurd h.symm (hsign n m)
    | negSucc n => rw [Nat.succ_injective (toDigits_injective (List.cons.inj h).2)]

theorem joinEntries_append (entries : List Text) (last : Text) :
    joinEntries (entries ++ [last]) = some ([','].intercalate (entries ++ [last])) := by
  have hjoin : (entries.flatMap fun entry => entry ++ [',']) ++ last =
      [','].intercalate (entries ++ [last]) := by
    induction entries with
    | nil => simp
    | cons entry entries ih =>
      have hne : entries ++ [last] ≠ [] := by simp
      rw [List.flatMap_cons, List.append_assoc, ih, List.cons_append,
        List.intercalate_cons_of_ne_nil hne]
  simp [joinEntries, hjoin]

theorem joinEntries_eq {entries : List Text} (h : entries ≠ []) :
    joinEntries entries = some ([','].intercalate entries) := by
  rw [← List.dropLast_append_getLast h]
  exact joinEntries_append _ _

/-- The vectors of a result around the colon that stands between them: the entries of
`s` before its last one, the last, the first of `g`, and the entries behind it. -/
theorem FinalResult.Tabular.split {r : FinalResult} (h : r.Tabular) :
    ∃ init last first rest, r.s = init ++ [last] ∧ r.g = first :: rest ∧
      init.length = rest.length ∧ r.lastColons = last.count ':' ∧
      (∀ entry ∈ init ++ (last ++ ([':'] ++ first)) :: rest, ',' ∉ entry) ∧
      r.getFinalResult = some (([','].intercalate (init ++ (last ++ ([':'] ++ first)) :: rest) ++
        ':' :: stdToString r.totalPositves) ++ ':' :: stdToString r.totalNegatives) := by
  have hg : r.g ≠ [] := by
    intro hnil
    have hlength := h.columns
    rw [hnil, List.length_nil, List.length_eq_zero_iff] at hlength
    exact h.nonempty hlength
  obtain ⟨first, rest, hfirst⟩ := List.exists_cons_of_ne_nil hg
  obtain ⟨init, last, hlast⟩ : ∃ init last, r.s = init ++ [last] :=
    ⟨_, _, (List.dropLast_append_getLast h.nonempty).symm⟩
  refine ⟨init, last, first, rest, hlast, hfirst, ?_, ?_, ?_, ?_⟩
  · have hlength := h.columns
    rw [hlast, hfirst, List.length_append, List.length_singleton, List.length_cons] at hlength
    exact Nat.succ_injective hlength
  · rw [FinalResult.lastColons, hlast, List.getLastD_concat]
  · have hcells := h.cells
    rw [hlast, hfirst] at hcells
    intro entry hentry hcomma
    rcases List.mem_append.mp hentry with hinit | hrest
    · exact hcells entry (by simp [hinit]) hcomma
    · rcases List.mem_cons.mp hrest with rfl | hrest
      · have hmid : ',' ∈ last ∨ ',' ∈ first := by simpa using hcomma
        rcases hmid with hmid | hmid
        · exact hcells last (by simp) hmid
        · exact hcells first (by simp) hmid
      · exact hcells entry (by simp [hrest]) hcomma
  · have hstring : r.getFinalResult = some ([','].intercalate r.s ++ ':' ::
        ([','].intercalate r.g ++ ':' ::
          (stdToString r.totalPositves ++ ':' :: stdToString r.totalNegatives))) := by
      simp only [FinalResult.getFinalResult, joinEntries_eq h.nonempty, joinEntries_eq hg,
        Option.bind_some, Option.map_some]
    rw [hstring, ← intercalate_append_mid, hlast, hfirst]
    simp

/-- With as many colons in the last entries of `s` the string gives the result. -/
theorem FinalResult.Tabular.eq_of_lastColons {a b : FinalResult} (ha : a.Tabular)
    (hb : b.Tabular) (hcolons : a.lastColons = b.lastColons)
    (h : a.getFinalResult = b.getFinalResult) : a = b := by
  obtain ⟨ainit, alast, afirst, arest, has, hag, halength, hacolons, hacells, hastring⟩ :=
    ha.split
  obtain ⟨binit, blast, bfirst, brest, hbs, hbg, hblength, hbcolons, hbcells, hbstring⟩ :=
    hb.split
  rw [hastring, hbstring, Option.some.injEq] at h
  -- the totals are read from the end
  obtain ⟨h, hnegatives⟩ :=
    append_sep_inj (colon_notMem_stdToString _) (colon_notMem_stdToString _) h
  obtain ⟨h, hpositives⟩ :=
    append_sep_inj (colon_notMem_stdToString _) (colon_notMem_stdToString _) h
  have hentries := intercalate_inj hacells hbcells (by simp) (by simp) h
  have hinit : ainit.length = binit.length := by
    have hlength := congrArg List.length hentries
    simp only [List.length_append, List.length_cons] at hlength
    omega
  obtain ⟨hinit, hrest⟩ := List.append_inj hentries hinit
  obtain ⟨hmid, hrest⟩ := List.cons.inj hrest
  change alast ++ ':' :: afirst = blast ++ ':' :: bfirst at hmid
  obtain ⟨hlast, hfirst⟩ :=
    append_sep_inj_of_count (hacolons.symm.trans (hcolons.trans hbcolons)) hmid
  have hs : a.s = b.s := by rw [has, hbs, hinit, hlast]
  have hg : a.g = b.g := by rw [hag, hbg, hfirst, hrest]
  cases a
  cases b
  simp only [FinalResult.mk.injEq]
  exact ⟨hs, hg, stdToString_injective hpositives, stdToString_injective hnegatives⟩

/-- Two results with the same string are equal exactly when the last entries of their
`s` hold equally many colons. -/
theorem getFinalResult_eq_iff (a b : FinalResult) (ha : a.Tabular) (hb : b.Tabular)
    (h : a.getFinalResult = b.getFinalResult) : a = b ↔ a.lastColons = b.lastColons := by
  constructor
  · rintro rfl
    rfl
  · intro hcolons
    exact ha.eq_of_lastColons hb hcolons h

/-- One column, with a colon in the cell of `s`. -/
def colonInS : FinalResult := ⟨[['a', ':', 'b']], [['c']], 1, 0⟩

/-- One column, with a colon in the cell of `g`. -/
def colonInG : FinalResult := ⟨[['a']], [['b', ':', 'c']], 1, 0⟩

theorem tabular_colons : colonInS.Tabular ∧ colonInG.Tabular :=
  ⟨⟨by decide, rfl, by decide⟩, ⟨by decide, rfl, by decide⟩⟩

theorem getFinalResult_eq_iff_colons :
    colonInS = colonInG ↔ colonInS.lastColons = colonInG.lastColons :=
  getFinalResult_eq_iff colonInS colonInG tabular_colons.1 tabular_colons.2 (by decide)

/-- Different results have the string `a:b:c:1:0`. -/
theorem not_getFinalResult_injective_colons :
    colonInS.Tabular ∧ colonInG.Tabular ∧
      colonInS.getFinalResult = colonInG.getFinalResult ∧ colonInS ≠ colonInG := by
  refine ⟨tabular_colons.1, tabular_colons.2, ?_, by decide⟩
  decide

end WorkerUnit
