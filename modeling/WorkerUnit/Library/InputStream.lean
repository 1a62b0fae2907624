import Mathlib.Data.List.TakeWhile
import Mathlib.Tactic

/-!
# Reading up to a separator

An input stream holds the rest of a text and two flags. A read takes the text up
to the next separator, and the separator with it. A read that runs into the end
of the text sets `eof`, and one that takes nothing `fail` as well.
-/

structure InputStream (α : Type*) where
  rest : List α
  eof : Bool
  fail : Bool
  deriving DecidableEq

namespace InputStream

variable {α : Type*} [DecidableEq α]

/-- A stream on a text that nothing has been read of. -/
def ofList (text : List α) : InputStream α := ⟨text, false, false⟩

/-- `getline`: the line and the stream behind it. A stream with a flag set fails,
and leaves the line as it was. -/
def getline (sep : α) (s : InputStream α) (line : List α) : List α × InputStream α :=
  if s.eof || s.fail then (line, { s with fail := true })
  else match s.rest.dropWhile (· ≠ sep) with
    | [] => (s.rest, ⟨[], true, s.rest.isEmpty⟩)
    | _ :: after => (s.rest.takeWhile (· ≠ sep), ofList after)

variable {sep : α}

theorem getline_ofList_append {r : List α} (h : sep ∉ r) (text line : List α) :
    (ofList (r ++ sep :: text)).getline sep line = (r, ofList text) := by
  have hne : ∀ x ∈ r, decide (x ≠ sep) = true := by
    intro x hx
    exact decide_eq_true fun he => h (he ▸ hx)
  have hdrop : (r ++ sep :: text).dropWhile (· ≠ sep) = sep :: text := by
    rw [List.dropWhile_append_of_pos hne]
    simp
  have htake : (r ++ sep :: text).takeWhile (· ≠ sep) = r := by
    rw [List.takeWhile_append_of_pos hne]
    simp
  simp only [getline, ofList, Bool.or_self, Bool.false_eq_true, ↓reduceIte, hdrop, htake]

/-- The last line has no separator. -/
theorem getline_ofList_last {text : List α} (h : sep ∉ text) (line : List α) :
    (ofList text).getline sep line = (text, ⟨[], true, text.isEmpty⟩) := by
  have hdrop : text.dropWhile (· ≠ sep) = [] := by
    rw [List.dropWhile_eq_nil_iff]
    intro x hx
    exact decide_eq_true fun he => h (he ▸ hx)
  simp only [getline, ofList, Bool.or_self, Bool.false_eq_true, ↓reduceIte, hdrop]

end InputStream
