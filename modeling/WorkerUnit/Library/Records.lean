import Mathlib.Tactic

/-!
# Texts made of terminated records

A text as a sequence of records that each end with a separator, read the way a
`getline` loop reads it: a last record without its separator counts, an empty
rest does not.
-/

namespace Records

variable {α : Type*} [DecidableEq α]

/-- The records that a `getline` loop reads. -/
def records (sep : α) : List α → List (List α)
  | [] => []
  | c :: cs =>
    if c = sep then [] :: records sep cs
    else match records sep cs with
      | [] => [[c]]
      | r :: rs => (c :: r) :: rs

/-- Every record followed by the separator. -/
def unrecords (sep : α) (rs : List (List α)) : List α := rs.flatMap fun r => r ++ [sep]

variable {sep : α}

/-- A text is a last record, or a record with its separator in front of a text. -/
@[elab_as_elim]
theorem induction_on_records {motive : List α → Prop} (sep : α)
    (last : ∀ text, sep ∉ text → motive text)
    (record : ∀ r text, sep ∉ r → motive text → motive (r ++ sep :: text)) (text : List α) :
    motive text := by
  induction hlength : text.length using Nat.strong_induction_on generalizing text with
  | _ n ih =>
    by_cases hsep : sep ∈ text
    · obtain ⟨r, rest, rfl, hr⟩ := List.eq_append_cons_of_mem hsep
      refine record r rest hr (ih rest.length ?_ rest rfl)
      rw [← hlength, List.length_append, List.length_cons]
      omega
    · exact last text hsep

theorem records_of_notMem {text : List α} (h : sep ∉ text) :
    records sep text = if text = [] then [] else [text] := by
  induction text with
  | nil => rfl
  | cons c text ih =>
    have hc : c ≠ sep := fun he => h (he ▸ List.mem_cons_self ..)
    have hrest := ih fun hm => h (List.mem_cons_of_mem _ hm)
    rw [records, if_neg hc, hrest]
    by_cases htext : text = [] <;> simp [htext]

theorem records_append (r text : List α) (h : sep ∉ r) :
    records sep (r ++ sep :: text) = r :: records sep text := by
  induction r with
  | nil => simp [records]
  | cons c r ih =>
    have hc : c ≠ sep := fun he => h (he ▸ List.mem_cons_self ..)
    have hr : sep ∉ r := fun hm => h (List.mem_cons_of_mem _ hm)
    simp [records, hc, ih hr]

/-- Records without separators are read back. -/
theorem records_unrecords (rs : List (List α)) (h : ∀ r ∈ rs, sep ∉ r) :
    records sep (unrecords sep rs) = rs := by
  induction rs with
  | nil => rfl
  | cons r rs ih =>
    have htail : records sep (unrecords sep rs) = rs :=
      ih fun x hx => h x (List.mem_cons_of_mem _ hx)
    have hcons : unrecords sep (r :: rs) = r ++ sep :: unrecords sep rs := by simp [unrecords]
    rw [hcons, records_append r _ (h r (List.mem_cons_self ..)), htail]

/-- No record that is read contains the separator. -/
theorem not_mem_records (text : List α) : ∀ r ∈ records sep text, sep ∉ r := by
  induction text with
  | nil => simp [records]
  | cons c cs ih =>
    unfold records
    split_ifs with hc
    · intro r hr
      rcases List.mem_cons.mp hr with rfl | hr
      · simp
      · exact ih r hr
    · cases hrest : records sep cs with
      | nil => simpa using Ne.symm hc
      | cons r rs =>
        rw [hrest] at ih
        intro x hx
        rcases List.mem_cons.mp hx with rfl | hx
        · simpa [Ne.symm hc] using ih r (List.mem_cons_self ..)
        · exact ih x (List.mem_cons_of_mem _ hx)

/-- What is read, written out and read again is the same. -/
theorem records_unrecords_records (text : List α) :
    records sep (unrecords sep (records sep text)) = records sep text :=
  records_unrecords _ (not_mem_records text)

/-- The text is empty or ends with the separator. -/
def Terminated (sep : α) (text : List α) : Prop := text = [] ∨ text.getLast? = some sep

instance (sep : α) (text : List α) : Decidable (Terminated sep text) :=
  inferInstanceAs (Decidable (_ ∨ _))

omit [DecidableEq α] in
@[simp] theorem terminated_nil : Terminated sep ([] : List α) := .inl rfl

omit [DecidableEq α] in
theorem terminated_append_cons (r text : List α) :
    Terminated sep (r ++ sep :: text) ↔ Terminated sep text := by
  cases text with
  | nil => simp [Terminated]
  | cons c text => simp [Terminated, List.getLast?_cons_cons]

omit [DecidableEq α] in
theorem terminated_iff_of_notMem {text : List α} (h : sep ∉ text) :
    Terminated sep text ↔ text = [] := by
  refine ⟨fun hend => hend.resolve_right fun hlast => ?_, .inl⟩
  exact h (List.mem_of_getLast? hlast)

/-- Only a missing last separator is added by writing out what was read. -/
theorem unrecords_records (text : List α) :
    unrecords sep (records sep text) = if Terminated sep text then text else text ++ [sep] := by
  induction text using induction_on_records sep with
  | last text h =>
    rw [records_of_notMem h]
    by_cases htext : text = [] <;> simp [unrecords, terminated_iff_of_notMem h, htext]
  | record r text h ih =>
    have hcons : unrecords sep (r :: records sep text) =
        r ++ sep :: unrecords sep (records sep text) := by simp [unrecords]
    rw [records_append r text h, hcons, ih]
    by_cases htext : Terminated sep text <;> simp [terminated_append_cons, htext]

/-- A record for each separator, and one for a last record without it. -/
theorem length_records (text : List α) :
    (records sep text).length = text.count sep + if Terminated sep text then 0 else 1 := by
  induction text using induction_on_records sep with
  | last text h =>
    rw [records_of_notMem h, List.count_eq_zero_of_not_mem h]
    by_cases htext : text = [] <;> simp [terminated_iff_of_notMem h, htext]
  | record r text h ih =>
    rw [records_append r text h, List.length_cons, ih, List.count_append, List.count_cons_self,
      List.count_eq_zero_of_not_mem h]
    simp only [terminated_append_cons]
    omega

end Records
