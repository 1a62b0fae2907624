import WorkerUnit.Services.WriteBack

/-!
# Replacing a row

`writeRowValueList` compares the row index with the number of rows as an unsigned
number, and accepts the number of rows itself. So a negative index is reported as
an overflow, and the index behind the last row is not caught.
-/

namespace WorkerUnit

namespace FileDataBaseAccess

/-- A row in range is replaced and no other; another index is reported, below or
above the range, and changes no row. -/
def ReplacesRow (f : FileDataBaseAccess) (valueList : List Text) (rowIndex : ℤ) : Prop :=
  if 0 ≤ rowIndex ∧ rowIndex < f.readWriteData.length then
    ∃ g, f.writeRowValueList valueList rowIndex = some (0, g) ∧
      g.getRowValueList rowIndex = some valueList ∧
      g.readWriteData.length = f.readWriteData.length ∧
      ∀ r : ℕ, (r : ℤ) ≠ rowIndex → g.readWriteData[r]? = f.readWriteData[r]?
  else
    ∃ g, f.writeRowValueList valueList rowIndex =
        some (if rowIndex < 0 then rowIndexUnderflow else rowIndexOverflow, g) ∧
      g.readWriteData = f.readWriteData

variable {f : FileDataBaseAccess} {valueList : List Text} {rowIndex : ℤ}

theorem rowString_eq_intercalate (valueList : List Text) :
    RowCall.rowString valueList = [','].intercalate valueList := by
  induction valueList with
  | nil => rfl
  | cons value values ih =>
    cases values with
    | nil => simp [RowCall.rowString]
    | cons v vs => simpa [RowCall.rowString] using ih

/-- Values without commas are read back from their row. -/
theorem advTokenizer_rowString (hvalues : valueList ≠ []) (hcomma : ∀ v ∈ valueList, ',' ∉ v) :
    advTokenizer (RowCall.rowString valueList) ',' = valueList := by
  rw [advTokenizer, rowString_eq_intercalate, List.splitOn_intercalate ',' hcomma hvalues]

theorem writeRowValueList_of_lt (hf : f.Writable) (valueList : List Text)
    (hover : f.readWriteData.length < toSizeT rowIndex) :
    f.writeRowValueList valueList rowIndex = some (rowIndexOverflow, f) := by
  simp [writeRowValueList, hf.1, hf.2, hover]

/-- The index behind the last row is accepted, and erases no row. -/
theorem writeRowValueList_length (hf : f.Writable) :
    f.writeRowValueList valueList f.readWriteData.length = none := by
  have hunder : ¬ (f.readWriteData.length : ℤ) < 0 := by omega
  cases valueList <;> simp [writeRowValueList, hf.1, hf.2, hunder]

theorem replacesRow_of_lt (hf : f.Writable) (hvalues : valueList ≠ [])
    (hcomma : ∀ v ∈ valueList, ',' ∉ v) {r : ℕ} (hr : r < f.readWriteData.length) :
    f.ReplacesRow valueList r := by
  obtain ⟨g, hg⟩ := writeRowValueList_isSome hf hvalues hr
  have hset := writeRowValueList_zero hf hg
  have hdata : g.readWriteData = f.readWriteData.set r (RowCall.rowString valueList) := by
    rw [hset, Int.toNat_natCast]
  have hwritable : g.Writable := hset ▸ hf
  rw [ReplacesRow, if_pos (by omega)]
  refine ⟨g, hg, ?_, hdata ▸ List.length_set, fun r' hr' => ?_⟩
  · rw [getRowValueList_of_writable hwritable, hdata, List.getElem?_set_self hr, Option.getD_some,
      advTokenizer_rowString hvalues hcomma]
  · rw [hdata]
    exact List.getElem?_set_ne (by omega)

/-- A row is replaced, or a wrong index reported, exactly when the index is not
negative and is not the number of rows. -/
theorem replacesRow_iff (hf : f.Writable) (hvalues : valueList ≠ [])
    (hplain : ∀ v ∈ valueList, ',' ∉ v ∧ '\n' ∉ v) (hint : -2 ^ 31 ≤ rowIndex)
    (hsize : f.readWriteData.length ≤ 2 ^ 63) :
    f.ReplacesRow valueList rowIndex ↔ 0 ≤ rowIndex ∧ rowIndex ≠ f.readWriteData.length := by
  rcases lt_or_ge rowIndex 0 with hneg | hnonneg
  · have hover := writeRowValueList_of_lt hf valueList
      (lt_toSizeT_of_neg hneg hint hsize)
    rw [ReplacesRow, if_neg (by omega), if_pos hneg, hover]
    constructor
    · rintro ⟨g, hg, _⟩
      cases hg
    · exact fun h => absurd h.1 (by omega)
  · obtain ⟨r, rfl⟩ := Int.eq_ofNat_of_zero_le hnonneg
    rcases lt_trichotomy r f.readWriteData.length with hlt | rfl | hgt
    · have hrow := replacesRow_of_lt hf hvalues (fun v hv => (hplain v hv).1) hlt
      exact iff_of_true hrow ⟨hnonneg, by omega⟩
    · rw [ReplacesRow, if_neg (by omega), writeRowValueList_length hf]
      constructor
      · rintro ⟨g, hg, _⟩
        cases hg
      · exact fun h => absurd rfl h.2
    · have hover := writeRowValueList_of_lt hf valueList ((toSizeT_natCast r).symm ▸ hgt)
      rw [ReplacesRow, if_neg (by omega), if_neg (by omega)]
      exact iff_of_true ⟨f, hover, rfl⟩ ⟨hnonneg, by omega⟩

/-- The second of two rows is replaced. -/
theorem replacesRow_secondRow :
    (openFile (diskOf ['t'] [['a'], ['b']]) ['t'] .rwFile).ReplacesRow [['c'], ['d']] 1 :=
  (replacesRow_iff (writable_openFile _) (by decide) (by decide) (by decide) (by decide)).mpr
    (by decide)

/-- Behind a single row a row is written without a result, and in front of it a
row is reported as an overflow. -/
theorem not_replacesRow_endRow :
    ¬ (openFile (diskOf ['t'] [['a']]) ['t'] .rwFile).ReplacesRow [['b']] 1 ∧
      ¬ (openFile (diskOf ['t'] [['a']]) ['t'] .rwFile).ReplacesRow [['b']] (-1) := by
  have hend : (openFile (diskOf ['t'] [['a']]) ['t'] .rwFile).writeRowValueList [['b']] 1 =
      none := by decide
  have hfront : ∀ result ∈ (openFile (diskOf ['t'] [['a']]) ['t'] .rwFile).writeRowValueList
      [['b']] (-1), result.1 = rowIndexOverflow := by decide
  constructor
  · rw [ReplacesRow, if_neg (by decide), hend]
    rintro ⟨g, hg, _⟩
    cases hg
  · rw [ReplacesRow, if_neg (by decide)]
    rintro ⟨g, hg, _⟩
    have hcode : rowIndexUnderflow = rowIndexOverflow := hfront _ hg
    exact absurd hcode (by decide)

end FileDataBaseAccess

end WorkerUnit
