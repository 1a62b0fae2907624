import Mathlib.Data.Rat.Defs
import Mathlib.Tactic
import WorkerUnit.Algorithm.SplitRows
import WorkerUnit.Receiver.InstanceDataParser

/-!
# The schemas of the received packets

The values of `nlohmann::json`, the conversions that the receiver makes, and what
`json_validator` tests for the keywords of the three schemas of
`receiver_proc/receiver.cpp`. The keys `minimum` and `maximum` bound numbers only, so a
property without a type may be anything that is not a number.
-/

namespace WorkerUnit

/-- A float is the number that it stands for, and an object has one member for a key. -/
inductive Json where
  | null
  | boolean (b : Bool)
  | numberInteger (i : ℤ)
  | numberUnsigned (n : ℕ)
  | numberFloat (x : ℚ)
  | string (s : Text)
  | array (elements : List Json)
  | object (members : List (Text × Json))

namespace Json

/-- `operator[]` with a key, which makes a missing member null; on other values it throws. -/
def field (key : Text) : Json → Option Json
  | object members => some ((members.lookup key).getD null)
  | null => some null
  | _ => none

/-- The conversion to `std::string`. -/
def getString : Json → Option Text
  | string s => some s
  | _ => none

def truncate (x : ℚ) : ℤ := x.num.tdiv x.den

/-- The conversion to `int`: it throws for what has no number, and is undefined for a
float that an `int` cannot hold. -/
def getInt : Json → Option ℤ
  | boolean b => some (if b then 1 else 0)
  | numberInteger i => some (wrapInt i)
  | numberUnsigned n => some (wrapInt n)
  | numberFloat x => if -2 ^ 31 ≤ truncate x ∧ truncate x < 2 ^ 31 then some (truncate x) else none
  | _ => none

end Json

inductive SchemaType where
  | number
  | string
  deriving DecidableEq, Repr

/-- A property has a type, or a minimum and a maximum. -/
inductive PropertySchema where
  | typed (type : SchemaType)
  | within (minimum maximum : ℤ)
  deriving DecidableEq, Repr

/-- The number of a value that a bound is compared with: an unsigned one is taken as a
signed number of 64 bits. -/
def Json.number : Json → Option ℚ
  | numberInteger i => some i
  | numberUnsigned n => some (if n < 2 ^ 63 then n else n - 2 ^ 64)
  | numberFloat x => some x
  | _ => none

def PropertySchema.validate : PropertySchema → Json → Bool
  | typed .number, value => value.number.isSome
  | typed .string, value => value.getString.isSome
  | within minimum maximum, value =>
    value.number.all fun x => (minimum : ℚ) ≤ x && x ≤ (maximum : ℚ)

structure ObjectSchema where
  properties : List (Text × PropertySchema)
  required : List Text
  deriving DecidableEq, Repr

/-- `validate` does not throw. -/
def ObjectSchema.validate (schema : ObjectSchema) : Json → Bool
  | .object members =>
    (schema.required.all fun r => (members.lookup r).isSome) &&
      members.all fun member =>
        match schema.properties.lookup member.1 with
        | some property => property.validate member.2
        | none => true
  | _ => false

def packetSchema : ObjectSchema :=
  ⟨[("head".toList, .typed .number), ("id".toList, .typed .string)],
    ["head".toList, "id".toList]⟩

def dataPacketSchema : ObjectSchema :=
  ⟨[("tableid".toList, .typed .string), ("priority".toList, .within 0 3),
      ("instancetype".toList, .typed .string), ("data".toList, .typed .string)],
    ["tableid".toList, "priority".toList, "instancetype".toList, "data".toList]⟩

def instancePacketSchema : ObjectSchema :=
  ⟨[("instanceid".toList, .typed .string), ("algotype".toList, .within 0 3),
      ("data".toList, .typed .string)],
    ["instanceid".toList, "algotype".toList, "data".toList]⟩

/-- A required property that has a schema is there, and its schema holds of it. -/
theorem ObjectSchema.field_of_validate {schema : ObjectSchema} {value : Json} {key : Text}
    {property : PropertySchema} (h : schema.validate value = true)
    (hproperty : schema.properties.lookup key = some property) (hrequired : key ∈ schema.required) :
    ∃ member, value.field key = some member ∧ property.validate member = true := by
  cases value with
  | object members =>
    rw [ObjectSchema.validate, Bool.and_eq_true_iff, List.all_eq_true, List.all_eq_true] at h
    obtain ⟨member, hmember⟩ := Option.isSome_iff_exists.mp (h.1 key hrequired)
    have hin : (key, member) ∈ members := by
      obtain ⟨front, back, rfl, _⟩ := List.lookup_eq_some_iff.mp hmember
      simp
    have hvalid := h.2 (key, member) hin
    simp only [hproperty] at hvalid
    exact ⟨member, by simp [Json.field, hmember], hvalid⟩
  | null | boolean | numberInteger | numberUnsigned | numberFloat | string | array => cases h

theorem Json.truncate_mem {x : ℚ} {maximum : ℤ} (hlow : 0 ≤ x) (hhigh : x ≤ (maximum : ℚ)) :
    0 ≤ truncate x ∧ truncate x ≤ maximum := by
  have hfloor : truncate x = ⌊x⌋ := by
    rw [truncate, Int.tdiv_eq_ediv_of_nonneg (Rat.num_nonneg.mpr hlow), Rat.floor_def']
  rw [hfloor]
  constructor
  · exact Int.floor_nonneg.mpr hlow
  · exact Int.floor_le_iff.mpr (by linarith)

/-- What a bounded property converts to lies within the bounds, whatever its type is. -/
theorem PropertySchema.getInt_of_within {value : Json} {maximum i : ℤ} (hmax : 1 ≤ maximum)
    (hlarge : maximum < 2 ^ 31) (h : (within 0 maximum).validate value = true)
    (hi : value.getInt = some i) : 0 ≤ i ∧ i ≤ maximum := by
  cases value with
  | boolean b =>
    cases hi
    split_ifs <;> omega
  | numberInteger k =>
    simp only [validate, Json.number, Option.all_some, Bool.and_eq_true, decide_eq_true_eq,
      Int.cast_le] at h
    simp only [Json.getInt, Option.some.injEq] at hi
    rw [← hi, wrapInt_eq_self (by omega) (by omega)]
    exact h
  | numberUnsigned k =>
    simp only [validate, Json.number, Option.all_some, Bool.and_eq_true, decide_eq_true_eq] at h
    simp only [Json.getInt, Option.some.injEq] at hi
    rw [← hi]
    split_ifs at h
    · have hlow : 0 ≤ (k : ℤ) := by exact_mod_cast h.1
      have hhigh : (k : ℤ) ≤ maximum := by exact_mod_cast h.2
      rw [wrapInt_eq_self (by omega) (by omega)]
      exact ⟨hlow, hhigh⟩
    · have hlow : 0 ≤ (k : ℤ) - 2 ^ 64 := by exact_mod_cast h.1
      have hhigh : (k : ℤ) - 2 ^ 64 ≤ maximum := by exact_mod_cast h.2
      have hword : (2 ^ 64 : ℤ) = ((2 ^ 32 : ℕ) : ℤ) * 2 ^ 32 := by norm_num
      have hwrap : wrapInt (k - 2 ^ 64) = wrapInt k := by
        rw [hword, wrapInt, Int.sub_mul_bmod_self_left, wrapInt]
      rw [← hwrap, wrapInt_eq_self (by omega) (by omega)]
      exact ⟨hlow, hhigh⟩
  | numberFloat x =>
    simp only [validate, Json.number, Option.all_some, Bool.and_eq_true, decide_eq_true_eq,
      Int.cast_zero] at h
    simp only [Json.getInt] at hi
    split_ifs at hi
    cases hi
    exact Json.truncate_mem h.1 h.2
  | null | string | array | object => cases hi

end WorkerUnit
