import Mathlib

/-!
# JSON values

Values as a JSON parser returns them.  A number is kept as an integer of 64 bits where it is written
as one and fits, and as a double everywhere else; the double is represented by the rational it
stands for.  The accessors of integers have no result for a double, not even for one that is
integral.
-/

/-- A JSON number. -/
inductive JsonNumber where
  | posInt (n : BitVec 64)
  | negInt (n : Int64) (neg : n < 0)
  | float (q : ℚ)

namespace JsonNumber

/-- The number itself. -/
def value : JsonNumber → ℚ
  | .posInt n => n.toNat
  | .negInt n _ => n.toInt
  | .float q => q

def asU64 : JsonNumber → Option (BitVec 64)
  | .posInt n => some n
  | .negInt _ _ => none
  | .float _ => none

def asI64 : JsonNumber → Option Int64
  | .posInt n => if n.toNat < 2 ^ 63 then some (Int64.ofBitVec n) else none
  | .negInt n _ => some n
  | .float _ => none

variable {x : JsonNumber}

lemma value_of_asU64 {n : BitVec 64} (h : x.asU64 = some n) : x.value = n.toNat := by
  cases x with
  | posInt m =>
    obtain rfl := Option.some.inj h
    rfl
  | negInt m neg => cases h
  | float q => cases h

lemma value_of_asI64 {n : Int64} (h : x.asI64 = some n) : x.value = n.toInt := by
  cases x with
  | posInt m =>
    rw [asI64, Option.ite_none_right_eq_some] at h
    obtain ⟨hlt, hn⟩ := h
    obtain rfl := Option.some.inj hn
    have hint : (Int64.ofBitVec m).toInt = m.toNat := by
      rw [Int64.toInt_ofBitVec, BitVec.toInt_eq_toNat_of_lt (by omega)]
    rw [value, hint]
    rfl
  | negInt m neg =>
    obtain rfl := Option.some.inj h
    rfl
  | float q => cases h

/-- An integer as a parser returns it. -/
def ofInt64 (n : Int64) : JsonNumber := if h : n < 0 then .negInt n h else .posInt n.toBitVec

lemma asI64_ofInt64 (n : Int64) : (ofInt64 n).asI64 = some n := by
  unfold ofInt64
  split
  · rfl
  · rename_i hneg
    rw [Int64.lt_iff_toInt_lt] at hneg
    have hint : n.toInt = n.toBitVec.toInt := rfl
    rw [BitVec.toInt_eq_toNat_cond] at hint
    have hlt : n.toBitVec.toNat < 2 ^ 63 := by
      change ¬n.toInt < 0 at hneg
      split at hint <;> omega
    exact if_pos hlt

end JsonNumber

/-- A JSON value. -/
inductive JsonValue where
  | null
  | bool (b : Bool)
  | number (x : JsonNumber)
  | string (s : String)
  | array (items : List JsonValue)
  | object (fields : List (String × JsonValue))

namespace JsonValue

/-- The field of an object; no other value has fields. -/
def get : JsonValue → String → Option JsonValue
  | .object fields, key => fields.lookup key
  | _, _ => none

def asNumber : JsonValue → Option JsonNumber
  | .number x => some x
  | _ => none

def asU64 (v : JsonValue) : Option (BitVec 64) := v.asNumber.bind JsonNumber.asU64

def asI64 (v : JsonValue) : Option Int64 := v.asNumber.bind JsonNumber.asI64

def asStr : JsonValue → Option String
  | .string s => some s
  | _ => none

def asArray : JsonValue → Option (List JsonValue)
  | .array items => some items
  | _ => none

/-- The number that a value is. -/
def value (v : JsonValue) : Option ℚ := v.asNumber.map JsonNumber.value

variable {v : JsonValue}

lemma value_of_asU64 {n : BitVec 64} (h : v.asU64 = some n) : v.value = some (n.toNat : ℚ) := by
  obtain ⟨x, hx, hn⟩ := Option.bind_eq_some_iff.mp h
  rw [value, hx, Option.map_some, JsonNumber.value_of_asU64 hn]

lemma value_of_asI64 {n : Int64} (h : v.asI64 = some n) : v.value = some (n.toInt : ℚ) := by
  obtain ⟨x, hx, hn⟩ := Option.bind_eq_some_iff.mp h
  rw [value, hx, Option.map_some, JsonNumber.value_of_asI64 hn]

end JsonValue
