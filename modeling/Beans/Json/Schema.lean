import Beans.Json.Value

/-!
# Schemas of typed decoding

The descriptors the compiler emits for a struct type: the kinds and flags of
its fields and the open-addressing table of accepted keys.
-/

namespace Beans
namespace Json

/-- The widths of the integer types. -/
inductive Width where
  | w8
  | w16
  | w32
  | w64
deriving DecidableEq, Repr

def Width.bits : Width → ℕ
  | w8 => 8
  | w16 => 16
  | w32 => 32
  | w64 => 64

/-- A bucket of the key table.  Zero marks an empty bucket, a live one stores
the field index plus one. -/
structure Key where
  name : Text
  field : ℕ
deriving DecidableEq, Repr

/-- A field descriptor over the kinds `κ`. -/
structure TypedField (κ : Type) where
  kind : κ
  optional : Bool
  hasDefault : Bool
  ignored : Bool
  boxedOption : Bool
  /-- Whether the option keeps a presence byte beside its value. -/
  hasPresence : Bool
  primaryName : Text
  missingValue : UInt64

/-- A record to decode into: its fields, the table of their keys, and its options. -/
structure Schema (κ : Type) where
  fields : List (TypedField κ)
  keyMask : ℕ
  keys : List Key
  allowUnknown : Bool
  rootArray : Bool
  hasMissing : Bool
  recordSize : ℕ

/-- What a field or a list element holds. -/
inductive Kind where
  | unsupported
  | bool
  | sint (width : Width)
  | uint (width : Width)
  | f32
  | f64
  | string
  | struct (schema : Schema Kind)
  | list (element : Kind)

/-- The kinds without a nested value. -/
def Kind.isFlat : Kind → Bool
  | struct _ => false
  | list _ => false
  | _ => true

/-- The bytes an element takes in its record. -/
def Kind.size : Kind → ℕ
  | unsupported => 0
  | bool => 1
  | sint width => width.bits / 8
  | uint width => width.bits / 8
  | f32 => 4
  | f64 => 8
  | string => 8
  | struct schema => schema.recordSize
  | list _ => 8

namespace Schema

variable {κ : Type}

/-- A field a document must give. -/
def Required (field : TypedField κ) : Prop :=
  field.optional = false ∧ field.hasDefault = false ∧ field.ignored = false

instance (field : TypedField κ) : Decidable (Required field) :=
  inferInstanceAs (Decidable (_ ∧ _ ∧ _))

/-- The bucket a key starts from.  The mask keeps the sum from depending on the
width of its word. -/
def keyHash (mask : ℕ) (text : Text) : ℕ :=
  text.foldl (fun hash byte => ((hash <<< 5) + hash + byte.toNat) &&& mask) 0

/-- Probes from a bucket until the key or an empty bucket turns up. -/
def probeKey (schema : Schema κ) (text : Text) : ℕ → ℕ → Option ℕ
  | 0, _ => none
  | scans + 1, slot =>
    match schema.keys[slot]? with
    | none => none
    | some key =>
      if key.field = 0 then none
      else if key.name = text then some (key.field - 1)
      else probeKey schema text scans ((slot + 1) &&& schema.keyMask)

/-- The field a key names. -/
def findKey (schema : Schema κ) (text : Text) : Option ℕ :=
  probeKey schema text (schema.keyMask + 1) (keyHash schema.keyMask text)

end Schema

/-- What a typed decode can object to. -/
inductive TypedError where
  | root
  | unknown
  | duplicate
  | type
  | range
  | missing
  | null
  | depth
deriving DecidableEq, Repr

inductive Status where
  | ok
  | invalid
  | type
  | range
deriving DecidableEq, Repr

/-- The status a value's error code answers with. -/
def TypedError.status : TypedError → Status
  | range => .range
  | _ => .type

namespace Value

/-- The exact value of an integer literal. -/
def integer? : Value → Option ℤ
  | sint number => some number.toInt
  | uint number => some number.toNat
  | _ => none

/-- The double of a number. -/
def number? : Value → Option Float
  | sint number => some number.toFloat
  | uint number => some number.toFloat
  | real number => some number
  | _ => none

end Value

/-- The word of an integer in the range of its field. -/
def typedInteger (value : Value) (wantUnsigned : Bool) (bits : ℕ) :
    Except TypedError UInt64 :=
  if wantUnsigned then
    let checked (number : UInt64) : Except TypedError UInt64 :=
      if bits < 64 ∧ (1 <<< UInt64.ofNat bits) - 1 < number then .error .range
      else .ok number
    match value with
    | .uint number => checked number
    | .sint number =>
      if number < 0 then .error .range else checked number.toUInt64
    | _ => .error .type
  else
    let checked (number : Int64) : Except TypedError UInt64 :=
      if bits < 64 ∧ (number < -(1 <<< Int64.ofNat (bits - 1)) ∨
          (1 <<< Int64.ofNat (bits - 1)) - 1 < number) then .error .range
      else .ok number.toUInt64
    match value with
    | .sint number => checked number
    | .uint number =>
      if (9223372036854775807 : UInt64) < number then .error .range
      else checked number.toInt64
    | _ => .error .type

/-- The least integer a field of the width holds. -/
def Width.lowest (width : Width) (isUnsigned : Bool) : ℤ :=
  if isUnsigned then 0 else -2 ^ (width.bits - 1)

/-- The greatest integer a field of the width holds. -/
def Width.highest (width : Width) (isUnsigned : Bool) : ℤ :=
  if isUnsigned then 2 ^ width.bits - 1 else 2 ^ (width.bits - 1) - 1

/-- The integers a field of the width holds. -/
def Width.Holds (width : Width) (isUnsigned : Bool) (number : ℤ) : Prop :=
  width.lowest isUnsigned ≤ number ∧ number ≤ width.highest isUnsigned

/-- The signed reading of a small word. -/
theorem toInt_toInt64 {number : UInt64} (h : ¬ (9223372036854775807 : UInt64) < number) :
    number.toInt64.toInt = number.toNat := by
  rw [UInt64.lt_iff_toNat_lt] at h
  have hmax : (9223372036854775807 : UInt64).toNat = 9223372036854775807 := rfl
  have hlt : number.toNat < 2 ^ 63 := by omega
  calc number.toInt64.toInt = (Int64.ofNat number.toNat).toInt := by
        rw [← UInt64.toInt64_ofNat', UInt64.ofNat_toNat]
    _ = number.toNat := Int64.toInt_ofNat_of_lt hlt

/-- The unsigned reading of a non-negative word. -/
theorem toNat_toUInt64 {number : Int64} (h : ¬ number < 0) :
    (number.toUInt64.toNat : ℤ) = number.toInt := by
  have hnonneg : (0 : Int64) ≤ number := Int64.not_lt.mp h
  rw [Int64.toNat_toUInt64_of_le hnonneg]
  rw [Int64.le_iff_toInt_le, Int64.toInt_zero] at hnonneg
  exact Int.toNat_of_nonneg hnonneg

end Json
end Beans
