import Beans.Json.Bind

/-!
# What a document must be

The declarative side of typed decoding for flat schemas: which values a field
takes, which members make a record, and which documents a depth limit lets
through.  Binding into slots accepts exactly these documents.
-/

namespace Beans
namespace Json

open SlotFilling

/-- The values a kind of field takes. -/
def FitsKind : Kind → Value → Prop
  | .bool, value => ∃ flag, value = .bool flag
  | .sint width, value =>
    ∃ number, value.integer? = some number ∧ width.Holds false number
  | .uint width, value =>
    ∃ number, value.integer? = some number ∧ width.Holds true number
  | .f32, value =>
    ∃ number, value.number? = some number ∧ number.toFloat32.isFinite = true
  | .f64, value => ∃ number, value.number? = some number
  | .string, value => ∃ text, value = .str text
  | .struct _, _ => False
  | .list _, _ => False
  | .unsupported, _ => False

/-- A field takes null when it is optional, and otherwise a value of its kind. -/
def Fits (field : TypedField Kind) (value : Value) : Prop :=
  if value.isNull then field.optional = true else FitsKind field.kind value

/-- Each member's value beside the field its key names. -/
abbrev Places : Type := List (Option ℕ × Value)

/-- The members placed by the key table. -/
def tablePlaces (schema : Schema Kind) (members : Members) : Places :=
  members.map fun member => (schema.findKey member.1, member.2)

/-- The members make a record: every key is known or allowed, no field occurs
twice, every value fits, and every required field is there. -/
structure RecordAccepts (schema : Schema Kind) (placed : Places) : Prop where
  known : ∀ value, (none, value) ∈ placed → schema.allowUnknown = true
  once : (hits placed).Nodup
  fits : ∀ index value, (some index, value) ∈ placed →
    ∃ field, schema.fields[index]? = some field ∧ Fits field value
  complete : ∀ index field, schema.fields[index]? = some field →
    Schema.Required field → index ∈ hits placed

/-- The records of a root of the required shape. -/
def recordsOf (schema : Schema Kind) (root : Value) : Option (List Value) :=
  if schema.rootArray then
    match root with
    | .arr items => some items
    | _ => none
  else
    match root with
    | .obj _ => some [root]
    | _ => none

/-- The document has the required shape and its objects are records, with the
members placed by `places`. -/
def DocumentAccepts (schema : Schema Kind) (places : Members → Places)
    (root : Value) : Prop :=
  ∃ records, recordsOf schema root = some records ∧
    ∀ record ∈ records, ∃ members, record = .obj members ∧
      RecordAccepts schema (places members)

/-- The documents to accept under a depth limit. -/
def Acceptable (schema : Schema Kind) (root : Value) (maximum : ℕ) : Prop :=
  root.height ≤ maximum ∧ DocumentAccepts schema (tablePlaces schema) root

variable {schema : Schema Kind} {field : TypedField Kind} {value : Value}
  {members : Members} {slots : List Slot} {last : Option ℕ} {index : ℕ}

end Json
end Beans
