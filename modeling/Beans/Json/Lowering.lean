import Beans.Json.Bind
import Beans.Json.KeyTable
import Beans.Json.Walk

/-!
# The two lowerings of a typed decode

Generated code reads a decoded struct either from storage the walk has filled or
from the slots the portable engine has bound.  Beside them stands the meaning of
a decode: a value for each field, by its type, its names and its default.
-/

namespace Beans
namespace Json

open HirType

/-- The integer in the low bits of a word. -/
def truncated (width : Width) (isUnsigned : Bool) (word : UInt64) : ℤ :=
  if isUnsigned then (word.toNat % 2 ^ width.bits : ℕ)
  else Int.bmod word.toNat (2 ^ width.bits)

mutual

/-- The value in a stretch of storage. -/
def loadPayload : HirType → Stored → Datum
  | type, .word word =>
    match type with
    | .bool => .bool (word.toNat % 2 = 1)
    | .int width isUnsigned => .int (truncated width isUnsigned word)
    | .f32 => .f32 (word.toNat % 2 ^ 32)
    | .float => .float word
    | _ => .zero
  | _, .text _ bytes => .string bytes
  | type, .box _ content => loadPayload type content
  | type, .record cells =>
    match type with
    | .struct declaration => .record (loadFields declaration.fields cells)
    | _ => .zero
  | type, .list _ items =>
    match type with
    | .list element => .list (loadItems element items)
    | _ => .zero

/-- The values of a record's fields.  A null pointer or a clear presence byte is
an absent option. -/
def loadFields : List (HirField HirType) → List (Cell Stored) → List Datum
  | field :: fields, ⟨stored, present⟩ :: cells =>
    (match field.type with
    | .option payload =>
      if payload.isReference then
        match stored with
        | .word _ => .absent
        | stored => .present (loadPayload payload stored)
      else if present then .present (loadPayload payload stored)
      else .absent
    | type => loadPayload type stored) :: loadFields fields cells
  | _, _ => []

def loadItems : HirType → List Stored → List Datum
  | _, [] => []
  | element, item :: items => loadPayload element item :: loadItems element items

end

/-- A member gives the field. -/
def FieldSpec.names (spec : FieldSpec) (name : Text) : Bool :=
  !spec.ignored && spec.accepted.contains name

/-- Every key is known or allowed, and no two keys give one field. -/
def keysFit (fields : List (HirField HirType)) (allowUnknown : Bool)
    (members : Members) : Bool :=
  (members.all fun member =>
    allowUnknown || fields.any fun field => field.spec.names member.1) &&
  fields.all fun field =>
    decide ((members.filter fun member => field.spec.names member.1).length ≤ 1)

/-- The value of a field the document does not give. -/
def missingDatum (field : HirField HirType) : Option Datum :=
  if field.spec.hasDefault then some field.spec.defaultValue
  else if field.type.isOption then some .absent
  else none

mutual

/-- The meaning of a value at a type. -/
def decodeType : HirType → Value → Option Datum
  | .bool, value =>
    match value with
    | .bool flag => some (.bool flag)
    | _ => none
  | .int width isUnsigned, value =>
    value.integer?.bind fun number =>
      if width.lowest isUnsigned ≤ number ∧ number ≤ width.highest isUnsigned then
        some (.int number)
      else none
  | .f32, value =>
    value.number?.bind fun number =>
      if number.toFloat32.isFinite then some (.f32 number.toFloat32.toBits.toNat)
      else none
  | .float, value => value.number?.map fun number => .float number.toBits
  | .string, value =>
    match value with
    | .str text => some (.string text)
    | _ => none
  | .option payload, value =>
    if value.isNull then some .absent else (decodeType payload value).map .present
  | .list element, value =>
    match value with
    | .arr items => (items.mapM (decodeType element)).map .list
    | _ => none
  | .struct ⟨_, allowUnknown, fields⟩, value =>
    match value with
    | .obj members =>
      if keysFit fields allowUnknown members then
        (decodeFields fields members).map .record
      else none
    | _ => none
  | .other _ _, _ => none

/-- The meaning of each field among the members. -/
def decodeFields : List (HirField HirType) → Members → Option (List Datum)
  | [], _ => some []
  | ⟨spec, type⟩ :: rest, members =>
    (if spec.ignored then some spec.defaultValue
    else
      match members.find? fun member => spec.names member.1 with
      | some member => decodeType type member.2
      | none => missingDatum ⟨spec, type⟩).bind fun datum =>
        (decodeFields rest members).map (datum :: ·)

end

end Json
end Beans
