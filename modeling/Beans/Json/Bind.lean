import Beans.Foundation.SlotFilling
import Beans.Json.Schema

/-!
# Typed decoding into slots

The portable engine measures the whole document first, then fills a table of
slots, one row a record and one slot a field.
-/

namespace Beans
namespace Json

/-- The words of a field: absent, null, or present. -/
inductive Slot where
  | empty
  | null
  | word (payload : UInt64)
  | text (payload : Text)

def Slot.isEmpty : Slot → Bool
  | empty => true
  | _ => false

structure Refusal where
  status : Status
  error : TypedError
  field : Option ℕ
deriving DecidableEq, Repr

/-- The slot of a field's value. -/
def typedStore (field : TypedField Kind) (value : Value) : Except TypedError Slot :=
  if value.isNull then
    if field.optional then .ok .null else .error .null
  else
    match field.kind with
    | .bool =>
      match value with
      | .bool flag => .ok (.word (if flag then 1 else 0))
      | _ => .error .type
    | .sint width => (typedInteger value false width.bits).map Slot.word
    | .uint width => (typedInteger value true width.bits).map Slot.word
    | .f32 =>
      match value.number? with
      | none => .error .type
      | some number =>
        if number.toFloat32.isFinite then
          .ok (.word number.toFloat32.toBits.toUInt64)
        else .error .range
    | .f64 =>
      match value.number? with
      | none => .error .type
      | some number => .ok (.word number.toBits)
    | .string =>
      match value with
      | .str text => .ok (.text text)
      | _ => .error .type
    | .struct _ => .error .type
    | .list _ => .error .type
    | .unsupported => .error .type

/-- The member loop, with the field it last touched. -/
def bindMembers (schema : Schema Kind) :
    Members → List Slot × Option ℕ → Except Refusal (List Slot × Option ℕ)
  | [], state => .ok state
  | (name, value) :: rest, (slots, last) =>
    match schema.findKey name with
    | none =>
      if schema.allowUnknown then bindMembers schema rest (slots, last)
      else .error ⟨.invalid, .unknown, last⟩
    | some index =>
      if !(slots.getD index .empty).isEmpty then
        .error ⟨.invalid, .duplicate, some index⟩
      else
        match schema.fields[index]? with
        | none => .error ⟨.type, .type, some index⟩
        | some field =>
          match typedStore field value with
          | .error code => .error ⟨code.status, code, some index⟩
          | .ok slot =>
            bindMembers schema rest (slots.set index slot, some index)

/-- The first field whose slot should have been filled. -/
def missingSlot (schema : Schema Kind) (slots : List Slot) : Option ℕ :=
  (List.range schema.fields.length).find? fun index =>
    match schema.fields[index]? with
    | none => false
    | some field =>
      !field.ignored && (slots.getD index .empty).isEmpty &&
        !(field.optional || field.hasDefault)

def typedObject (schema : Schema Kind) (object : Value) (last : Option ℕ) :
    Except Refusal (List Slot × Option ℕ) :=
  match object with
  | .obj members =>
    match bindMembers schema members
        (List.replicate schema.fields.length .empty, last) with
    | .error refusal => .error refusal
    | .ok (slots, last) =>
      match missingSlot schema slots with
      | some index => .error ⟨.invalid, .missing, some index⟩
      | none => .ok (slots, last)
  | _ => .error ⟨.type, .root, last⟩

/-- The rows of a list of records. -/
def bindRecords (schema : Schema Kind) :
    List Value → Option ℕ → Except Refusal (List (List Slot))
  | [], _ => .ok []
  | item :: rest, last =>
    match typedObject schema item last with
    | .error refusal => .error refusal
    | .ok (slots, last) =>
      match bindRecords schema rest last with
      | .error refusal => .error refusal
      | .ok rows => .ok (slots :: rows)

/-- Binds a parsed document under a depth limit. -/
def typedBind (schema : Schema Kind) (root : Value) (maximum : ℕ) :
    Except Refusal (List (List Slot)) :=
  if maximum = 0 ∨ root.withinDepth maximum 1 = false then
    .error ⟨.invalid, .depth, none⟩
  else if schema.rootArray then
    match root with
    | .arr items => bindRecords schema items none
    | _ => .error ⟨.type, .root, none⟩
  else
    match root with
    | .obj _ => (typedObject schema root none).map fun bound => [bound.1]
    | _ => .error ⟨.type, .root, none⟩

end Json
end Beans
