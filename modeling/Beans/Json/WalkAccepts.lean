import Beans.Json.WalkReads

/-!
# What the walk accepts of flat schemas

For a field without parts the walk stores the words the slot engine binds, laid
over the field's initial word.  It therefore accepts a record under the same
conditions, but places the members by its own order and lets a null through
below the depth limit.
-/

namespace Beans
namespace Json

open SlotFilling

variable {schema : Schema Kind} {field : TypedField Kind} {kind : Kind} {value : Value}
  {maximum depth index : ℕ}

/-- Every field is a scalar or a string, or an option of one. -/
def Schema.Flat (schema : Schema Kind) : Prop :=
  ∀ field ∈ schema.fields, field.kind.isFlat = true

/-- The bits of a word a kind writes. -/
def Kind.bits : Kind → ℕ
  | bool => 8
  | sint width => width.bits
  | uint width => width.bits
  | f32 => 32
  | _ => 64

/-- The storage a slot stands for, over an initial word. -/
def storedOf (kind : Kind) (initial : UInt64) : Slot → Stored
  | .word payload => .word (overlay kind.bits initial payload)
  | .text payload => .text 0 payload
  | _ => .word initial

/-- The cell a slot stands for. -/
def cellOf (schema : Schema Kind) (field : TypedField Kind) (slot : Slot) : Cell Stored :=
  match slot with
  | .empty => initCell schema field
  | .null => initCell schema field
  | slot =>
    if field.boxedOption then ⟨.box 0 (storedOf field.kind 0 slot), field.hasPresence⟩
    else
      ⟨storedOf field.kind (if schema.hasMissing then field.missingValue else 0) slot,
        field.hasPresence⟩

end Json
end Beans
