import Beans.Json.WalkOwned

/-!
# What the walk reads

Up to the numbers of its allocations, what the walk stores for a value depends
on the value alone.  Given that for the values of an object's members, the
member loop is one pass over the places of the members, and its cells are the
ones that pass fills.
-/

namespace Beans
namespace Json

open SlotFilling

variable {schema : Schema Kind} {loop : Loop} {maximum depth : ℕ}
  {R : Kind → Value → UInt64 → Option Stored}

mutual

def Stored.plain : Stored → Stored
  | .word bits => .word bits
  | .text _ bytes => .text 0 bytes
  | .box _ content => .box 0 content.plain
  | .record cells => .record (plainCells cells)
  | .list _ items => .list 0 (plainItems items)

def plainCells : List (Cell Stored) → List (Cell Stored)
  | [] => []
  | ⟨value, present⟩ :: rest => ⟨value.plain, present⟩ :: plainCells rest

def plainItems : List Stored → List Stored
  | [] => []
  | item :: rest => item.plain :: plainItems rest

end

def Cell.plain (cell : Cell Stored) : Cell Stored :=
  ⟨cell.value.plain, cell.present⟩

/-- The run over a value ends with what the reading says. -/
def Agrees (result : Outcome × Stored × Progress) : Option Stored → Prop
  | some stored => result.1 = .done ∧ result.2.1.plain = stored
  | none => result.1 ≠ .done ∧ result.1 ≠ .status .ok

/-- The cell of a field in a fresh record. -/
def initCell (schema : Schema Kind) (field : TypedField Kind) : Cell Stored :=
  ⟨.word (if schema.hasMissing then field.missingValue else 0), false⟩

variable {index : ℕ} {loop' : Loop} {name : Text}

/-- The cells of the fields taken. -/
def Loop.view (schema : Schema Kind) (loop : Loop) (index : ℕ) : Option (Cell Stored) :=
  if index < schema.fields.length ∧ loop.taken index = true then
    loop.cells[index]?.map Cell.plain
  else none

/-- Skipped members are measured where a field's value would be. -/
def skips (schema : Schema Kind) (maximum depth : ℕ) (value : Value) : Bool :=
  schema.allowUnknown && value.withinDepth maximum (depth + 1)

end Json
end Beans
