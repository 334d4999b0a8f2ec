import Beans.Json.WalkAccepts

/-!
# The reading of a value

A run of the walk over a value ends the same way whatever was allocated before
it.  So every value has one reading at a kind, nested records and lists
included, and the readings of containers are put together from those of their
parts.
-/

namespace Beans
namespace Json

open SlotFilling

variable {schema : Schema Kind} {element kind : Kind} {value : Value} {items : List Value}
  {members : Members} {maximum depth : ℕ} {bits : UInt64}

/-- What the walk stores for a value, up to allocation numbers. -/
def readValue (maximum depth : ℕ) (kind : Kind) (value : Value) (bits : UInt64) :
    Option Stored :=
  match valueDirect maximum kind value (.word bits) depth ⟨none, none, 0⟩ with
  | (.done, stored, _) => some stored.plain
  | _ => none

theorem readValue_eq {reading : Option Stored}
    (h : Agrees (valueDirect maximum kind value (.word bits) depth ⟨none, none, 0⟩)
      reading) :
    readValue maximum depth kind value bits = reading := by
  unfold readValue
  generalize valueDirect maximum kind value (.word bits) depth ⟨none, none, 0⟩ = result at h
  obtain ⟨outcome, stored, progress⟩ := result
  cases reading with
  | none =>
    cases outcome with
    | done => exact absurd rfl h.1
    | _ => rfl
  | some reading =>
    obtain ⟨rfl, rfl⟩ := h
    rfl

/-- Every run over the value agrees with one reading. -/
def Settled (maximum : ℕ) (value : Value) : Prop :=
  ∀ kind depth bits, ∃ reading, ∀ progress,
    Agrees (valueDirect maximum kind value (.word bits) depth progress) reading

theorem Settled.agrees (h : Settled maximum value) (kind : Kind) (depth : ℕ)
    (bits : UInt64) (progress : Progress) :
    Agrees (valueDirect maximum kind value (.word bits) depth progress)
      (readValue maximum depth kind value bits) := by
  obtain ⟨reading, hreading⟩ := h kind depth bits
  rw [readValue_eq (hreading _)]
  exact hreading progress

end Json
end Beans
