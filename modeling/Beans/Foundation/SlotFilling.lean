import Mathlib

/-!
# Filling named slots in one pass

A pass over a list of values, each meant for a numbered slot or for none.  A
slot is filled once; a value its slot does not take, a second value for a slot,
or a stray value that may not be skipped ends the pass.  The outcome depends
only on which value meets which slot, not on their order.
-/

namespace Beans
namespace SlotFilling

variable {ν σ : Type*}

/-- The slots named, in order. -/
def hits (placed : List (Option ℕ × ν)) : List ℕ :=
  placed.filterMap Prod.fst

/-- The first value meant for a slot. -/
def valueAt (placed : List (Option ℕ × ν)) (slot : ℕ) : Option ν :=
  (placed.find? fun item => item.1 == some slot).map Prod.snd

/-- One pass from the slots already `taken`. -/
def fill (skip : ν → Bool) (store : ℕ → ν → Option σ) :
    List (Option ℕ × ν) → (ℕ → Option σ) → Option (ℕ → Option σ)
  | [], taken => some taken
  | (none, value) :: rest, taken =>
    if skip value then fill skip store rest taken else none
  | (some slot, value) :: rest, taken =>
    if (taken slot).isSome then none
    else
      match store slot value with
      | none => none
      | some stored =>
        fill skip store rest (Function.update taken slot (some stored))

/-- What lets a pass go through. -/
structure Fills (skip : ν → Bool) (store : ℕ → ν → Option σ)
    (placed : List (Option ℕ × ν)) : Prop where
  skips : ∀ value, (none, value) ∈ placed → skip value = true
  once : (hits placed).Nodup
  stores : ∀ slot value, (some slot, value) ∈ placed →
    (store slot value).isSome = true

section Hits

variable {placed : List (Option ℕ × ν)} {slot : ℕ} {value : ν}

@[simp] theorem hits_nil : hits ([] : List (Option ℕ × ν)) = [] :=
  rfl

@[simp] theorem valueAt_nil : valueAt ([] : List (Option ℕ × ν)) slot = none :=
  rfl

end Hits

variable {skip : ν → Bool} {store : ℕ → ν → Option σ}

/-- The slots after a pass. -/
def filled (store : ℕ → ν → Option σ) (placed : List (Option ℕ × ν))
    (taken : ℕ → Option σ) (slot : ℕ) : Option σ :=
  match valueAt placed slot with
  | none => taken slot
  | some value => store slot value

theorem Fills.nil : Fills skip store [] where
  skips := fun _ h => absurd h List.not_mem_nil
  once := List.nodup_nil
  stores := fun _ _ h => absurd h List.not_mem_nil

end SlotFilling
end Beans
