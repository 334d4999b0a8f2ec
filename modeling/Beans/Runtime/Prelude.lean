import Mathlib

/-!
# What every runtime operation shares

A runtime operation either returns or panics.  A panic carries the report the
program prints: its message and the source position the operation was called
from.  The position travels as one value because the runtime only ever passes
the line and the column on together.

Raw map keys and decimal coefficients are hashed by one mixing function.

A `List<T>` is its elements in order.  Reads, writes, removals and slices check
their bounds before they touch the storage and panic with the offending index
and the length; growing and reserving never change what is stored, so capacity
is not modelled.
-/

namespace Beans

universe u

/-- The `line, col` pair every panicking runtime entry takes. -/
structure Site where
  line : Int
  col : Int
deriving DecidableEq, Repr

structure Panic where
  message : String
  site : Site
deriving DecidableEq, Repr

def beansPanic {α : Type*} (message : String) (site : Site) :
    Except Panic α :=
  .error ⟨message, site⟩

/-- A step that returned hands its value to the rest. -/
@[simp] theorem ok_bind {α β : Type u} (a : α) (f : α → Except Panic β) :
    (Except.ok a >>= f) = f a := rfl

/-- The computation returned a value instead of panicking. -/
def Returns {α : Type*} (x : Except Panic α) : Prop := ∃ a, x = .ok a

def beansMix64 (x : UInt64) : UInt64 :=
  let x := x ^^^ (x >>> 32)
  let x := x * 0xd6e8feb86659fd93
  x ^^^ (x >>> 32)

variable {α : Type u}

/-- The report of `beans_panic_index`. -/
def indexMessage (i len : ℤ) : String :=
  "list index " ++ toString i ++ " out of range (len " ++ toString len ++ ")"

/-- The report of `beans_list_slice_check`. -/
def sliceMessage (first last len : ℤ) : String :=
  "list slice " ++ toString first ++ ".." ++ toString last ++
    " out of range (len " ++ toString len ++ ")"

/-- `l[i]` read at a source position. -/
def listGet (l : List α) (i : ℤ) (site : Site) : Except Panic α :=
  match i with
  | .ofNat n =>
    match l[n]? with
    | some a => .ok a
    | none => beansPanic (indexMessage i l.length) site
  | .negSucc _ => beansPanic (indexMessage i l.length) site

/-- `l[i] = a`. -/
def listSet (l : List α) (i : ℤ) (a : α) (site : Site) :
    Except Panic (List α) :=
  if i < 0 ∨ i ≥ l.length then beansPanic (indexMessage i l.length) site
  else .ok (l.set i.toNat a)

/-- `beans_list_remove`: the removed element and the list without it. -/
def listRemove (l : List α) (i : ℤ) (site : Site) :
    Except Panic (α × List α) := do
  let a ← listGet l i site
  return (a, l.eraseIdx i.toNat)

/-- `beans_list_slice`. -/
def listSlice (l : List α) (first last : ℤ) (site : Site) :
    Except Panic (List α) :=
  if first < 0 ∨ last < first ∨ last > l.length then
    beansPanic (sliceMessage first last l.length) site
  else .ok ((l.drop first.toNat).take (last - first).toNat)

variable {i : ℤ} {l : List α} {n : ℕ}

/-- A read inside the bounds answers the element there. -/
theorem listGet_ok {a : α} (site : Site)
    (hi : i = n) (ha : l[n]? = some a) :
    listGet l i site = .ok a := by
  subst hi
  simp only [listGet, ha]

/-- A write inside the bounds replaces one element. -/
theorem listSet_ok (a : α) (site : Site)
    (hi : i = n) (hn : n < l.length) :
    listSet l i a site = .ok (l.set n a) := by
  subst hi
  have hin : ¬((n : ℤ) < 0 ∨ (n : ℤ) ≥ l.length) := by omega
  simp only [listSet, hin, if_false, Int.toNat_natCast]

/-- A removal inside the bounds. -/
theorem listRemove_ok {a : α} (site : Site)
    (hi : i = n) (ha : l[n]? = some a) :
    listRemove l i site = .ok (a, l.eraseIdx n) := by
  subst hi
  simp only [listRemove, listGet_ok site rfl ha, ok_bind, Int.toNat_natCast]
  rfl

/-- A slice inside the bounds. -/
theorem listSlice_ok {m : ℕ} {first last : ℤ} (site : Site)
    (hm : first = m) (hn : last = n) (hmn : m ≤ n) (hlen : n ≤ l.length) :
    listSlice l first last site = .ok ((l.drop m).take (n - m)) := by
  subst hm hn
  have hin : ¬((m : ℤ) < 0 ∨ (n : ℤ) < m ∨ (n : ℤ) > l.length) := by omega
  have hlenEq : ((n : ℤ) - m).toNat = n - m := by omega
  simp only [listSlice, hin, if_false, Int.toNat_natCast, hlenEq]

end Beans
