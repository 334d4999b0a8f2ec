import Mathlib

/-!
# Strings and the errors that carry them

A string is the list of its bytes.  Reading outside of it panics; the operations
that read answer `none` there.  An error pairs the message a caller sees with a
kind it can branch on.
-/

namespace Beans

abbrev Text := List UInt8

instance : LawfulBEq Text := inferInstance

/-- A literal, every character of which is one byte. -/
def ascii (s : String) : Text :=
  s.toList.map fun c => c.toNat.toUInt8

/-- `err(msg, kind)`. -/
structure BeansError where
  msg : Text
  kind : Text
deriving DecidableEq

abbrev Result (α : Type*) := Except BeansError α

def err {α : Type*} (msg : Text) (kind : String) : Result α :=
  .error ⟨msg, ascii kind⟩

namespace Text

/-- The decimal digits of a natural number. -/
def ofNat (n : ℕ) : Text :=
  if n = 0 then [48]
  else (Nat.digits 10 n).reverse.map fun d => (48 + d).toUInt8

/-- What `"{value}"` prints. -/
def ofInt (value : ℤ) : Text :=
  if value < 0 then 45 :: ofNat value.natAbs else ofNat value.natAbs

theorem toNat_digit {d : ℕ} (h : d < 10) :
    ((48 + d).toUInt8).toNat = 48 + d := by
  rw [UInt8.toNat_ofNat']
  omega

theorem ofNat_of_ne_zero {n : ℕ} (h : n ≠ 0) :
    ofNat n = (Nat.digits 10 n).reverse.map fun d => (48 + d).toUInt8 :=
  if_neg h

/-- A numeral has digits only. -/
theorem mem_ofNat {n : ℕ} {c : UInt8} (h : c ∈ ofNat n) :
    48 ≤ c.toNat ∧ c.toNat ≤ 57 := by
  by_cases hn : n = 0
  · rw [hn] at h
    rcases List.mem_singleton.mp h with rfl
    exact ⟨by decide, by decide⟩
  · rw [ofNat_of_ne_zero hn] at h
    obtain ⟨d, hd, rfl⟩ := List.mem_map.mp h
    have := Nat.digits_lt_base (by decide) (List.mem_reverse.mp hd)
    rw [toNat_digit this]
    omega

/-- The number the digits are read back as. -/
def digitsValue (text : Text) : ℕ :=
  Nat.ofDigits 10 (text.reverse.map fun c => c.toNat - 48)

theorem digitsValue_ofNat (n : ℕ) : digitsValue (ofNat n) = n := by
  by_cases hn : n = 0
  · rw [hn]
    rfl
  · rw [ofNat_of_ne_zero hn]
    unfold digitsValue
    rw [← List.map_reverse, List.reverse_reverse, List.map_map]
    have hback : ∀ d ∈ Nat.digits 10 n,
        ((fun c : UInt8 => c.toNat - 48) ∘ fun d => (48 + d).toUInt8) d =
          id d := by
      intro d hd
      dsimp only [Function.comp]
      rw [toNat_digit (Nat.digits_lt_base (by decide) hd)]
      exact Nat.add_sub_cancel_left 48 d
    rw [List.map_congr_left hback, List.map_id, Nat.ofDigits_digits]

theorem ofNat_ne_nil (n : ℕ) : ofNat n ≠ [] := by
  intro h
  have hvalue := digitsValue_ofNat n
  by_cases hn : n = 0
  · rw [hn] at h
    cases h
  · rw [h] at hvalue
    exact hn hvalue.symm

theorem ofNat_injective : Function.Injective ofNat :=
  Function.LeftInverse.injective digitsValue_ofNat

theorem ofInt_injective : Function.Injective ofInt := by
  have hsign : ∀ n m : ℕ, 45 :: ofNat n ≠ ofNat m := by
    intro n m h
    have := mem_ofNat (n := m) (h ▸ List.mem_cons_self)
    revert this
    decide
  intro a b h
  unfold ofInt at h
  split_ifs at h with ha hb hb
  · have := ofNat_injective (List.cons.inj h).2
    omega
  · exact absurd h (hsign _ _)
  · exact absurd h.symm (hsign _ _)
  · have := ofNat_injective h
    omega

end Text
end Beans
