import Mathlib

/-!
# Machine words as natural numbers

Facts about 64-bit and 32-bit words that multi-word arithmetic keeps using:
how a wrapped sum reveals its carry, how a word is cut into two halves and how
two halves are glued back together.  Every fact is stated on the natural number
a word denotes, so that later proofs are linear arithmetic.

A wrapping operation on 64-bit signed words is the operation on the integers
they denote as long as the result fits, and is that result reduced to the word
whether it fits or not.
-/

namespace Beans

namespace Words

/-- The wrapped sum is smaller than an operand exactly when it carried. -/
theorem add_lt_left_iff (a b : UInt64) :
    a + b < a ↔ 2 ^ 64 ≤ a.toNat + b.toNat := by
  rw [UInt64.lt_iff_toNat_lt, UInt64.toNat_add]
  have ha := a.toNat_lt
  have hb := b.toNat_lt
  omega

/-- A sum together with the carry its comparison reveals. -/
theorem add_carry (a b : UInt64) :
    (a + b).toNat + 2 ^ 64 * (if a + b < a then 1 else 0) =
      a.toNat + b.toNat := by
  have ha := a.toNat_lt
  have hb := b.toNat_lt
  simp only [add_lt_left_iff, UInt64.toNat_add]
  split <;> omega

/-- A difference together with the borrow its comparison reveals. -/
theorem sub_borrow (a b : UInt64) :
    (a - b).toNat + b.toNat =
      a.toNat + 2 ^ 64 * (if a < b then 1 else 0) := by
  have ha := a.toNat_lt
  have hb := b.toNat_lt
  simp only [UInt64.lt_iff_toNat_lt, UInt64.toNat_sub]
  split <;> omega

theorem toNat_add_of_lt {a b : UInt64} (h : a.toNat + b.toNat < 2 ^ 64) :
    (a + b).toNat = a.toNat + b.toNat := by
  rw [UInt64.toNat_add, Nat.mod_eq_of_lt h]

theorem toNat_mul_of_lt {a b : UInt64} (h : a.toNat * b.toNat < 2 ^ 64) :
    (a * b).toNat = a.toNat * b.toNat := by
  rw [UInt64.toNat_mul, Nat.mod_eq_of_lt h]

/-- The mask that keeps the low half of a word. -/
def lowMask : UInt64 := 0xffffffff

/-- The low half of a word. -/
theorem toNat_and_low (a : UInt64) :
    (a &&& lowMask).toNat = a.toNat % 2 ^ 32 := by
  rw [UInt64.toNat_and]
  exact Nat.and_two_pow_sub_one_eq_mod a.toNat 32

/-- The high half of a word. -/
theorem toNat_shiftRight_half (a : UInt64) :
    (a >>> 32).toNat = a.toNat / 2 ^ 32 := by
  rw [UInt64.toNat_shiftRight]
  exact Nat.shiftRight_eq_div_pow a.toNat 32

/-- The low half of a word, moved to the high half. -/
theorem toNat_shiftLeft_half (a : UInt64) :
    (a <<< 32).toNat = a.toNat % 2 ^ 32 * 2 ^ 32 := by
  rw [UInt64.toNat_shiftLeft]
  change a.toNat <<< 32 % 2 ^ 64 = _
  rw [Nat.shiftLeft_eq]
  omega

theorem toNat_shiftLeft_half_of_lt {a : UInt64} (h : a.toNat < 2 ^ 32) :
    (a <<< 32).toNat = a.toNat * 2 ^ 32 := by
  rw [toNat_shiftLeft_half, Nat.mod_eq_of_lt h]

/-- Or-ing a small word under a shifted one is addition. -/
theorem toNat_or_of_lt {a b : UInt64} {k : ℕ} (ha : 2 ^ k ∣ a.toNat) (hb : b.toNat < 2 ^ k) :
    (a ||| b).toNat = a.toNat + b.toNat := by
  obtain ⟨q, hq⟩ := ha
  rw [UInt64.toNat_or, hq, Nat.mul_comm, ← Nat.shiftLeft_eq]
  exact (Nat.shiftLeft_add_eq_or_of_lt hb q).symm

/-- Two halves glued into one word, the high half first. -/
theorem toNat_join_halves {a b : UInt64} (ha : a.toNat < 2 ^ 32) (hb : b.toNat < 2 ^ 32) :
    (a <<< 32 ||| b).toNat = a.toNat * 2 ^ 32 + b.toNat := by
  have hs := toNat_shiftLeft_half_of_lt ha
  rw [toNat_or_of_lt (k := 32) (by rw [hs]; exact Nat.dvd_mul_left _ _) hb, hs]

/-- The complement of a word. -/
theorem toNat_not (a : UInt64) :
    (~~~a).toNat = 2 ^ 64 - 1 - a.toNat := by
  simp [UInt64.toNat_not]

end Words

namespace SignedWords

/-- The integers that a word denotes. -/
abbrev Fits (z : ℤ) : Prop :=
  -2 ^ 63 ≤ z ∧ z < 2 ^ 63

theorem fits_toInt (x : Int64) : Fits x.toInt :=
  ⟨x.le_toInt, x.toInt_lt⟩

theorem bmod_of_fits {z : ℤ} (h : Fits z) :
    z.bmod (2 ^ 64) = z :=
  Int.bmod_eq_of_le h.1 h.2

/-- A word is determined by the integer it denotes. -/
theorem eq_of_toInt {x y : Int64} (h : x.toInt = y.toInt) :
    x = y :=
  Int64.toInt_inj.mp h

section Operations

variable {x y : Int64} {a b : ℤ}

theorem toInt_add (hx : x.toInt = a) (hy : y.toInt = b) (h : Fits (a + b)) :
    (x + y).toInt = a + b := by
  rw [Int64.toInt_add, hx, hy, bmod_of_fits h]

theorem toInt_sub (hx : x.toInt = a) (hy : y.toInt = b) (h : Fits (a - b)) :
    (x - y).toInt = a - b := by
  rw [Int64.toInt_sub, hx, hy, bmod_of_fits h]

theorem toInt_mul (hx : x.toInt = a) (hy : y.toInt = b) (h : Fits (a * b)) :
    (x * y).toInt = a * b := by
  rw [Int64.toInt_mul, hx, hy, bmod_of_fits h]

/-- The machine's division is the mathematical one from zero on. -/
theorem toInt_div (hx : x.toInt = a) (hy : y.toInt = b) (ha : 0 ≤ a) (hb : 0 < b) :
    (x / y).toInt = a / b := by
  have hne : y ≠ -1 := by
    rintro rfl
    have hminus : (-1 : Int64).toInt = -1 := rfl
    omega
  rw [Int64.toInt_div_of_ne_right x y hne, hx, hy,
    Int.tdiv_eq_ediv_of_nonneg ha]

theorem toInt_mod (hx : x.toInt = a) (hy : y.toInt = b) (ha : 0 ≤ a) :
    (x % y).toInt = a % b := by
  rw [Int64.toInt_mod, hx, hy, Int.tmod_eq_emod_of_nonneg ha]

/-- A product that wrapped is undone by subtracting it from a word near it. -/
theorem toInt_sub_mul {z : ℤ} (hx : x.toInt = a) (hy : y.toInt = b) {w : Int64}
    (hw : w.toInt = z) (h : Fits (z - a * b)) :
    (w - x * y).toInt = z - a * b := by
  rw [Int64.toInt_sub, Int64.toInt_mul, hx, hy, hw, Int.sub_bmod_bmod,
    bmod_of_fits h]

/-- A product that wrapped is undone by the addition that brings it back. -/
theorem toInt_mul_add {z : ℤ} (hx : x.toInt = a) (hy : y.toInt = b) {w : Int64}
    (hw : w.toInt = z) (h : Fits (a * b + z)) :
    (x * y + w).toInt = a * b + z := by
  rw [Int64.toInt_add, Int64.toInt_mul, hx, hy, hw, Int.bmod_add_bmod,
    bmod_of_fits h]

theorem lt_iff (hx : x.toInt = a) (hy : y.toInt = b) :
    x < y ↔ a < b := by
  rw [Int64.lt_iff_toInt_lt, hx, hy]

theorem le_iff (hx : x.toInt = a) (hy : y.toInt = b) :
    x ≤ y ↔ a ≤ b := by
  rw [Int64.le_iff_toInt_le, hx, hy]

theorem eq_iff (hx : x.toInt = a) (hy : y.toInt = b) :
    x = y ↔ a = b := by
  rw [← Int64.toInt_inj, hx, hy]

end Operations

end SignedWords

end Beans
