import Mathlib

/-!
# Alignments and checked words

An alignment is a power of two below the top bit of a signed word.  Masking
with its negation rounds a sum down to a multiple, so that adding one less than the
alignment first gives the least multiple from a value on.  A checked operation has
no result when a signed word cannot hold it.
-/

namespace Beans
namespace Alignments

/-- The bits two signed words share. -/
def andWords (a b : ℤ) : ℤ :=
  (BitVec.ofInt 64 a &&& BitVec.ofInt 64 b).toInt

def PowerOfTwo (align : ℤ) : Prop :=
  ∃ k : ℕ, k ≤ 62 ∧ align = 2 ^ k

/-- The least multiple of an alignment from a value on. -/
def Up (value align up : ℤ) : Prop :=
  IsLeast {multiple : ℤ | value ≤ multiple ∧ align ∣ multiple} up

namespace PowerOfTwo

variable {a : ℤ}

theorem one : PowerOfTwo 1 :=
  ⟨0, by norm_num, rfl⟩

theorem pos (h : PowerOfTwo a) :
    0 < a := by
  obtain ⟨k, -, rfl⟩ := h
  positivity

theorem le (h : PowerOfTwo a) :
    a ≤ 2 ^ 62 := by
  obtain ⟨k, hk, rfl⟩ := h
  exact_mod_cast Nat.pow_le_pow_right (by norm_num) hk

end PowerOfTwo

/-- The bits that a mask keeps are those from the alignment's on. -/
theorem and_mask {n k : ℕ} (hn : n < 2 ^ 64) (hk : k ≤ 64) :
    n &&& (2 ^ 64 - 2 ^ k) = n - n % 2 ^ k := by
  have hrest : n - n % 2 ^ k = 2 ^ k * (n / 2 ^ k) := by
    have := Nat.div_add_mod n (2 ^ k)
    omega
  have hmask : 2 ^ 64 - 2 ^ k = 2 ^ k * (2 ^ (64 - k) - 1) := by
    rw [Nat.mul_sub, ← pow_add, Nat.add_sub_cancel' hk, mul_one]
  rw [hrest, hmask]
  refine Nat.eq_of_testBit_eq fun i => ?_
  rw [Nat.testBit_and, Nat.testBit_two_pow_mul, Nat.testBit_two_pow_mul,
    Nat.testBit_two_pow_sub_one, Nat.testBit_div_two_pow]
  by_cases hi : k ≤ i
  · rw [Nat.sub_add_cancel hi]
    by_cases hhigh : i < 64
    · simp only [hi, decide_true, Bool.true_and, show i - k < 64 - k by omega, Bool.and_true]
    · have hzero : n.testBit i = false :=
        Nat.testBit_lt_two_pow (hn.trans_le (Nat.pow_le_pow_right (by norm_num) (by omega)))
      rw [hzero, Bool.false_and, Bool.and_false]
  · simp only [hi, decide_false, Bool.false_and, Bool.and_false]

theorem andWords_mask {a : ℤ} {k : ℕ} (h : 0 ≤ a) (h' : a < 2 ^ 63) (hk : k ≤ 62) :
    andWords a (-2 ^ k) = a - a % 2 ^ k := by
  obtain ⟨n, rfl⟩ := Int.eq_ofNat_of_zero_le h
  have hn : n < 2 ^ 63 := by exact_mod_cast h'
  have hpow : (2 : ℕ) ^ k ≤ 2 ^ 62 := Nat.pow_le_pow_right (by norm_num) hk
  have hpos : 0 < (2 : ℕ) ^ k := by positivity
  have hmask : (BitVec.ofInt 64 (-2 ^ k)).toNat = 2 ^ 64 - 2 ^ k := by
    rw [BitVec.toNat_ofInt, Int.neg_emod, if_neg]
    · have hmod : ((2 : ℤ) ^ k) % ((2 ^ 64 : ℕ) : ℤ) = ((2 ^ k : ℕ) : ℤ) := by
        push_cast
        exact Int.emod_eq_of_lt (by positivity) (by exact_mod_cast hpow.trans_lt (by norm_num))
      rw [hmod]
      omega
    · intro hdvd
      have hle := Int.le_of_dvd (by positivity) hdvd
      have hpow' : (2 : ℤ) ^ k ≤ 2 ^ 62 := by exact_mod_cast hpow
      norm_num at hle
      omega
  have hvalue : (BitVec.ofInt 64 ((n : ℕ) : ℤ)).toNat = n := by
    rw [BitVec.toNat_ofInt]
    omega
  have hand : (BitVec.ofInt 64 ((n : ℕ) : ℤ) &&& BitVec.ofInt 64 (-2 ^ k)).toNat = n - n % 2 ^ k := by
    rw [BitVec.toNat_and, hvalue, hmask, and_mask (by omega) (by omega)]
  have hmod : n % 2 ^ k ≤ n := Nat.mod_le n _
  rw [andWords, BitVec.toInt_eq_toNat_cond, hand, if_pos (by omega), Nat.cast_sub hmod]
  push_cast
  rfl

/-- The usual test: one less shares no bit. -/
theorem andWords_pred_eq_zero {a : ℤ} (h : 0 < a) (h' : a < 2 ^ 63) :
    andWords a (a - 1) = 0 ↔ PowerOfTwo a := by
  obtain ⟨n, rfl⟩ := Int.eq_ofNat_of_zero_le h.le
  have hn : n < 2 ^ 63 := by exact_mod_cast h'
  have hpos : 0 < n := by exact_mod_cast h
  have hvalue : (BitVec.ofInt 64 ((n : ℕ) : ℤ)).toNat = n := by
    rw [BitVec.toNat_ofInt]
    omega
  have hpred : (BitVec.ofInt 64 ((n : ℕ) - 1 : ℤ)).toNat = n - 1 := by
    rw [BitVec.toNat_ofInt]
    omega
  have hand : (BitVec.ofInt 64 ((n : ℕ) : ℤ) &&& BitVec.ofInt 64 ((n : ℕ) - 1 : ℤ)).toNat =
      n &&& (n - 1) := by
    rw [BitVec.toNat_and, hvalue, hpred]
  have hle : n &&& (n - 1) ≤ n := Nat.and_le_left
  have hzero : andWords ((n : ℕ) : ℤ) ((n : ℕ) - 1 : ℤ) = 0 ↔ n &&& (n - 1) = 0 := by
    rw [andWords, BitVec.toInt_eq_toNat_cond, hand, if_pos (by omega)]
    exact Int.natCast_eq_zero
  rw [hzero, Nat.and_sub_one_eq_zero_iff_isPowerOfTwo hpos.ne']
  constructor
  · rintro ⟨k, rfl⟩
    refine ⟨k, ?_, by push_cast; rfl⟩
    by_contra hk
    have := Nat.pow_le_pow_right (show 0 < 2 by norm_num) (show 63 ≤ k by omega)
    omega
  · rintro ⟨k, -, hk⟩
    exact ⟨k, by exact_mod_cast hk⟩

theorem up_of_mask {value align : ℤ} (halign : PowerOfTwo align) (h : 0 ≤ value)
    (h' : value + (align - 1) < 2 ^ 63) :
    Up value align (andWords (value + (align - 1)) (0 - align)) := by
  have hpos := halign.pos
  obtain ⟨k, hk, rfl⟩ := halign
  rw [zero_sub, andWords_mask (by omega) h' hk]
  have hmod := Int.emod_lt_of_pos (value + (2 ^ k - 1)) hpos
  have hnonneg := Int.emod_nonneg (value + (2 ^ k - 1)) hpos.ne'
  refine ⟨⟨by omega, Int.dvd_self_sub_emod⟩, ?_⟩
  rintro multiple ⟨hle, q, rfl⟩
  have hdvd : (2 : ℤ) ^ k ∣ value + (2 ^ k - 1) - (value + (2 ^ k - 1)) % 2 ^ k :=
    Int.dvd_self_sub_emod
  obtain ⟨p, hp⟩ := hdvd
  rw [hp]
  have hpq : p < q + 1 := by
    by_contra hnot
    have hmul : (2 : ℤ) ^ k * (q + 1) ≤ 2 ^ k * p :=
      mul_le_mul_of_nonneg_left (not_lt.mp hnot) hpos.le
    rw [mul_add, mul_one] at hmul
    omega
  exact mul_le_mul_of_nonneg_left (Int.lt_add_one_iff.mp hpq) hpos.le

theorem up_one (value : ℤ) :
    Up value 1 value :=
  ⟨⟨le_refl value, one_dvd value⟩, fun _ h => h.1⟩

end Alignments
end Beans
