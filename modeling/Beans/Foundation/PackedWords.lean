import Mathlib

/-!
# Bits packed into words

A list of words of one width is read as one run of bits, lowest bit first.
Bits past the last word are zero.  Operations on whole words are operations on
every bit, and two lists of one length are equal when their bits are.
-/

namespace Beans
namespace Packed

variable {w : ℕ}

def bit (words : List (BitVec w)) (v : ℕ) : Bool :=
  (words.getD (v / w) 0).getLsbD (v % w)

variable {xs ys : List (BitVec w)} {v i : ℕ}

theorem bit_of_length_le (h : xs.length ≤ v / w) : bit xs v = false := by
  rw [bit, List.getD_eq_default _ _ h]
  exact BitVec.getLsbD_zero

theorem bit_of_lt (h : v / w < xs.length) :
    bit xs v = (xs.get ⟨v / w, h⟩).getLsbD (v % w) := by
  rw [bit, List.getD_eq_getElem _ _ h]
  rfl

theorem bit_replicate_zero (n : ℕ) : bit (List.replicate n (0 : BitVec w)) v = false := by
  by_cases h : v / w < n
  · rw [bit_of_lt (by rw [List.length_replicate]; exact h), List.get_eq_getElem,
      List.getElem_replicate]
    exact BitVec.getLsbD_zero
  · exact bit_of_length_le (by rw [List.length_replicate]; omega)

/-- An operation on words that works bit by bit works on the packed bits. -/
theorem bit_zipWith {f : BitVec w → BitVec w → BitVec w} {g : Bool → Bool → Bool}
    (hf : ∀ x y j, (f x y).getLsbD j = g (x.getLsbD j) (y.getLsbD j))
    (hg : g false false = false) (hlength : xs.length = ys.length) :
    bit (List.zipWith f xs ys) v = g (bit xs v) (bit ys v) := by
  by_cases h : v / w < xs.length
  · have hy : v / w < ys.length := hlength ▸ h
    have hzip : v / w < (List.zipWith f xs ys).length := by
      rw [List.length_zipWith]
      omega
    rw [bit_of_lt h, bit_of_lt hy, bit_of_lt hzip, List.get_eq_getElem,
      List.getElem_zipWith]
    exact hf _ _ _
  · have hy : ys.length ≤ v / w := by omega
    have hzip : (List.zipWith f xs ys).length ≤ v / w := by
      rw [List.length_zipWith]
      omega
    have hx : xs.length ≤ v / w := by omega
    rw [bit_of_length_le hx, bit_of_length_le hy, bit_of_length_le hzip, hg]

theorem bit_set {x : BitVec w} (h : i < xs.length) :
    bit (xs.set i x) v = if v / w = i then x.getLsbD (v % w) else bit xs v := by
  by_cases hi : v / w = i
  · subst hi
    rw [if_pos rfl, bit_of_lt (by rw [List.length_set]; exact h),
      List.get_eq_getElem, List.getElem_set_self]
  · rw [if_neg hi, bit, bit, List.getD_eq_getElem?_getD, List.getElem?_set_ne (Ne.symm hi),
      ← List.getD_eq_getElem?_getD]

/-- The mask of a bit, seen from a bit of the same word. -/
theorem getLsbD_mask {u : ℕ} (hw : 0 < w) (hword : v / w = u / w) :
    (1#w <<< (u % w)).getLsbD (v % w) = decide (v = u) := by
  have hv := Nat.mod_lt v hw
  have hu := Nat.mod_lt u hw
  rw [BitVec.getLsbD_shiftLeft, BitVec.getLsbD_one]
  have hsame : v = u ↔ v % w = u % w := by
    constructor
    · rintro rfl
      rfl
    · intro hmod
      rw [← Nat.div_add_mod v w, ← Nat.div_add_mod u w, hword, hmod]
  by_cases heq : v % w = u % w
  · rw [decide_eq_true (hsame.mpr heq)]
    simp [heq, hu, hw]
  · rw [decide_eq_false (fun h => heq (hsame.mp h))]
    simp
    omega

/-- The word that a bit lies in, with this one bit set. -/
theorem bit_set_or {u : ℕ} (hw : 0 < w) (h : u / w < xs.length) :
    bit (xs.set (u / w) (xs.getD (u / w) 0 ||| (1#w <<< (u % w)))) v =
      (decide (v = u) || bit xs v) := by
  rw [bit_set h]
  by_cases hword : v / w = u / w
  · rw [if_pos hword, BitVec.getLsbD_or, getLsbD_mask hw hword, Bool.or_comm, ← hword]
    rfl
  · have hne : v ≠ u := by
      rintro rfl
      exact hword rfl
    rw [if_neg hword, decide_eq_false hne, Bool.false_or]

theorem getLsbD_and_not (x y : BitVec w) (j : ℕ) :
    (x &&& ~~~y).getLsbD j = (x.getLsbD j && !y.getLsbD j) := by
  rw [BitVec.getLsbD_and, BitVec.getLsbD_not]
  by_cases hj : j < w
  · rw [decide_eq_true hj, Bool.true_and]
  · rw [BitVec.getLsbD_of_ge x j (not_lt.mp hj), Bool.false_and, Bool.false_and]

/-- The word that a bit lies in, with this one bit cleared. -/
theorem bit_set_and_not {u : ℕ} (hw : 0 < w) (h : u / w < xs.length) :
    bit (xs.set (u / w) (xs.getD (u / w) 0 &&& ~~~(1#w <<< (u % w)))) v =
      (!decide (v = u) && bit xs v) := by
  rw [bit_set h]
  by_cases hword : v / w = u / w
  · rw [if_pos hword, getLsbD_and_not, getLsbD_mask hw hword, Bool.and_comm, ← hword]
    rfl
  · have hne : v ≠ u := by
      rintro rfl
      exact hword rfl
    rw [if_neg hword, decide_eq_false hne, Bool.not_false, Bool.true_and]

/-- The test of one bit with a mask. -/
theorem and_mask_ne_zero {x : BitVec w} (h : i < w) :
    (x &&& (1#w <<< i)) ≠ 0#w ↔ x.getLsbD i = true := by
  have hbit : ∀ j, j < w →
      (x &&& (1#w <<< i)).getLsbD j = (decide (j = i) && x.getLsbD i) := by
    intro j hj
    rw [BitVec.getLsbD_and, BitVec.getLsbD_shiftLeft, BitVec.getLsbD_one]
    by_cases heq : j = i
    · subst heq
      simp [h]
      intro
      omega
    · simp [heq]
      omega
  constructor
  · intro hne
    by_contra hoff
    refine hne (BitVec.eq_of_getLsbD_eq fun j hj => ?_)
    rw [hbit j hj, Bool.eq_false_iff.mpr hoff, Bool.and_false, BitVec.getLsbD_zero]
  · intro hon hzero
    have := hbit i h
    rw [hzero, hon, BitVec.getLsbD_zero, decide_eq_true rfl] at this
    exact Bool.false_ne_true this

/-- The word whose lowest bits are set. -/
theorem getLsbD_low_ones (h : i < w) (j : ℕ) :
    ((1#w <<< i) - 1#w).getLsbD j = decide (j < i) := by
  have hpow : 2 ^ i < 2 ^ w := Nat.pow_lt_pow_right (by decide) h
  have hone : (1#w).toNat = 1 := BitVec.toNat_one (by omega)
  have hshift : (1#w <<< i).toNat = 2 ^ i := by
    rw [BitVec.toNat_shiftLeft, hone, Nat.shiftLeft_eq, one_mul, Nat.mod_eq_of_lt hpow]
  have hsub : ((1#w <<< i) - 1#w).toNat = 2 ^ i - 1 := by
    rw [BitVec.toNat_sub_of_le, hshift, hone]
    rw [BitVec.le_def, hshift, hone]
    exact Nat.one_le_two_pow
  rw [BitVec.getLsbD, hsub, Nat.testBit_two_pow_sub_one]

theorem eq_of_bit (hw : 0 < w) (hlength : xs.length = ys.length)
    (h : ∀ v, bit xs v = bit ys v) :
    xs = ys := by
  refine List.ext_getElem hlength fun n hx hy => BitVec.eq_of_getLsbD_eq fun j hj => ?_
  have hword : (n * w + j) / w = n := by
    rw [mul_comm, Nat.mul_add_div hw, Nat.div_eq_of_lt hj, add_zero]
  have hplace : (n * w + j) % w = j := by
    rw [Nat.mul_comm, Nat.mul_add_mod, Nat.mod_eq_of_lt hj]
  have hbit := h (n * w + j)
  rw [bit, bit, hword, hplace, List.getD_eq_getElem _ _ hx, List.getD_eq_getElem _ _ hy] at hbit
  exact hbit

end Packed
end Beans
