import Beans.Foundation.FloatOrder
import Beans.Interpreter.TreeKey

/-!
# The order of floats

The comparisons of the interpreter's `Order` for floats and the key of the runtime,
on bit patterns.  The comparisons ask `<` first and the key where it abstains; both
engines have the order `totalOrder`.

**Results.**
* `float_total_order`: on every pattern, zeros, infinities and NaNs of either sign included.
-/

namespace Beans
namespace Interpreter

open FloatOrder

def binary64 : Format := ⟨11, 52, by decide, by decide⟩

theorem toNat_and_magnitude (bits : UInt64) :
    (bits &&& 0x7FFFFFFFFFFFFFFF).toNat = bits.toNat % 2 ^ 63 := by
  rw [UInt64.toNat_and]
  exact Nat.and_two_pow_sub_one_eq_mod bits.toNat 63

/-- The sign and the magnitude of a pattern. -/
def datum (bits : UInt64) : Datum binary64 where
  negative := bits >>> 63 == 1
  magnitude := (bits &&& 0x7FFFFFFFFFFFFFFF).toNat
  lt := by
    rw [toNat_and_magnitude]
    exact Nat.mod_lt _ (by decide)

/-- `<` on floats: a nan is not less than anything, nor anything than a nan. -/
def ieeeLess (left right : UInt64) : Bool :=
  !isNan left && !isNan right && decide ((datum left).value < (datum right).value)

def treeFloatTotalLess (left right : UInt64) : Bool :=
  if ieeeLess left right then true
  else if ieeeLess right left then false
  else decide (treeFloatTotalKey left < treeFloatTotalKey right)

/-- The key of the runtime flips the magnitude of a negative float. -/
def rtF64TotalKey (raw : Int64) : Int64 :=
  let bits := raw.toUInt64
  let flip := (0 : UInt64) - (bits >>> 63)
  (bits ^^^ (flip &&& 0x7FFFFFFFFFFFFFFF)).toInt64

variable {bits : UInt64}

theorem toNat_of_negative (h : bits >>> 63 = 1) :
    bits.toNat = 2 ^ 63 + bits.toNat % 2 ^ 63 := by
  rw [← UInt64.toNat_inj, UInt64.toNat_shiftRight] at h
  change bits.toNat >>> 63 = 1 at h
  rw [Nat.shiftRight_eq_div_pow] at h
  omega

theorem rank_datum (bits : UInt64) :
    (datum bits).rank =
      if bits >>> 63 = 1 then -((bits.toNat % 2 ^ 63 : ℕ) : ℤ) - 1 else bits.toNat := by
  have hmagnitude : (datum bits).magnitude = bits.toNat % 2 ^ 63 := toNat_and_magnitude bits
  have hnegative : (datum bits).negative = (bits >>> 63 == 1) := rfl
  rw [Datum.rank, hmagnitude, hnegative]
  by_cases h : bits >>> 63 = 1
  · simp only [h, beq_self_eq_true, if_true]
  · have hlt := toNat_lt_of_positive h
    simp only [beq_eq_false_iff_ne.mpr h, Bool.false_eq_true, if_false, h]
    rw [Nat.mod_eq_of_lt hlt]

theorem datum_injective : Function.Injective datum := by
  intro a b h
  have hranks := congrArg Datum.rank h
  rw [rank_datum, rank_datum] at hranks
  rw [← UInt64.toNat_inj]
  split_ifs at hranks with ha hb hb
  · rw [toNat_of_negative ha, toNat_of_negative hb]
    omega
  · omega
  · omega
  · omega

theorem treeFloatTotalKey_rank (bits : UInt64) :
    ((treeFloatTotalKey bits).toNat : ℤ) = (datum bits).rank + 2 ^ 63 := by
  rw [rank_datum, treeFloatTotalKey]
  split_ifs with h
  · have hnot : bits ^^^ 18446744073709551615 = ~~~bits := UInt64.xor_neg_one
    have hnegative := toNat_of_negative h
    have hlow := Nat.mod_lt bits.toNat (y := 2 ^ 63) (by decide)
    rw [hnot, UInt64.toNat_not]
    change ((18446744073709551615 - bits.toNat : ℕ) : ℤ) = _
    omega
  · rw [toNat_setTop h]
    push_cast
    ring

/-- Flipping the low bits of a negative word. -/
theorem toNat_flip_low (h : bits >>> 63 = 1) :
    (bits ^^^ 0x7FFFFFFFFFFFFFFF).toNat = 2 ^ 63 + (2 ^ 63 - (bits.toNat % 2 ^ 63 + 1)) := by
  have hbits := toNat_of_negative h
  have hlow := Nat.mod_lt bits.toNat (y := 2 ^ 63) (by decide)
  rw [UInt64.toNat_xor]
  change bits.toNat ^^^ (2 ^ 63 - 1) = _
  generalize bits.toNat % 2 ^ 63 = low at hbits hlow ⊢
  rw [hbits]
  have hor := Nat.two_pow_add_eq_or_of_lt hlow 1
  have hor' := Nat.two_pow_add_eq_or_of_lt (i := 63) (b := 2 ^ 63 - (low + 1)) (by omega) 1
  rw [Nat.mul_one] at hor hor'
  rw [hor, hor']
  refine Nat.eq_of_testBit_eq fun i => ?_
  rw [Nat.testBit_xor, Nat.testBit_or, Nat.testBit_or, Nat.testBit_two_pow,
    Nat.testBit_two_pow_sub_one, Nat.testBit_two_pow_sub_succ hlow]
  rcases lt_trichotomy i 63 with hlt | heq | hgt
  · simp [hlt, hlt.ne']
  · simp [heq]
  · have hzero : low.testBit i = false :=
      Nat.testBit_lt_two_pow (hlow.trans (Nat.pow_lt_pow_right (by decide) hgt))
    simp [hzero, hgt.ne, hgt.not_gt]

theorem toInt_toInt64_of_lt (h : bits.toNat < 2 ^ 63) :
    bits.toInt64.toInt = bits.toNat := by
  have hbmod : bits.toInt64.toInt = (bits.toNat : ℤ).bmod (2 ^ 64) :=
    BitVec.toInt_eq_toNat_bmod bits.toBitVec
  rw [hbmod, Int.bmod_def]
  split_ifs
  all_goals omega

theorem toInt_toInt64_of_ge (h : 2 ^ 63 ≤ bits.toNat) :
    bits.toInt64.toInt = bits.toNat - 2 ^ 64 := by
  have hlt := bits.toNat_lt
  have hbmod : bits.toInt64.toInt = (bits.toNat : ℤ).bmod (2 ^ 64) :=
    BitVec.toInt_eq_toNat_bmod bits.toBitVec
  rw [hbmod, Int.bmod_def]
  split_ifs
  all_goals omega

theorem rtF64TotalKey_rank (bits : UInt64) :
    (rtF64TotalKey bits.toInt64).toInt = (datum bits).rank := by
  have hword : bits.toInt64.toUInt64 = bits := rfl
  rw [rank_datum, rtF64TotalKey, hword]
  by_cases h : bits >>> 63 = 1
  · have hmask : (0 - 1 : UInt64) &&& 0x7FFFFFFFFFFFFFFF = 0x7FFFFFFFFFFFFFFF := by decide
    have hlow := Nat.mod_lt bits.toNat (y := 2 ^ 63) (by decide)
    have hflip := toNat_flip_low h
    simp only [h, hmask, if_true]
    rw [toInt_toInt64_of_ge (by omega), hflip]
    omega
  · have hlt := toNat_lt_of_positive h
    have hzero : bits >>> 63 = 0 := by
      rw [← UInt64.toNat_inj, UInt64.toNat_shiftRight]
      change bits.toNat >>> 63 = 0
      rw [Nat.shiftRight_eq_div_pow]
      omega
    have hmask : (0 - 0 : UInt64) &&& 0x7FFFFFFFFFFFFFFF = 0 := by decide
    simp only [hzero, hmask, UInt64.xor_zero]
    rw [toInt_toInt64_of_lt hlt, if_neg (by decide)]

theorem infinity_binary64 : Datum.infinity binary64 = 0x7FF0000000000000 := by
  decide

theorem isNan_iff (bits : UInt64) :
    isNan bits = true ↔ (datum bits).IsNan := by
  rw [Datum.isNan_iff, infinity_binary64, isNan, decide_eq_true_iff, gt_iff_lt,
    UInt64.lt_iff_toNat_lt]
  rfl

theorem ieeeLess_iff (left right : UInt64) :
    ieeeLess left right = true ↔
      ¬ (datum left).IsNan ∧ ¬ (datum right).IsNan ∧ (datum left).value < (datum right).value := by
  rw [← isNan_iff, ← isNan_iff, ieeeLess, Bool.and_eq_true, Bool.and_eq_true, and_assoc]
  simp only [Bool.not_eq_true', Bool.not_eq_true, decide_eq_true_iff]

theorem treeFloatTotalKey_lt_iff (left right : UInt64) :
    treeFloatTotalKey left < treeFloatTotalKey right ↔ (datum left).Precedes (datum right) := by
  have hleft := treeFloatTotalKey_rank left
  have hright := treeFloatTotalKey_rank right
  rw [Datum.precedes_iff, UInt64.lt_iff_toNat_lt]
  omega

/-- Where `<` answers, the key agrees with it. -/
theorem treeFloatTotalLess_iff (left right : UInt64) :
    treeFloatTotalLess left right = true ↔ (datum left).Precedes (datum right) := by
  rw [treeFloatTotalLess]
  by_cases hless : ieeeLess left right = true
  · obtain ⟨hl, hr, hlt⟩ := (ieeeLess_iff left right).mp hless
    rw [if_pos hless]
    exact iff_of_true rfl (.value hl hr hlt)
  · rw [if_neg hless]
    by_cases hgreater : ieeeLess right left = true
    · obtain ⟨hr, hl, hgt⟩ := (ieeeLess_iff right left).mp hgreater
      rw [if_pos hgreater]
      refine iff_of_false Bool.false_ne_true fun hbefore => ?_
      exact asymm hbefore (Datum.Precedes.value hr hl hgt)
    · rw [if_neg hgreater, decide_eq_true_iff]
      exact treeFloatTotalKey_lt_iff left right

/-- The interpreter's comparisons of floats are `totalOrder` on the patterns, and so is
the order of the runtime's keys. -/
theorem float_total_order :
    (∀ left right, treeFloatTotalLess left right = true ↔
      (datum left).Precedes (datum right)) ∧
    (∀ left right, treeFloatTotalLess left right = true ↔
      treeFloatTotalKey left < treeFloatTotalKey right) ∧
    (∀ left right, treeFloatTotalEqual left right = true ↔ left = right) ∧
    IsStrictTotalOrder UInt64 (fun left right => treeFloatTotalLess left right = true) ∧
    ∀ left right : UInt64, rtF64TotalKey left.toInt64 < rtF64TotalKey right.toInt64 ↔
      treeFloatTotalLess left right = true := by
  refine ⟨treeFloatTotalLess_iff, fun left right => ?_, treeFloatTotalEqual_iff, ?_, ?_⟩
  · rw [treeFloatTotalLess_iff, treeFloatTotalKey_lt_iff]
  · simp only [treeFloatTotalLess_iff]
    exact {
      irrefl := fun a h => irrefl _ h
      trans := fun _ _ _ h h' => IsTrans.trans _ _ _ h h'
      trichotomous := fun a b h h' => datum_injective (Std.Trichotomous.trichotomous _ _ h h') }
  · intro left right
    rw [treeFloatTotalLess_iff, Datum.precedes_iff, Int64.lt_iff_toInt_lt, rtF64TotalKey_rank,
      rtF64TotalKey_rank]

end Interpreter
end Beans
