import Beans.Decimal.Wide

/-!
# The decimal value

A decimal is a 128-bit two's complement coefficient and a scale.  Its meaning
is the rational `coefficient * 10 ^ (-scale)`.  The language contract keeps the
coefficient below 38 digits and the scale between 0 and 65535; `Representable`
states that, and every operation of the runtime is specified on such values.
-/

namespace Beans
namespace Decimal

def bdecPrecision : ℕ := 38

def bdecMaxScale : Int := 65535

structure BDec where
  lo : UInt64
  hi : UInt64
  s : Int
deriving DecidableEq, Repr

def decNegative (value : BDec) : Bool := value.hi >>> 63 != 0

def decZero (value : BDec) : Bool := value.lo == 0 && value.hi == 0

def decMag (value : BDec) : BU128 :=
  let bits : BU128 := ⟨value.lo, value.hi⟩
  if decNegative value then buTwos bits else bits

def decSet (magnitude : BU128) (negative : Bool) (scale : Int) : BDec :=
  let bits :=
    if negative && !buZero magnitude then buTwos magnitude else magnitude
  ⟨bits.lo, bits.hi, scale⟩

/-- The power loop of `decCoeffLimit`. -/
def decPowerLoop : ℕ → BU128 → Option BU128
  | 0, value => some value
  | count + 1, value =>
    match buMulSmall value 10 with
    | none => none
    | some next => decPowerLoop count next

def decCoeffLimit : BU128 :=
  match decPowerLoop bdecPrecision ⟨1, 0⟩ with
  | none => ⟨0, 0⟩
  | some value => buSub value ⟨1, 0⟩

/-- The digit loop, run for at most `fuel` digits. -/
def decDigits128Loop : ℕ → BU128 → ℕ → ℕ
  | 0, _, digits => digits
  | fuel + 1, value, digits =>
    if value.hi ≠ 0 ∨ 10 ≤ value.lo then
      match buDivSmall value 10 with
      | none => digits
      | some (quotient, _) => decDigits128Loop fuel quotient (digits + 1)
    else digits

/-- A 128-bit value has at most 39 decimal digits. -/
def decDigits128 (value : BU128) : ℕ := decDigits128Loop 39 value 1

namespace BDec

/-- The coefficient as the signed integer its bits denote. -/
def coeff (d : BDec) : ℤ :=
  (BU128.mk d.lo d.hi).toNat - if decNegative d then 2 ^ 128 else 0

/-- The number a decimal denotes. -/
def toRat (d : BDec) : ℚ := d.coeff * (10 : ℚ) ^ (-d.s)

/-- The values the language contract allows. -/
structure Representable (d : BDec) : Prop where
  coeff_lt : |d.coeff| < 10 ^ bdecPrecision
  scale_nonneg : 0 ≤ d.s
  scale_le : d.s ≤ bdecMaxScale

instance (d : BDec) : Decidable d.Representable :=
  decidable_of_iff
    (|d.coeff| < 10 ^ bdecPrecision ∧ 0 ≤ d.s ∧ d.s ≤ bdecMaxScale)
    ⟨fun h => ⟨h.1, h.2.1, h.2.2⟩, fun h => ⟨h.1, h.2, h.3⟩⟩

end BDec

theorem decNegative_iff (d : BDec) :
    decNegative d = true ↔ 2 ^ 127 ≤ (BU128.mk d.lo d.hi).toNat := by
  have hlo := d.lo.toNat_lt
  rw [decNegative, bne_iff_ne, ne_eq, ← UInt64.toNat_inj,
    UInt64.toNat_shiftRight, UInt64.toNat_zero]
  change ¬ d.hi.toNat >>> 63 = 0 ↔ _
  rw [Nat.shiftRight_eq_div_pow, BU128.toNat]
  dsimp only
  omega

theorem decNegative_iff_coeff (d : BDec) :
    decNegative d = true ↔ d.coeff < 0 := by
  have hlt := (BU128.mk d.lo d.hi).toNat_lt
  have hneg := decNegative_iff d
  unfold BDec.coeff
  by_cases h : decNegative d = true
  · rw [if_pos h]
    have := hneg.mp h
    constructor
    · intro _
      omega
    · intro _
      exact h
  · rw [if_neg h]
    constructor
    · intro h'
      exact absurd h' h
    · intro h'
      omega

theorem decMag_toNat (d : BDec) : ((decMag d).toNat : ℤ) = |d.coeff| := by
  have hlt := (BU128.mk d.lo d.hi).toNat_lt
  have hneg := decNegative_iff d
  unfold decMag BDec.coeff
  by_cases h : decNegative d = true
  · have := hneg.mp h
    rw [if_pos h, if_pos h, buTwos_toNat, abs_of_nonpos (by omega)]
    omega
  · rw [if_neg h, if_neg h, abs_of_nonneg (by omega)]
    omega

theorem decZero_iff (d : BDec) : decZero d = true ↔ d.coeff = 0 := by
  have hneg := decNegative_iff d
  have hzero : decZero d = true ↔ (BU128.mk d.lo d.hi).toNat = 0 :=
    buZero_eq_true_iff ⟨d.lo, d.hi⟩
  have hlt := (BU128.mk d.lo d.hi).toNat_lt
  rw [hzero, BDec.coeff]
  by_cases h : decNegative d = true
  · have := hneg.mp h
    rw [if_pos h]
    omega
  · rw [if_neg h]
    omega

theorem decMag_toNat_eq_zero_iff (d : BDec) :
    (decMag d).toNat = 0 ↔ d.coeff = 0 := by
  have := decMag_toNat d
  rw [← abs_eq_zero, ← this]
  exact Nat.cast_eq_zero.symm

/-- The coefficient is its magnitude under its sign. -/
theorem BDec.coeff_eq_sign_mul (d : BDec) :
    d.coeff = (if decNegative d then -1 else 1) * ((decMag d).toNat : ℤ) := by
  have hneg := decNegative_iff_coeff d
  rw [decMag_toNat]
  by_cases h : decNegative d = true
  · rw [if_pos h, abs_of_neg (hneg.mp h)]
    ring
  · rw [if_neg h, abs_of_nonneg (not_lt.mp (mt hneg.mpr h))]
    ring

variable {d : BDec} {m : BU128} {scale : ℤ}

/-- Two decimals with the same coefficient and scale are the same value. -/
theorem BDec.eq_of_coeff {e : BDec} (hc : d.coeff = e.coeff) (hs : d.s = e.s) :
    d = e := by
  have hnd := decNegative_iff_coeff d
  have hne := decNegative_iff_coeff e
  have hsame : decNegative d = decNegative e := by
    rw [Bool.eq_iff_iff, hnd, hne, hc]
  unfold BDec.coeff at hc
  rw [hsame] at hc
  have hbits : BU128.mk d.lo d.hi = BU128.mk e.lo e.hi :=
    BU128.toNat_inj.mp (by omega)
  obtain ⟨dlo, dhi, ds⟩ := d
  obtain ⟨elo, ehi, es⟩ := e
  simp only [BU128.mk.injEq] at hbits
  simp only at hs
  rw [hbits.1, hbits.2, hs]

@[simp] theorem decSet_s (m : BU128) (negative : Bool) (scale : Int) :
    (decSet m negative scale).s = scale := rfl

theorem decSet_coeff (negative : Bool) (scale : Int)
    (hm : m.toNat < 2 ^ 127) :
    (decSet m negative scale).coeff =
      (if negative then -1 else 1) * (m.toNat : ℤ) := by
  have hneg := decNegative_iff (decSet m negative scale)
  have hzero := buZero_eq_true_iff m
  unfold BDec.coeff
  by_cases hn : negative = true ∧ m.toNat ≠ 0
  · have hcond : (negative && !buZero m) = true := by
      rw [Bool.and_eq_true, Bool.not_eq_true', ← Bool.not_eq_true, hzero]
      exact hn
    have hbits : (BU128.mk (decSet m negative scale).lo
        (decSet m negative scale).hi).toNat = 2 ^ 128 - m.toNat := by
      simp only [decSet, hcond, if_true]
      rw [show (BU128.mk (buTwos m).lo (buTwos m).hi) = buTwos m from rfl,
        buTwos_toNat]
      omega
    rw [hbits] at hneg ⊢
    rw [if_pos (hneg.mpr (by omega)), if_pos hn.1]
    omega
  · have hcond : (negative && !buZero m) = false := by
      rw [← Bool.not_eq_true, Bool.and_eq_true, Bool.not_eq_true',
        ← Bool.not_eq_true, hzero]
      exact hn
    have hbits : (BU128.mk (decSet m negative scale).lo
        (decSet m negative scale).hi).toNat = m.toNat := by
      simp only [decSet, hcond, Bool.false_eq_true, if_false]
    rw [hbits] at hneg ⊢
    rw [if_neg (by rw [hneg]; omega)]
    by_cases hsign : negative = true
    · have : m.toNat = 0 := by
        by_contra hne
        exact hn ⟨hsign, hne⟩
      rw [this]
      simp
    · rw [if_neg hsign]
      omega

theorem decMag_decSet (negative : Bool) (scale : Int)
    (hm : m.toNat < 2 ^ 127) :
    (decMag (decSet m negative scale)).toNat = m.toNat := by
  have h := decMag_toNat (decSet m negative scale)
  rw [decSet_coeff negative scale hm] at h
  cases negative <;> simp at h <;> exact h

theorem decNegative_decSet (negative : Bool) (scale : Int)
    (hpos : 0 < m.toNat) (hm : m.toNat < 2 ^ 127) :
    decNegative (decSet m negative scale) = negative := by
  rw [Bool.eq_iff_iff, decNegative_iff_coeff, decSet_coeff negative scale hm]
  cases negative with
  | false => simp
  | true =>
    simp only [if_true, iff_true]
    omega

/-- The exact value `n * 10 ^ (-scale)` of a coefficient and a scale. -/
def workingRat (n : ℕ) (scale : ℤ) : ℚ := n * (10 : ℚ) ^ (-scale)

theorem workingRat_pos {n : ℕ} (hn : 0 < n) (scale : ℤ) :
    0 < workingRat n scale :=
  mul_pos (by exact_mod_cast hn) (zpow_pos (by norm_num) _)

theorem workingRat_nonneg (n : ℕ) (scale : ℤ) : 0 ≤ workingRat n scale :=
  mul_nonneg (Nat.cast_nonneg n) (zpow_pos (by norm_num) _).le

theorem workingRat_inj {m n : ℕ} :
    workingRat m scale = workingRat n scale ↔ m = n := by
  have hpow : (10 : ℚ) ^ (-scale) ≠ 0 := zpow_ne_zero _ (by norm_num)
  rw [workingRat, workingRat, mul_left_inj' hpow, Nat.cast_inj]

theorem workingRat_lt_iff {m n : ℕ} :
    workingRat m scale < workingRat n scale ↔ m < n := by
  have hpow : (0 : ℚ) < 10 ^ (-scale) := zpow_pos (by norm_num) _
  rw [workingRat, workingRat, mul_lt_mul_iff_left₀ hpow, Nat.cast_lt]

theorem workingRat_add (m n : ℕ) (scale : ℤ) :
    workingRat (m + n) scale = workingRat m scale + workingRat n scale := by
  unfold workingRat
  push_cast
  ring

theorem workingRat_sub {m n : ℕ} (h : n ≤ m) (scale : ℤ) :
    workingRat (m - n) scale = workingRat m scale - workingRat n scale := by
  rw [eq_sub_iff_add_eq, ← workingRat_add, Nat.sub_add_cancel h]

theorem workingRat_mul (m n : ℕ) (s t : ℤ) :
    workingRat (m * n) (s + t) = workingRat m s * workingRat n t := by
  unfold workingRat
  rw [neg_add, zpow_add₀ (by norm_num)]
  push_cast
  ring

/-- Trailing zeros move between the coefficient and the scale. -/
theorem workingRat_mul_pow (n e : ℕ) (scale : ℤ) :
    workingRat (n * 10 ^ e) (scale + e) = workingRat n scale := by
  unfold workingRat
  rw [neg_add, zpow_add₀ (by norm_num), zpow_neg _ (e : ℤ), zpow_natCast]
  push_cast
  field_simp

theorem BDec.toRat_eq (d : BDec) :
    d.toRat = (if decNegative d then -1 else 1) *
      workingRat (decMag d).toNat d.s := by
  rw [BDec.toRat, BDec.coeff_eq_sign_mul, workingRat]
  push_cast
  ring

theorem BDec.toRat_eq_zero_iff (d : BDec) : d.toRat = 0 ↔ d.coeff = 0 := by
  have hpow : (10 : ℚ) ^ (-d.s) ≠ 0 := zpow_ne_zero _ (by norm_num)
  rw [BDec.toRat, mul_eq_zero, Int.cast_eq_zero]
  exact or_iff_left hpow

theorem BDec.toRat_neg_iff (d : BDec) : d.toRat < 0 ↔ d.coeff < 0 := by
  have hpow : (0 : ℚ) < 10 ^ (-d.s) := zpow_pos (by norm_num) _
  rw [BDec.toRat, ← Int.cast_lt_zero (R := ℚ)]
  constructor
  · intro h
    exact neg_of_mul_neg_left h hpow.le
  · intro h
    exact mul_neg_of_neg_of_pos h hpow

theorem BDec.abs_toRat (d : BDec) :
    |d.toRat| = workingRat (decMag d).toNat d.s := by
  rw [BDec.toRat_eq, abs_mul, abs_of_nonneg (workingRat_nonneg _ _)]
  split_ifs <;> simp

theorem BDec.Representable.decMag_lt (h : d.Representable) :
    (decMag d).toNat < 10 ^ bdecPrecision := by
  have := h.coeff_lt
  rw [← decMag_toNat] at this
  exact_mod_cast this

theorem BDec.Representable.workingRat_lt (h : d.Representable) :
    workingRat (decMag d).toNat d.s < 10 ^ bdecPrecision := by
  have hmag : ((decMag d).toNat : ℚ) < 10 ^ bdecPrecision := by
    exact_mod_cast h.decMag_lt
  have hpow : (10 : ℚ) ^ (-d.s) ≤ 1 :=
    zpow_le_one_of_nonpos₀ (by norm_num) (by have := h.scale_nonneg; omega)
  calc workingRat (decMag d).toNat d.s
      ≤ (decMag d).toNat * 1 :=
        mul_le_mul_of_nonneg_left hpow (Nat.cast_nonneg _)
    _ < 10 ^ bdecPrecision := by rw [mul_one]; exact hmag

theorem decPowerLoop_of_lt :
    ∀ (count : ℕ) {v : BU128}, v.toNat * 10 ^ count < 2 ^ 128 →
      decPowerLoop count v = some (BU128.ofNat (v.toNat * 10 ^ count))
  | 0, v, h => by
      rw [decPowerLoop, Option.some_inj, ← BU128.toNat_inj, BU128.toNat_ofNat h]
      omega
  | count + 1, v, h => by
      have hten : (10 : UInt32).toNat = 10 := rfl
      have hpow : v.toNat * 10 ^ (count + 1) = v.toNat * 10 * 10 ^ count := by
        rw [pow_succ]
        ring
      have hmul : v.toNat * 10 < 2 ^ 128 := by
        refine lt_of_le_of_lt ?_ h
        rw [hpow]
        exact Nat.le_mul_of_pos_right _ (Nat.pow_pos (by omega))
      have hval := BU128.toNat_ofNat hmul
      rw [decPowerLoop, buMulSmall_of_lt (by rw [hten]; exact hmul), hten]
      dsimp only
      rw [decPowerLoop_of_lt count (by rw [hval, ← hpow]; exact h), hval, hpow]

/-- The largest coefficient has 38 nines. -/
theorem decCoeffLimit_toNat : decCoeffLimit.toNat = 10 ^ bdecPrecision - 1 := by
  have hone : (BU128.mk 1 0).toNat = 1 := rfl
  have hlt : (BU128.mk 1 0).toNat * 10 ^ bdecPrecision < 2 ^ 128 := by
    rw [hone]
    norm_num [bdecPrecision]
  have hval := BU128.toNat_ofNat hlt
  rw [decCoeffLimit, decPowerLoop_of_lt bdecPrecision hlt]
  dsimp only
  rw [buSub_toNat (by rw [hval, hone]; norm_num [bdecPrecision]), hval, hone,
    Nat.one_mul]

theorem decDigits128Loop_eq :
    ∀ (fuel : ℕ) (v : BU128) (digits : ℕ), v.toNat < 10 ^ fuel →
      decDigits128Loop fuel v digits + 1 = digits + numDigits v.toNat
  | 0, v, digits, h => by
      have hzero : v.toNat = 0 := by simpa using h
      rw [decDigits128Loop, hzero, numDigits, Nat.log_zero_right]
  | fuel + 1, v, digits, h => by
      have hten : (10 : UInt32).toNat = 10 := rfl
      have hguard : (v.hi ≠ 0 ∨ 10 ≤ v.lo) ↔ 10 ≤ v.toNat := by
        have hten64 : (10 : UInt64).toNat = 10 := rfl
        rw [ne_eq, ← UInt64.toNat_inj, UInt64.toNat_zero,
          UInt64.le_iff_toNat_le, hten64, BU128.toNat]
        omega
      rw [decDigits128Loop]
      by_cases hbig : 10 ≤ v.toNat
      · obtain ⟨q, r, hdiv, hq, -⟩ :=
          buDivSmall_spec v 10 (by decide)
        rw [if_pos (hguard.mpr hbig), hdiv]
        dsimp only
        rw [hten] at hq
        rw [decDigits128Loop_eq fuel q _ (by
          rw [hq]
          exact Nat.div_lt_of_lt_mul (by rwa [pow_succ'] at h)), hq,
          ← numDigits_div_ten hbig]
        omega
      · rw [if_neg (mt hguard.mp hbig), numDigits, Nat.log_of_lt (by omega)]

@[simp] theorem decDigits128_eq (v : BU128) :
    decDigits128 v = numDigits v.toNat := by
  have hlt : v.toNat < 10 ^ 39 := lt_of_lt_of_le v.toNat_lt (by norm_num)
  have := decDigits128Loop_eq 39 v 1 hlt
  unfold decDigits128
  omega

end Decimal
end Beans
