import Mathlib

/-!
# Rounding half to even at a number of significant digits

The reference meaning of "rounded half-even to `p` significant digits", over
any ordered field with a floor: a number is scaled so that its leading digit
sits `p` places above the point, rounded to the nearest integer with ties going
to the even one, and scaled back.

An implementation never forms that scaled number.  It keeps a truncated digit
string, one guard digit and a sticky bit; `halfEven_of_guard` says these three
decide the rounding.  `roundSig_of_near` covers an implementation that skips an
operand too small to matter.
-/

namespace Beans
namespace HalfEven

variable {K : Type*} [Field K] [LinearOrder K] [IsStrictOrderedRing K]
  [FloorRing K]

/-- The nearest integer, ties to the even one. -/
def halfEven (x : K) : ℤ :=
  if x - ⌊x⌋ < 1 / 2 then ⌊x⌋
  else if 1 / 2 < x - ⌊x⌋ then ⌊x⌋ + 1
  else if Even ⌊x⌋ then ⌊x⌋ else ⌊x⌋ + 1

/-- Exponent of the unit in the last of `p` significant digits of `x`. -/
def unitExp (b p : ℕ) (x : K) : ℤ := Int.log b |x| - (p - 1)

/-- `x` rounded half-even to `p` significant digits in base `b`. -/
def roundSig (b p : ℕ) (x : K) : K :=
  halfEven (x / (b : K) ^ unitExp b p x) * (b : K) ^ unitExp b p x

theorem halfEven_of_abs_lt {x : K} {n : ℤ} (h : |x - n| < 1 / 2) :
    halfEven x = n := by
  rw [abs_lt] at h
  unfold halfEven
  rcases le_or_gt (n : K) x with hle | hlt
  · have hfloor : ⌊x⌋ = n := Int.floor_eq_iff.mpr ⟨hle, by linarith⟩
    rw [hfloor, if_pos h.2]
  · have hfloor : ⌊x⌋ = n - 1 := by
      rw [Int.floor_eq_iff]
      push_cast
      constructor <;> linarith
    rw [hfloor]
    push_cast
    rw [if_neg (by linarith), if_pos (by linarith)]
    ring

@[simp] theorem halfEven_intCast (n : ℤ) : halfEven (n : K) = n :=
  halfEven_of_abs_lt (by simp)

@[simp] theorem halfEven_zero : halfEven (0 : K) = 0 := by
  simpa using halfEven_intCast (K := K) 0

theorem halfEven_neg (x : K) : halfEven (-x) = -halfEven x := by
  by_cases hint : x = ⌊x⌋
  · rw [hint, ← Int.cast_neg, halfEven_intCast, halfEven_intCast]
  · have hlow := Int.floor_le x
    have hhigh := Int.lt_floor_add_one x
    have hpos : (⌊x⌋ : K) < x := lt_of_le_of_ne hlow (Ne.symm hint)
    have hfloor : ⌊-x⌋ = -⌊x⌋ - 1 := by
      rw [Int.floor_eq_iff]
      push_cast
      constructor <;> linarith
    have heven : Even (-⌊x⌋ - 1) ↔ ¬ Even ⌊x⌋ := by
      rw [Int.even_sub_one, even_neg]
    unfold halfEven
    rw [hfloor]
    push_cast
    simp only [heven]
    rcases lt_trichotomy (x - ⌊x⌋) (1 / 2) with h | h | h
    · rw [if_neg (by linarith), if_pos (by linarith), if_pos h]
      ring
    · rw [if_neg (by linarith), if_neg (by linarith)]
      rw [if_neg (by linarith : ¬ x - ⌊x⌋ < 1 / 2),
        if_neg (by linarith : ¬ 1 / 2 < x - ⌊x⌋)]
      by_cases hev : Even ⌊x⌋
      · rw [if_neg (not_not.mpr hev), if_pos hev]
        ring
      · rw [if_pos hev, if_neg hev]
        ring
    · rw [if_pos (by linarith), if_neg (by linarith), if_pos h]
      ring

/--
The guard digit and the sticky bit decide: `n` is the scaled number truncated
one digit below the unit, its last digit is the guard, and the sticky bit says
whether the truncation lost anything.
-/
theorem halfEven_of_guard {h : ℕ} {y : K} {n : ℕ} (hh : 0 < h)
    (hle : (n : K) ≤ 2 * h * y) (hlt : 2 * h * y < n + 1) :
    halfEven y =
      (n / (2 * h) : ℕ) +
        if h < n % (2 * h) ∨
            (n % (2 * h) = h ∧ (2 * h * y ≠ n ∨ n / (2 * h) % 2 ≠ 0))
        then 1 else 0 := by
  set q := n / (2 * h) with hq
  set g := n % (2 * h) with hg
  have hn : n = 2 * h * q + g := (Nat.div_add_mod n (2 * h)).symm
  have hglt : g < 2 * h := Nat.mod_lt _ (by omega)
  have hb : (0 : K) < 2 * h := by positivity
  have hnK : (n : K) = 2 * h * q + g := by
    rw [hn]
    push_cast
    ring
  have hgK : (g : K) + 1 ≤ 2 * h := by exact_mod_cast hglt
  have hg0 : (0 : K) ≤ g := Nat.cast_nonneg g
  have hfloor : ⌊y⌋ = (q : ℤ) := by
    rw [Int.floor_eq_iff]
    push_cast
    constructor
    · by_contra hcon
      have : 2 * (h : K) * y < 2 * h * q :=
        mul_lt_mul_of_pos_left (not_le.mp hcon) hb
      linarith
    · by_contra hcon
      have : 2 * (h : K) * (q + 1) ≤ 2 * h * y :=
        mul_le_mul_of_nonneg_left (not_lt.mp hcon) hb.le
      linarith
  have hfrac : 2 * (h : K) * (y - q) = 2 * h * y - 2 * h * q := by ring
  have heven : Even (q : ℤ) ↔ q % 2 = 0 := by
    rw [Int.even_coe_nat, Nat.even_iff]
  unfold halfEven
  rw [hfloor]
  simp only [Int.cast_natCast, heven]
  rcases lt_trichotomy g h with hlt' | heq | hgt
  · have hgh : (g : K) + 1 ≤ h := by exact_mod_cast hlt'
    have hhalf : y - (q : K) < 1 / 2 := by
      by_contra hcon
      have : 2 * (h : K) * (1 / 2) ≤ 2 * h * (y - q) :=
        mul_le_mul_of_nonneg_left (not_lt.mp hcon) hb.le
      linarith
    rw [if_pos hhalf, if_neg (by omega), add_zero]
  · have hghK : (g : K) = h := by exact_mod_cast heq
    by_cases hexact : 2 * (h : K) * y = n
    · have hhalf : y - (q : K) = 1 / 2 := by
        have : 2 * (h : K) * (y - q) = 2 * h * (1 / 2) := by linarith
        exact mul_left_cancel₀ hb.ne' this
      rw [if_neg (by linarith), if_neg (by linarith)]
      by_cases hodd : q % 2 = 0
      · rw [if_pos hodd, if_neg (by simp [heq, hexact, hodd]), add_zero]
      · rw [if_neg hodd, if_pos (Or.inr ⟨heq, Or.inr hodd⟩)]
    · have hmore : (n : K) < 2 * h * y := lt_of_le_of_ne hle (Ne.symm hexact)
      have hhalf : 1 / 2 < y - (q : K) := by
        by_contra hcon
        have : 2 * (h : K) * (y - q) ≤ 2 * h * (1 / 2) :=
          mul_le_mul_of_nonneg_left (not_lt.mp hcon) hb.le
        linarith
      rw [if_neg (by linarith), if_pos hhalf,
        if_pos (Or.inr ⟨heq, Or.inl hexact⟩)]
  · have hgh : (h : K) + 1 ≤ g := by exact_mod_cast hgt
    have hhalf : 1 / 2 < y - (q : K) := by
      by_contra hcon
      have : 2 * (h : K) * (y - q) ≤ 2 * h * (1 / 2) :=
        mul_le_mul_of_nonneg_left (not_lt.mp hcon) hb.le
      linarith
    rw [if_neg (by linarith), if_pos hhalf, if_pos (Or.inl hgt)]

section Significant

variable {b p : ℕ}

@[simp] theorem roundSig_zero : roundSig b p (0 : K) = 0 := by
  simp [roundSig]

theorem roundSig_neg (x : K) : roundSig b p (-x) = -roundSig b p x := by
  have hexp : unitExp b p (-x) = unitExp b p x := by simp [unitExp]
  rw [roundSig, roundSig, hexp, neg_div, halfEven_neg]
  push_cast
  ring

/-- The unit of a number whose leading digit is known. -/
theorem roundSig_of_mem (hb : 1 < b) {x : K} {e : ℤ}
    (hlow : (b : K) ^ (p - 1 + e) ≤ |x|) (hhigh : |x| < (b : K) ^ (p + e)) :
    roundSig b p x = halfEven (x / (b : K) ^ e) * (b : K) ^ e := by
  have hbK : (0 : K) < b := by exact_mod_cast (by omega : 0 < b)
  have hpos : 0 < |x| := lt_of_lt_of_le (zpow_pos hbK _) hlow
  have hge : p - 1 + e ≤ Int.log b |x| :=
    (Int.zpow_le_iff_le_log hb hpos).mp hlow
  have hlt : Int.log b |x| < p + e :=
    (Int.lt_zpow_iff_log_lt hb hpos).mp hhigh
  have hexp : unitExp b p x = e := by
    unfold unitExp
    omega
  rw [roundSig, hexp]

/--
Rounding from a digit string: `n` holds the digits of `x` down to one below
the unit, so its last digit is the guard, and the sticky bit says whether any
of `x` lies below it.
-/
theorem roundSig_of_guard {h : ℕ} (hh : 0 < h) (hb : b = 2 * h) {x : K} {n : ℕ} {e : ℤ}
    (hlow : b ^ p ≤ n) (hhigh : n < b ^ (p + 1)) (hle : (n : K) * (b : K) ^ (e - 1) ≤ x)
    (hlt : x < (n + 1) * (b : K) ^ (e - 1)) :
    roundSig b p x =
      ((n / b + if h < n % b ∨ (n % b = h ∧
          (x ≠ n * (b : K) ^ (e - 1) ∨ n / b % 2 ≠ 0)) then 1 else 0 : ℕ) : K) *
        (b : K) ^ e := by
  have hb1 : 1 < b := by omega
  have hbK : (0 : K) < b := by exact_mod_cast (by omega : 0 < b)
  have hE1 := zpow_pos hbK (e - 1)
  have hE := zpow_pos hbK e
  have hstep : (b : K) ^ e = b * (b : K) ^ (e - 1) := by
    rw [← zpow_one_add₀ hbK.ne']
    congr 1
    omega
  have hbh : (b : K) = 2 * h := by
    rw [hb]
    push_cast
    ring
  have hscale : 2 * (h : K) * (x / (b : K) ^ e) = x / (b : K) ^ (e - 1) := by
    rw [← hbh, hstep]
    field_simp
  have hlowK : (b : K) ^ p ≤ n := by exact_mod_cast hlow
  have hhighK : (n : K) + 1 ≤ (b : K) ^ (p + 1) := by exact_mod_cast hhigh
  have hpowLow : (b : K) ^ ((p : ℤ) - 1 + e) = (b : K) ^ p * (b : K) ^ (e - 1) := by
    rw [← zpow_natCast, ← zpow_add₀ hbK.ne']
    congr 1
    ring
  have hpowHigh : (b : K) ^ ((p : ℤ) + e) =
      (b : K) ^ (p + 1) * (b : K) ^ (e - 1) := by
    rw [← zpow_natCast, ← zpow_add₀ hbK.ne']
    congr 1
    push_cast
    ring
  have hxlow : (b : K) ^ p * (b : K) ^ (e - 1) ≤ x :=
    le_trans (mul_le_mul_of_nonneg_right hlowK hE1.le) hle
  have hxhigh : x < (b : K) ^ (p + 1) * (b : K) ^ (e - 1) :=
    lt_of_lt_of_le hlt (mul_le_mul_of_nonneg_right hhighK hE1.le)
  have hxpos : 0 < x :=
    lt_of_lt_of_le (mul_pos (pow_pos hbK p) hE1) hxlow
  rw [roundSig_of_mem (e := e) hb1
    (by rw [hpowLow, abs_of_pos hxpos]; exact hxlow)
    (by rw [hpowHigh, abs_of_pos hxpos]; exact hxhigh)]
  have hguard := halfEven_of_guard (y := x / (b : K) ^ e) (n := n) hh
    (by rw [hscale, le_div_iff₀ hE1]; exact hle)
    (by rw [hscale, div_lt_iff₀ hE1]; exact hlt)
  rw [← hb, hscale] at hguard
  simp only [ne_eq, div_eq_iff hE1.ne'] at hguard
  rw [hguard]
  simp only [ne_eq, Int.cast_add, Int.cast_natCast, Int.cast_ite, Int.cast_one,
    Int.cast_zero, Nat.cast_add, Nat.cast_ite, Nat.cast_one, Nat.cast_zero]

/-- A number that needs no more than `p` digits is left alone. -/
theorem roundSig_eq_self (hb : 1 < b) {m e : ℤ} {x : K}
    (hx : x = m * (b : K) ^ e) (hm : |(m : K)| < (b : K) ^ p) :
    roundSig b p x = x := by
  have hbK : (0 : K) < b := by exact_mod_cast (by omega : 0 < b)
  by_cases hzero : x = 0
  · rw [hzero, roundSig_zero]
  · have hpos : 0 < |x| := abs_pos.mpr hzero
    have habs : |x| < (b : K) ^ (p + e) := by
      rw [hx, abs_mul, abs_of_pos (zpow_pos hbK e), zpow_add₀ hbK.ne',
        zpow_natCast]
      exact mul_lt_mul_of_pos_right hm (zpow_pos hbK e)
    have hlog := (Int.lt_zpow_iff_log_lt hb hpos).mp habs
    have hle : unitExp b p x ≤ e := by
      unfold unitExp
      omega
    obtain ⟨k, hk⟩ := Int.le.dest hle
    have hunit := zpow_pos hbK (unitExp b p x)
    have hscaled : x / (b : K) ^ unitExp b p x = ((m * b ^ k : ℤ) : K) := by
      rw [div_eq_iff hunit.ne']
      push_cast
      calc x = m * (b : K) ^ (unitExp b p x + k) := by rw [hk, ← hx]
        _ = m * b ^ k * (b : K) ^ unitExp b p x := by
            rw [zpow_add₀ hbK.ne', zpow_natCast]
            ring
    rw [roundSig, hscaled, halfEven_intCast, ← hscaled]
    exact div_mul_cancel₀ _ hunit.ne'

/--
A number closer than half a digit below the last unit to a `p`-digit number
rounds to it, also when it lies just below a power of the base.
-/
theorem roundSig_of_near (hb : 1 < b) (hp : 0 < p) {m : ℕ} {e : ℤ} {x : K}
    (hlow : b ^ (p - 1) ≤ m) (hhigh : m < b ^ p)
    (hnear : |x - m * (b : K) ^ e| < (b : K) ^ (e - 1) / 2) :
    roundSig b p x = m * (b : K) ^ e := by
  have hbK : (0 : K) < b := by exact_mod_cast (by omega : 0 < b)
  have hb1 : (2 : K) ≤ b := by exact_mod_cast hb
  have hE := zpow_pos hbK e
  have hE1 := zpow_pos hbK (e - 1)
  have hstep : (b : K) ^ e = b * (b : K) ^ (e - 1) := by
    rw [← zpow_one_add₀ hbK.ne']
    congr 1
    omega
  have hone : (b : K) ^ (e - 1) ≤ (b : K) ^ e := by
    rw [hstep]
    nlinarith
  obtain ⟨k, rfl⟩ : ∃ k, p = k + 1 := ⟨p - 1, by omega⟩
  have hlowK : (b : K) ^ k ≤ m := by
    have : b ^ k ≤ m := by simpa using hlow
    exact_mod_cast this
  have hhighK : (m : K) + 1 ≤ (b : K) ^ (k + 1) := by exact_mod_cast hhigh
  have hpk := pow_pos hbK k
  have hk1 : (1 : K) ≤ (b : K) ^ k := one_le_pow₀ (by linarith)
  rw [abs_lt] at hnear
  have hmE : (b : K) ^ k * (b : K) ^ e ≤ m * (b : K) ^ e :=
    mul_le_mul_of_nonneg_right hlowK hE.le
  have hMe : ((m : K) + 1) * (b : K) ^ e ≤ (b : K) ^ (k + 1) * (b : K) ^ e :=
    mul_le_mul_of_nonneg_right hhighK hE.le
  have hkE : (b : K) ^ e ≤ (b : K) ^ k * (b : K) ^ e := by nlinarith
  have hxpos : 0 < x := by linarith
  have hpowHigh : (b : K) ^ (((k + 1 : ℕ) : ℤ) + e) =
      (b : K) ^ (k + 1) * (b : K) ^ e := by
    rw [zpow_add₀ hbK.ne', zpow_natCast]
  have hpowLow : (b : K) ^ (((k + 1 : ℕ) : ℤ) - 1 + e) =
      (b : K) ^ k * (b : K) ^ e := by
    rw [show ((k + 1 : ℕ) : ℤ) - 1 + e = (k : ℤ) + e by push_cast; ring,
      zpow_add₀ hbK.ne', zpow_natCast]
  rcases le_or_gt ((b : K) ^ k * (b : K) ^ e) x with hge | hlt
  · rw [roundSig_of_mem (e := e) hb
      (by rw [hpowLow, abs_of_pos hxpos]; exact hge)
      (by rw [hpowHigh, abs_of_pos hxpos]; linarith)]
    have hround : halfEven (x / (b : K) ^ e) = (m : ℤ) := by
      apply halfEven_of_abs_lt
      rw [abs_lt]
      push_cast
      have hsub : x / (b : K) ^ e - m = (x - m * (b : K) ^ e) / (b : K) ^ e := by
        field_simp
      rw [hsub]
      constructor
      · rw [lt_div_iff₀ hE]
        linarith
      · rw [div_lt_iff₀ hE]
        linarith
    rw [hround]
    push_cast
    ring
  · have hpowHigh' : (b : K) ^ (((k + 1 : ℕ) : ℤ) + (e - 1)) =
        (b : K) ^ k * (b : K) ^ e := by
      rw [← hpowLow]
      congr 1
      ring
    have hpowLow' : (b : K) ^ (((k + 1 : ℕ) : ℤ) - 1 + (e - 1)) =
        (b : K) ^ k * (b : K) ^ (e - 1) := by
      rw [show ((k + 1 : ℕ) : ℤ) - 1 + (e - 1) = (k : ℤ) + (e - 1) by
        push_cast; ring, zpow_add₀ hbK.ne', zpow_natCast]
    have hgap : (b : K) ^ k * (b : K) ^ (e - 1) ≤
        (b : K) ^ k * (b : K) ^ e - (b : K) ^ (e - 1) / 2 := by
      rw [hstep]
      nlinarith [mul_pos hpk hE1, mul_le_mul_of_nonneg_right hk1 hE1.le]
    rw [roundSig_of_mem (e := e - 1) hb
      (by rw [hpowLow', abs_of_pos hxpos]; linarith)
      (by rw [hpowHigh', abs_of_pos hxpos]; exact hlt)]
    have hround : halfEven (x / (b : K) ^ (e - 1)) = ((m * b : ℕ) : ℤ) := by
      apply halfEven_of_abs_lt
      rw [abs_lt]
      push_cast
      have hsub : x / (b : K) ^ (e - 1) - m * b =
          (x - m * (b : K) ^ e) / (b : K) ^ (e - 1) := by
        rw [hstep]
        field_simp
      rw [hsub]
      constructor
      · rw [lt_div_iff₀ hE1]
        linarith
      · rw [div_lt_iff₀ hE1]
        linarith
    rw [hround, hstep]
    push_cast
    ring

end Significant

end HalfEven
end Beans
