import Beans.Decimal.Arithmetic

/-!
# Comparison and hashing

Comparison looks at the signs, then at the exponents of the leading digits, and
aligns the coefficients only when those agree.  Hashing strips the trailing
zeros of the fraction first, so that equal decimals of different scales hash
alike.
-/

namespace Beans
namespace Decimal

/-- The order of two nonzero magnitudes. -/
def decCmpMagnitude (a b : BDec) : Except Panic Int :=
  let ae := decAdjusted a
  let be := decAdjusted b
  if ae ≠ be then .ok (if ae < be then -1 else 1)
  else do
    let scale := if b.s < a.s then a.s else b.s
    let aw ← decwMulPow10 (decwFrom128 (decMag a)) (scale - a.s) ⟨0, 0⟩
    let bw ← decwMulPow10 (decwFrom128 (decMag b)) (scale - b.s) ⟨0, 0⟩
    .ok (decwCmp aw bw)

def beansDecCmp (a b : BDec) : Except Panic Int :=
  if decNegative a && !decNegative b then .ok (-1)
  else if !decNegative a && decNegative b then .ok 1
  else if decZero a then .ok (if decZero b then 0 else -1)
  else if decZero b then .ok 1
  else do
    let order ← decCmpMagnitude a b
    .ok (if decNegative a then -order else order)

/-- Trailing zeros of the fraction, stripped for at most `fuel` places. -/
def decHashStrip : ℕ → BU128 → Int → BU128 × Int
  | 0, magnitude, s => (magnitude, s)
  | fuel + 1, magnitude, s =>
    if 0 < s then
      match buDivSmall magnitude 10 with
      | none => (magnitude, s)
      | some (quotient, remainder) =>
        if remainder ≠ 0 then (magnitude, s)
        else decHashStrip fuel quotient (s - 1)
    else (magnitude, s)

def beansDecHash (d : BDec) : Int64 :=
  let (magnitude, s) := decHashStrip d.s.toNat (decMag d) d.s
  let bits := if decNegative d then buTwos magnitude else magnitude
  (beansMix64 (bits.lo ^^^ beansMix64 (bits.hi ^^^ UInt64.ofInt s))).toInt64

/-- Leading digits decide, and equal ones are compared at one scale. -/
theorem decCmpMagnitude_spec {a b : BDec} (ha : a.Representable)
    (hb : b.Representable) (hza : a.coeff ≠ 0) (hzb : b.coeff ≠ 0) :
    decCmpMagnitude a b = .ok (SignType.sign (|a.toRat| - |b.toRat|) : ℤ) := by
  obtain ⟨halow, hahigh⟩ := decAdjusted_spec hza
  obtain ⟨hblow, hbhigh⟩ := decAdjusted_spec hzb
  have hscale : (if b.s < a.s then a.s else b.s) = max a.s b.s := by
    split_ifs <;> omega
  unfold decCmpMagnitude
  rw [hscale]
  dsimp only
  rcases lt_trichotomy (decAdjusted a) (decAdjusted b) with hlt | heq | hgt
  · have hle : (10 : ℚ) ^ (decAdjusted a + 1) ≤ 10 ^ decAdjusted b :=
      zpow_le_zpow_right₀ (by norm_num) (by omega)
    rw [if_pos hlt.ne, if_pos hlt, sign_neg (by linarith)]
    rfl
  · rw [if_neg (not_not.mpr heq)]
    obtain ⟨sa, sb, hsa, hsb, ha150, hb150, hwa, hwb⟩ :=
      decAligned_bounds ha hb hza hzb (by omega) (by omega)
    have hlimit : 10 ^ 78 < wideLimit := by
      unfold wideLimit bdecWideLimbs
      norm_num
    rw [show max a.s b.s - a.s = sa by omega,
      show max a.s b.s - b.s = sb by omega,
      decwMulPow10_of_lt _ ha150 (by rw [decwFrom128_toNat]; omega),
      decwMulPow10_of_lt _ hb150 (by rw [decwFrom128_toNat]; omega),
      ok_bind, ok_bind, decwFrom128_toNat, decwFrom128_toNat, decwCmp_eq,
      BDecWide.toNat_ofNat (by omega), BDecWide.toNat_ofNat (by omega),
      BDec.abs_toRat, BDec.abs_toRat, ← workingRat_mul_pow _ sa a.s,
      ← workingRat_mul_pow _ sb b.s, hsa, hsb]
    generalize (decMag a).toNat * 10 ^ sa = m
    generalize (decMag b).toNat * 10 ^ sb = n
    rcases lt_trichotomy m n with h | h | h
    · rw [if_pos h, sign_neg (sub_neg.mpr (workingRat_lt_iff.mpr h))]
      rfl
    · rw [if_neg (by omega), if_neg (by omega), h, sub_self, sign_zero]
      rfl
    · rw [if_neg (by omega), if_pos h,
        sign_pos (sub_pos.mpr (workingRat_lt_iff.mpr h))]
      rfl
  · have hle : (10 : ℚ) ^ (decAdjusted b + 1) ≤ 10 ^ decAdjusted a :=
      zpow_le_zpow_right₀ (by norm_num) (by omega)
    rw [if_pos hgt.ne', if_neg (by omega), sign_pos (by linarith)]
    rfl

/-- The comparison is that of the exact values, whatever the scales. -/
theorem beansDecCmp_spec {a b : BDec} (ha : a.Representable)
    (hb : b.Representable) :
    beansDecCmp a b = .ok (SignType.sign (a.toRat - b.toRat) : ℤ) := by
  have hnegA := (decNegative_iff_coeff a).trans a.toRat_neg_iff.symm
  have hnegB := (decNegative_iff_coeff b).trans b.toRat_neg_iff.symm
  have hzeroA := (decZero_iff a).trans a.toRat_eq_zero_iff.symm
  have hzeroB := (decZero_iff b).trans b.toRat_eq_zero_iff.symm
  have hmag : a.toRat ≠ 0 → b.toRat ≠ 0 →
      decCmpMagnitude a b = .ok (SignType.sign (|a.toRat| - |b.toRat|) : ℤ) :=
    fun hza hzb => decCmpMagnitude_spec ha hb (mt a.toRat_eq_zero_iff.mpr hza)
      (mt b.toRat_eq_zero_iff.mpr hzb)
  unfold beansDecCmp
  generalize a.toRat = x at *
  generalize b.toRat = y at *
  by_cases hna : decNegative a = true
  · have hx := hnegA.mp hna
    rw [hna]
    by_cases hnb : decNegative b = true
    · have hy := hnegB.mp hnb
      have hza : decZero a = false := by
        rw [← Bool.not_eq_true, hzeroA]
        exact hx.ne
      have hzb : decZero b = false := by
        rw [← Bool.not_eq_true, hzeroB]
        exact hy.ne
      rw [hnb, hza, hzb, hmag hx.ne hy.ne, abs_of_neg hx, abs_of_neg hy]
      have hflip : -x - -y = -(x - y) := by ring
      rw [hflip, Left.sign_neg]
      simp
    · have hy : 0 ≤ y := not_lt.mp (mt hnegB.mpr hnb)
      rw [Bool.not_eq_true] at hnb
      rw [hnb, sign_neg (by linarith)]
      rfl
  · have hx : 0 ≤ x := not_lt.mp (mt hnegA.mpr hna)
    rw [Bool.not_eq_true] at hna
    rw [hna]
    by_cases hnb : decNegative b = true
    · have hy := hnegB.mp hnb
      rw [hnb, sign_pos (by linarith)]
      rfl
    · have hy : 0 ≤ y := not_lt.mp (mt hnegB.mpr hnb)
      rw [Bool.not_eq_true] at hnb
      rw [hnb]
      by_cases hza : decZero a = true
      · have hx0 := hzeroA.mp hza
        by_cases hzb : decZero b = true
        · rw [hza, hzb, hx0, hzeroB.mp hzb, sub_self, sign_zero]
          rfl
        · have hypos : 0 < y := lt_of_le_of_ne hy (Ne.symm (mt hzeroB.mpr hzb))
          rw [Bool.not_eq_true] at hzb
          rw [hza, hzb, hx0, sign_neg (by linarith)]
          rfl
      · have hxne := mt hzeroA.mpr hza
        have hxpos : 0 < x := lt_of_le_of_ne hx (Ne.symm hxne)
        rw [Bool.not_eq_true] at hza
        by_cases hzb : decZero b = true
        · rw [hza, hzb, hzeroB.mp hzb, sub_zero, sign_pos hxpos]
          rfl
        · have hyne := mt hzeroB.mpr hzb
          rw [Bool.not_eq_true] at hzb
          rw [hza, hzb, hmag hxne hyne, abs_of_nonneg hx, abs_of_nonneg hy]
          rfl

theorem decHashStrip_spec :
    ∀ (fuel : ℕ) (m : BU128) (s : ℤ), s.toNat ≤ fuel → 0 ≤ s →
      ∃ k : ℕ, m.toNat = (decHashStrip fuel m s).1.toNat * 10 ^ k ∧
        s = (decHashStrip fuel m s).2 + k ∧ 0 ≤ (decHashStrip fuel m s).2 ∧
        ((decHashStrip fuel m s).2 = 0 ∨
          (decHashStrip fuel m s).1.toNat % 10 ≠ 0)
  | 0, m, s, hfuel, hs => by
      exact ⟨0, by simp [decHashStrip], by simp [decHashStrip], hs,
        Or.inl (by simp only [decHashStrip]; omega)⟩
  | fuel + 1, m, s, hfuel, hs => by
      unfold decHashStrip
      by_cases hpos : 0 < s
      · obtain ⟨q, r, hdiv, hq, hr⟩ :=
          buDivSmall_spec m 10 (by decide)
        have hten : (10 : UInt32).toNat = 10 := rfl
        rw [hten] at hq hr
        rw [if_pos hpos, hdiv]
        dsimp only
        by_cases hrem : r = 0
        · rw [if_neg (not_not.mpr hrem)]
          obtain ⟨k, hm, hk, h0, hend⟩ :=
            decHashStrip_spec fuel q (s - 1) (by omega) (by omega)
          refine ⟨k + 1, ?_, by push_cast; omega, h0, hend⟩
          rw [hrem, UInt32.toNat_zero] at hr
          rw [pow_succ, ← Nat.mul_assoc, ← hm, hq]
          omega
        · rw [if_pos hrem]
          have : r.toNat ≠ 0 := fun h => hrem (UInt32.toNat_inj.mp h)
          exact ⟨0, by simp, by simp, hs, Or.inr (by dsimp only; omega)⟩
      · rw [if_neg hpos]
        exact ⟨0, by simp, by simp, hs, Or.inl (by dsimp only; omega)⟩

/-- Stripped coefficients of one number are one coefficient at one scale. -/
theorem workingRat_canonical {m n : ℕ} {s t : ℤ}
    (h : workingRat m s = workingRat n t) (ht : 0 ≤ t)
    (hm : s = 0 ∨ m % 10 ≠ 0) (hle : t ≤ s) : m = n ∧ s = t := by
  obtain ⟨k, hk⟩ := Int.le.dest hle
  rw [← workingRat_mul_pow n k t, hk, workingRat_inj] at h
  rcases Nat.eq_zero_or_pos k with rfl | hpos
  · exact ⟨by simpa using h, by omega⟩
  · obtain ⟨j, rfl⟩ : ∃ j, k = j + 1 := ⟨k - 1, by omega⟩
    rw [pow_succ, ← Nat.mul_assoc] at h
    have := hm.resolve_left (by omega)
    omega

theorem decHashStrip_eq {a b : BDec} (ha : 0 ≤ a.s) (hb : 0 ≤ b.s)
    (h : |a.toRat| = |b.toRat|) :
    decHashStrip a.s.toNat (decMag a) a.s =
      decHashStrip b.s.toNat (decMag b) b.s := by
  obtain ⟨k, hma, hsa, ha0, hendA⟩ :=
    decHashStrip_spec a.s.toNat (decMag a) a.s le_rfl ha
  obtain ⟨l, hmb, hsb, hb0, hendB⟩ :=
    decHashStrip_spec b.s.toNat (decMag b) b.s le_rfl hb
  rw [BDec.abs_toRat, BDec.abs_toRat, hma, hmb] at h
  generalize decHashStrip a.s.toNat (decMag a) a.s = p at *
  generalize decHashStrip b.s.toNat (decMag b) b.s = q at *
  rw [hsa, hsb, workingRat_mul_pow, workingRat_mul_pow] at h
  have hpair : p.1.toNat = q.1.toNat ∧ p.2 = q.2 := by
    rcases le_total q.2 p.2 with hle | hle
    · exact workingRat_canonical h hb0 hendA hle
    · have := workingRat_canonical h.symm ha0 hendB hle
      exact ⟨this.1.symm, this.2.symm⟩
  exact Prod.ext (BU128.toNat_inj.mp hpair.1) hpair.2

/-- Equal decimals hash alike, whatever their scales. -/
theorem beansDecHash_eq {a b : BDec} (ha : a.Representable)
    (hb : b.Representable) (h : a.toRat = b.toRat) :
    beansDecHash a = beansDecHash b := by
  have hstrip := decHashStrip_eq ha.scale_nonneg hb.scale_nonneg (by rw [h])
  have hneg : decNegative a = decNegative b := by
    rw [Bool.eq_iff_iff, decNegative_iff_coeff, decNegative_iff_coeff,
      ← BDec.toRat_neg_iff, ← BDec.toRat_neg_iff, h]
  unfold beansDecHash
  rw [hstrip, hneg]

end Decimal
end Beans
