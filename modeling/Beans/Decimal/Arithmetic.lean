import Beans.Decimal.Finish

/-!
# Addition, subtraction and multiplication

Addition aligns its operands and adds them exactly, unless one of them is zero
or lies more than 39 decimal places below the other; then the larger one is
only widened towards the scale of the sum.  Every operation is specified by
`Rounded`: the decimal it returns is the exact result rounded half-even to 38
digits, and its scale is the ideal scale or as close below it as 38 digits
allow.
-/

namespace Beans
namespace Decimal

open HalfEven

/-- Widens a value towards a larger scale, within 38 digits. -/
def decWiden (value : BDec) (scale : Int) (site : Site) : Except Panic BDec :=
  if scale ≤ value.s then .ok value
  else if decZero value then
    if bdecMaxScale < scale then decOverflow site
    else .ok (decSet ⟨0, 0⟩ false scale)
  else
    let room := (bdecPrecision : Int) - decDigits128 (decMag value)
    let step := scale - value.s
    let step := if room < step then room else step
    if step ≤ 0 then .ok value
    else do
      let wide ← decwMulPow10 (decwFrom128 (decMag value)) step site
      decFinish wide (decNegative value) (value.s + step) broundHalfEven site

/-- Exponent of the leading digit, `digits - 1 - scale`. -/
def decAdjusted (value : BDec) : Int :=
  (decDigits128 (decMag value) : Int) - 1 - value.s

/-- The aligned sum, for operands whose digits overlap. -/
def decAddAligned (a b : BDec) (scale : Int) (site : Site) :
    Except Panic BDec := do
  let aw ← decwMulPow10 (decwFrom128 (decMag a)) (scale - a.s) site
  let bw ← decwMulPow10 (decwFrom128 (decMag b)) (scale - b.s) site
  let an := decNegative a
  let bn := decNegative b
  if an = bn then do
    let sum ← decwAdd aw bw site
    decFinish sum an scale broundHalfEven site
  else
    let order := decwCmp aw bw
    if order = 0 then .ok (decSet ⟨0, 0⟩ false scale)
    else if 0 < order then
      decFinish (decwSub aw bw) an scale broundHalfEven site
    else decFinish (decwSub bw aw) bn scale broundHalfEven site

def beansDecvAdd (a b : BDec) (site : Site) : Except Panic BDec :=
  let scale := if b.s < a.s then a.s else b.s
  if decZero a || decZero b then
    decWiden (if decZero a then b else a) scale site
  else
    let ae := decAdjusted a
    let be := decAdjusted b
    if (bdecPrecision : Int) + 1 < ae - be then decWiden a scale site
    else if (bdecPrecision : Int) + 1 < be - ae then decWiden b scale site
    else decAddAligned a b scale site

def beansDecvNeg (value : BDec) : BDec :=
  decSet (decMag value) (!decNegative value) value.s

def beansDecvSub (a b : BDec) (site : Site) : Except Panic BDec :=
  beansDecvAdd a (beansDecvNeg b) site

def beansDecvMul (a b : BDec) (site : Site) : Except Panic BDec := do
  let product ← decwMultiply (decMag a) (decMag b) site
  decFinish product (decNegative a != decNegative b) (a.s + b.s)
    broundHalfEven site

/-- Some decimal denotes exactly `x`. -/
def FitsDecimal (x : ℚ) : Prop := ∃ d : BDec, d.Representable ∧ d.toRat = x

/-- The exact result `x` rounded to 38 digits, at its ideal scale or below. -/
structure Rounded (x : ℚ) (ideal : ℤ) (d : BDec) : Prop where
  toRat_eq : d.toRat = roundSig 10 bdecPrecision x
  representable : d.Representable
  scale_cases : d.s = ideal ∨
    (d.s < ideal ∧ 10 ^ (bdecPrecision - 1) ≤ |d.coeff|) ∨
    (bdecMaxScale < ideal ∧ d.s = bdecMaxScale) ∨ (ideal < 0 ∧ d.s = 0)

/-- A rounded result, or a panic when no decimal is the exact result. -/
def RoundedOrPanic (x : ℚ) (ideal : ℤ) (site : Site)
    (r : Except Panic BDec) : Prop :=
  (∃ d, r = .ok d ∧ Rounded x ideal d) ∨
    (r = decOverflow site ∧ ¬ FitsDecimal x)

/-- A number under a sign. -/
def signed (negative : Bool) (x : ℚ) : ℚ := (if negative then -1 else 1) * x

theorem roundSig_signed (negative : Bool) (x : ℚ) :
    roundSig 10 bdecPrecision (signed negative x) =
      signed negative (roundSig 10 bdecPrecision x) := by
  cases negative with
  | false => simp [signed]
  | true => simp [signed, roundSig_neg]

theorem BDec.toRat_eq_signed (d : BDec) :
    d.toRat = signed (decNegative d) (workingRat (decMag d).toNat d.s) :=
  d.toRat_eq

variable {a b d value : BDec} {n shift : ℕ} {scale : ℤ}

/-- A decimal is its own rounding. -/
theorem BDec.Representable.roundSig_toRat (h : d.Representable) :
    roundSig 10 bdecPrecision d.toRat = d.toRat := by
  rw [BDec.toRat_eq_signed, roundSig_signed, roundSig_workingRat h.decMag_lt]

theorem Finished.rounded_signed {negative : Bool}
    (h : Finished negative n scale d) :
    Rounded (signed negative (workingRat n scale)) scale d := by
  refine ⟨?_, h.representable, ?_⟩
  · rw [BDec.toRat_eq_signed, h.decNegative_eq, h.rounded, roundSig_signed]
  · have := h.scale_cases
    rw [← decMag_toNat]
    rcases this with h | ⟨h, hm⟩ | h | h
    · exact Or.inl h
    · exact Or.inr (Or.inl ⟨h, by exact_mod_cast hm⟩)
    · exact Or.inr (Or.inr (Or.inl h))
    · exact Or.inr (Or.inr (Or.inr h))

theorem Unfit.not_fits_signed {x : ℚ} (hx : 0 ≤ x) (h : Unfit x)
    (negative : Bool) : ¬ FitsDecimal (signed negative x) := by
  rintro ⟨d, hd, heq⟩
  refine h d hd ?_
  rw [heq, signed, abs_mul, abs_of_nonneg hx]
  split_ifs <;> simp

/-- What `decFinish` makes of a nonzero magnitude under a sign. -/
theorem decFinish_roundedOrPanic (negative : Bool) (scale : ℤ)
    (site : Site) (hn : 0 < n) (hlt : n < wideLimit) :
    RoundedOrPanic (signed negative (workingRat n scale)) scale site
      (decFinish (BDecWide.ofNat n) negative scale broundHalfEven site) := by
  rcases decFinish_spec negative scale site hn hlt with ⟨d, hok, hd⟩ | ⟨hp, hun⟩
  · exact Or.inl ⟨d, hok, hd.rounded_signed⟩
  · exact Or.inr ⟨hp, hun.not_fits_signed (workingRat_nonneg n scale) negative⟩

/-- `d` is `value` with zeros appended, as many as 38 digits allow. -/
structure Widened (value : BDec) (scale : ℤ) (d : BDec) : Prop where
  coeff : ∃ k : ℕ, d.coeff = value.coeff * 10 ^ k ∧ d.s = value.s + k
  representable : d.Representable
  reaches : d.s = scale ∨ (d.s < scale ∧ 10 ^ (bdecPrecision - 1) ≤ |d.coeff|)

theorem Widened.toRat_eq
    (h : Widened value scale d) : d.toRat = value.toRat := by
  obtain ⟨k, hc, hs⟩ := h.coeff
  unfold BDec.toRat
  rw [hc, hs, neg_add, zpow_add₀ (by norm_num), zpow_neg _ (k : ℤ), zpow_natCast]
  push_cast
  field_simp

theorem Widened.rounded
    (h : Widened value scale d) : Rounded value.toRat scale d := by
  refine ⟨?_, h.representable, ?_⟩
  · rw [← h.toRat_eq, h.representable.roundSig_toRat]
  · rcases h.reaches with h | h
    · exact Or.inl h
    · exact Or.inr (Or.inl h)

/-- Widening multiplies by the power of ten that is missing, exactly. -/
theorem decWiden_spec (site : Site)
    (hv : value.Representable) (hle : value.s ≤ scale)
    (hmax : scale ≤ bdecMaxScale) :
    ∃ d, decWiden value scale site = .ok d ∧ Widened value scale d := by
  unfold decWiden
  rcases eq_or_lt_of_le hle with heq | hlt
  · rw [if_pos heq.ge]
    exact ⟨value, rfl, ⟨0, by simp, by simp⟩, hv, Or.inl heq⟩
  rw [if_neg (by omega)]
  by_cases hzero : decZero value = true
  · rw [if_pos hzero, if_neg (by omega)]
    have hcoeff : (decSet ⟨0, 0⟩ false scale).coeff = 0 := by
      rw [← decZero_iff]
      rfl
    refine ⟨_, rfl, ⟨(scale - value.s).toNat, ?_, ?_⟩, ⟨?_, ?_, ?_⟩, Or.inl rfl⟩
    · rw [hcoeff, (decZero_iff value).mp hzero, zero_mul]
    · rw [decSet_s]
      omega
    · rw [hcoeff]
      norm_num
    · have := hv.scale_nonneg
      rw [decSet_s]
      omega
    · rw [decSet_s]
      exact hmax
  · rw [if_neg hzero]
    have hmagpos : 0 < (decMag value).toNat := by
      rw [decZero_iff, ← decMag_toNat_eq_zero_iff] at hzero
      omega
    have hdigits : numDigits (decMag value).toNat ≤ bdecPrecision :=
      (numDigits_le_iff (by decide)).mpr hv.decMag_lt
    have hsnonneg := hv.scale_nonneg
    dsimp only
    rw [decDigits128_eq]
    by_cases hfull : numDigits (decMag value).toNat = bdecPrecision
    · rw [hfull, sub_self, if_pos (by omega)]
      refine ⟨value, rfl, ⟨0, by simp, by simp⟩, hv, Or.inr ⟨hlt, ?_⟩⟩
      have hge : ¬ (decMag value).toNat < 10 ^ (bdecPrecision - 1) := by
        rw [← numDigits_le_iff (by decide), hfull]
        decide
      rw [← decMag_toNat]
      exact_mod_cast not_lt.mp hge
    · obtain ⟨step, hstep, hpos, hfit, hreach⟩ : ∃ step : ℕ,
          (if (bdecPrecision : ℤ) - numDigits (decMag value).toNat <
              scale - value.s then
            (bdecPrecision : ℤ) - numDigits (decMag value).toNat
          else scale - value.s) = step ∧ 0 < step ∧
          numDigits (decMag value).toNat + step ≤ bdecPrecision ∧
          (value.s + step = scale ∨ (value.s + step < scale ∧
            numDigits (decMag value).toNat + step = bdecPrecision)) := by
        split_ifs with h
        · exact ⟨bdecPrecision - numDigits (decMag value).toNat,
            by omega, by omega, by omega, Or.inr ⟨by omega, by omega⟩⟩
        · exact ⟨(scale - value.s).toNat, by omega, by omega, by omega,
            Or.inl (by omega)⟩
      rw [hstep, if_neg (by omega)]
      rw [← numDigits_mul_pow hmagpos] at hfit hreach
      have hlt38 := (numDigits_le_iff (by decide)).mp hfit
      have hwide := lt_trans hlt38 pow_bdecPrecision_lt
      have hstep150 : step ≤ 150 := by
        have := numDigits_mul_pow hmagpos step
        unfold bdecPrecision at *
        omega
      rw [decwMulPow10_of_lt site hstep150 (by simpa using hwide), ok_bind,
        decwFrom128_toNat]
      rcases decFinish_spec (decNegative value) (value.s + step) site
        (by positivity) hwide with ⟨d, hok, hd⟩ | ⟨-, hun⟩
      · obtain ⟨hs, hmag⟩ := hd.scale_eq hlt38 (by omega) (by omega)
        refine ⟨d, hok, ⟨step, ?_, hs⟩, hd.representable, ?_⟩
        · rw [BDec.coeff_eq_sign_mul, hd.decNegative_eq, hmag,
            BDec.coeff_eq_sign_mul value]
          push_cast
          ring
        · rw [hs, ← decMag_toNat, hmag]
          rcases hreach with h | ⟨h, hfull⟩
          · exact Or.inl h
          · refine Or.inr ⟨h, ?_⟩
            have hge : ¬ (decMag value).toNat * 10 ^ step <
                10 ^ (bdecPrecision - 1) := by
              rw [← numDigits_le_iff (by decide), hfull]
              decide
            exact_mod_cast not_lt.mp hge
      · refine absurd ?_ (hun value hv)
        rw [BDec.abs_toRat, workingRat_mul_pow]

theorem decAdjusted_spec (hd : d.coeff ≠ 0) :
    (10 : ℚ) ^ decAdjusted d ≤ |d.toRat| ∧
      |d.toRat| < (10 : ℚ) ^ (decAdjusted d + 1) := by
  have hne : (decMag d).toNat ≠ 0 := mt (decMag_toNat_eq_zero_iff d).mp hd
  have hadj : decAdjusted d = (Nat.log 10 (decMag d).toNat : ℤ) - d.s := by
    rw [decAdjusted, decDigits128_eq, numDigits]
    push_cast
    ring
  have hlow : ((10 : ℚ) ^ Nat.log 10 (decMag d).toNat) ≤ (decMag d).toNat := by
    exact_mod_cast Nat.pow_log_le_self 10 hne
  have hhigh : ((decMag d).toNat : ℚ) < 10 ^ (Nat.log 10 (decMag d).toNat + 1) := by
    exact_mod_cast Nat.lt_pow_succ_log_self (by omega : 1 < 10) _
  have hpow : (0 : ℚ) < 10 ^ (-d.s) := zpow_pos (by norm_num) _
  rw [BDec.abs_toRat, workingRat, hadj]
  constructor
  · rw [sub_eq_add_neg, zpow_add₀ (by norm_num), zpow_natCast]
    exact mul_le_mul_of_nonneg_right hlow hpow.le
  · rw [show (Nat.log 10 (decMag d).toNat : ℤ) - d.s + 1 =
        ((Nat.log 10 (decMag d).toNat + 1 : ℕ) : ℤ) + -d.s by push_cast; ring,
      zpow_add₀ (by norm_num), zpow_natCast]
    exact mul_lt_mul_of_pos_right hhigh hpow

/-- A nonzero decimal is at least one unit of any scale that covers it. -/
theorem BDec.zpow_le_abs_toRat (hd : d.coeff ≠ 0)
    (hs : d.s ≤ scale) : (10 : ℚ) ^ (-scale) ≤ |d.toRat| := by
  have hpos : 0 < (decMag d).toNat :=
    Nat.pos_of_ne_zero (mt (decMag_toNat_eq_zero_iff d).mp hd)
  have hone : (1 : ℚ) ≤ (decMag d).toNat := by exact_mod_cast hpos
  calc (10 : ℚ) ^ (-scale)
      ≤ 10 ^ (-d.s) := zpow_le_zpow_right₀ (by norm_num) (by omega)
    _ ≤ (decMag d).toNat * 10 ^ (-d.s) :=
        le_mul_of_one_le_left (zpow_pos (by norm_num) _).le hone
    _ = |d.toRat| := by rw [BDec.abs_toRat, workingRat]

theorem signed_signed (negative : Bool) (x : ℚ) :
    signed negative (signed negative x) = x := by
  cases negative <;> simp [signed]

theorem abs_signed (negative : Bool) (x : ℚ) : |signed negative x| = |x| := by
  cases negative <;> simp [signed]

theorem signed_add (negative : Bool) (x y : ℚ) :
    signed negative (x + y) = signed negative x + signed negative y := by
  unfold signed
  ring

/--
The skipped operand: more than 39 places below, `b` is less than half a digit
below the last of the 38 digits of the widened `a`.
-/
theorem Widened.rounded_of_far (hd : Widened a scale d) (ha : a.coeff ≠ 0) (hb : b.coeff ≠ 0)
    (hbs : b.s ≤ scale) (hfar : (bdecPrecision : ℤ) + 1 < decAdjusted a - decAdjusted b) :
    Rounded (a.toRat + b.toRat) scale d := by
  have hprec : (bdecPrecision : ℤ) = 38 := rfl
  obtain ⟨halow, -⟩ := decAdjusted_spec ha
  obtain ⟨-, hbhigh⟩ := decAdjusted_spec hb
  have hdlt := hd.representable.decMag_lt
  have hmagQ : ((decMag d).toNat : ℚ) < 10 ^ bdecPrecision := by
    exact_mod_cast hdlt
  have hpow : (0 : ℚ) < 10 ^ (-d.s) := zpow_pos (by norm_num) _
  have habs : |a.toRat| < (10 : ℚ) ^ ((bdecPrecision : ℤ) - d.s) := by
    rw [← hd.toRat_eq, BDec.abs_toRat, workingRat, sub_eq_add_neg,
      zpow_add₀ (by norm_num), zpow_natCast]
    exact mul_lt_mul_of_pos_right hmagQ hpow
  have hexp : decAdjusted a < (bdecPrecision : ℤ) - d.s :=
    (zpow_lt_zpow_iff_right₀ (by norm_num)).mp (lt_of_le_of_lt halow habs)
  have hsmall : |b.toRat| < (10 : ℚ) ^ (-d.s - 1) / 2 := by
    have hle : (10 : ℚ) ^ (decAdjusted b + 1) ≤ 10 ^ (-d.s - 2) :=
      zpow_le_zpow_right₀ (by norm_num) (by omega)
    have hten : (10 : ℚ) ^ (-d.s - 1) = 10 * 10 ^ (-d.s - 2) := by
      rw [← zpow_one_add₀ (by norm_num)]
      congr 1
      ring
    have hpos : (0 : ℚ) < 10 ^ (-d.s - 2) := zpow_pos (by norm_num) _
    linarith
  have hfull : d.s < scale ∧ 10 ^ (bdecPrecision - 1) ≤ |d.coeff| := by
    refine hd.reaches.resolve_left (fun hs => ?_)
    have hunit := BDec.zpow_le_abs_toRat hb hbs
    have hlt : (10 : ℚ) ^ (-scale) < 10 ^ (decAdjusted b + 1) :=
      lt_of_le_of_lt hunit hbhigh
    have := (zpow_lt_zpow_iff_right₀ (by norm_num)).mp hlt
    omega
  refine ⟨?_, hd.representable, Or.inr (Or.inl hfull)⟩
  have hlow : 10 ^ (bdecPrecision - 1) ≤ (decMag d).toNat := by
    have := hfull.2
    rw [← decMag_toNat] at this
    exact_mod_cast this
  set y := signed (decNegative d) (a.toRat + b.toRat) with hy
  have hnear : |y - (decMag d).toNat * ((10 : ℕ) : ℚ) ^ (-d.s)| <
      ((10 : ℕ) : ℚ) ^ (-d.s - 1) / 2 := by
    rw [Nat.cast_ofNat]
    have hsub : y - (decMag d).toNat * (10 : ℚ) ^ (-d.s) =
        signed (decNegative d) b.toRat := by
      rw [hy, signed_add, ← hd.toRat_eq, BDec.toRat_eq_signed d, signed_signed,
        workingRat]
      ring
    rw [hsub, abs_signed]
    exact hsmall
  have hround := roundSig_of_near (K := ℚ) (by omega) (by decide) hlow hdlt hnear
  rw [← signed_signed (decNegative d) (a.toRat + b.toRat), ← hy,
    roundSig_signed, hround, BDec.toRat_eq_signed, workingRat, Nat.cast_ofNat]

theorem rounded_zero (h0 : 0 ≤ scale) (hmax : scale ≤ bdecMaxScale) :
    Rounded 0 scale (decSet ⟨0, 0⟩ false scale) := by
  have hcoeff : (decSet ⟨0, 0⟩ false scale).coeff = 0 := by
    rw [← decZero_iff]
    rfl
  refine ⟨?_, ⟨?_, h0, hmax⟩, Or.inl rfl⟩
  · rw [roundSig_zero, BDec.toRat, hcoeff]
    simp
  · rw [hcoeff]
    norm_num

theorem toRat_aligned (h : d.s + shift = scale) :
    d.toRat = signed (decNegative d)
      (workingRat ((decMag d).toNat * 10 ^ shift) scale) := by
  rw [BDec.toRat_eq_signed, ← h, workingRat_mul_pow]

/-- Opposite signs subtract. -/
theorem signed_sub {an bn : Bool} (h : an ≠ bn) (x y : ℚ) :
    signed an x + signed bn y = signed an (x - y) := by
  cases an <;> cases bn <;> simp [signed] at * <;> ring

/-- Two coefficients at one scale are added in 256 bits and rounded once. -/
theorem decAddAligned_spec {sa sb : ℕ} (site : Site)
    (h0 : 0 ≤ scale) (hmax : scale ≤ bdecMaxScale)
    (ha : a.coeff ≠ 0) (hsa : a.s + sa = scale) (hsb : b.s + sb = scale)
    (hsa' : sa ≤ 150) (hsb' : sb ≤ 150)
    (hwa : (decMag a).toNat * 10 ^ sa < 10 ^ 78)
    (hwb : (decMag b).toNat * 10 ^ sb < 10 ^ 78) :
    RoundedOrPanic (a.toRat + b.toRat) scale site
      (decAddAligned a b scale site) := by
  have hapos : 0 < (decMag a).toNat * 10 ^ sa := by
    have := mt (decMag_toNat_eq_zero_iff a).mp ha
    positivity
  have hlimit : 10 ^ 78 + 10 ^ 78 < wideLimit := by
    unfold wideLimit bdecWideLimbs
    norm_num
  have hsa'' : scale - a.s = sa := by omega
  have hsb'' : scale - b.s = sb := by omega
  rw [toRat_aligned hsa, toRat_aligned hsb]
  unfold decAddAligned
  rw [hsa'', hsb'',
    decwMulPow10_of_lt site hsa' (by rw [decwFrom128_toNat]; omega),
    decwMulPow10_of_lt site hsb' (by rw [decwFrom128_toNat]; omega),
    ok_bind, ok_bind, decwFrom128_toNat, decwFrom128_toNat]
  generalize (decMag a).toNat * 10 ^ sa = m at *
  generalize (decMag b).toNat * 10 ^ sb = n at *
  have hm := BDecWide.toNat_ofNat (n := m) (by omega)
  have hn := BDecWide.toNat_ofNat (n := n) (by omega)
  dsimp only
  by_cases hsign : decNegative a = decNegative b
  · rw [if_pos hsign, decwAdd_of_lt site (by omega), ok_bind, hm, hn, ← hsign,
      ← signed_add, ← workingRat_add]
    exact decFinish_roundedOrPanic _ _ _ (by omega) (by omega)
  · have horder := decwCmp_eq (BDecWide.ofNat m) (BDecWide.ofNat n)
    rw [hm, hn] at horder
    rw [if_neg hsign, signed_sub hsign]
    rcases lt_trichotomy m n with hlt | heq | hgt
    · rw [if_pos hlt] at horder
      rw [horder, if_neg (by decide), if_neg (by decide), ← signed_sub hsign, add_comm, signed_sub (Ne.symm hsign),
        ← workingRat_sub hlt.le]
      have hsub : decwSub (BDecWide.ofNat n) (BDecWide.ofNat m) =
          BDecWide.ofNat (n - m) :=
        BDecWide.eq_ofNat (by rw [decwSub_toNat (by omega), hm, hn])
      rw [hsub]
      exact decFinish_roundedOrPanic _ _ _ (by omega) (by omega)
    · rw [if_neg (by omega), if_neg (by omega)] at horder
      rw [horder, if_pos rfl, heq, sub_self]
      refine Or.inl ⟨_, rfl, ?_⟩
      rw [show signed (decNegative a) 0 = 0 by simp [signed]]
      exact rounded_zero h0 hmax
    · rw [if_neg (by omega), if_pos hgt] at horder
      rw [horder, if_neg (by decide), if_pos (by decide), ← workingRat_sub hgt.le]
      have hsub : decwSub (BDecWide.ofNat m) (BDecWide.ofNat n) =
          BDecWide.ofNat (m - n) :=
        BDecWide.eq_ofNat (by rw [decwSub_toNat (by omega), hm, hn])
      rw [hsub]
      exact decFinish_roundedOrPanic _ _ _ (by omega) (by omega)

/-- Operands that meet need no more than 78 digits once aligned. -/
theorem decMag_mul_pow_lt (ha : a.Representable)
    (hb : b.coeff ≠ 0) (hshift : b.s + shift = a.s)
    (hmeet : decAdjusted b - decAdjusted a ≤ (bdecPrecision : ℤ) + 1) :
    shift ≤ 150 ∧ (decMag b).toNat * 10 ^ shift < 10 ^ 78 := by
  have hbpos : 0 < (decMag b).toNat :=
    Nat.pos_of_ne_zero (mt (decMag_toNat_eq_zero_iff b).mp hb)
  have hda := (numDigits_le_iff (by decide)).mpr ha.decMag_lt
  have hmul := numDigits_mul_pow hbpos shift
  have hone : 0 < numDigits (decMag b).toNat := Nat.succ_pos _
  simp only [decAdjusted, decDigits128_eq, bdecPrecision] at hmeet hda
  push_cast at hmeet
  exact ⟨by omega, (numDigits_le_iff (by omega)).mp (by omega)⟩

theorem decAligned_bounds (ha : a.Representable)
    (hb : b.Representable) (hza : a.coeff ≠ 0) (hzb : b.coeff ≠ 0)
    (hab : decAdjusted a - decAdjusted b ≤ (bdecPrecision : ℤ) + 1)
    (hba : decAdjusted b - decAdjusted a ≤ (bdecPrecision : ℤ) + 1) :
    ∃ sa sb : ℕ, a.s + sa = max a.s b.s ∧ b.s + sb = max a.s b.s ∧
      sa ≤ 150 ∧ sb ≤ 150 ∧ (decMag a).toNat * 10 ^ sa < 10 ^ 78 ∧
      (decMag b).toNat * 10 ^ sb < 10 ^ 78 := by
  have hlt78 : 10 ^ bdecPrecision < 10 ^ 78 := by norm_num [bdecPrecision]
  rcases le_total a.s b.s with hle | hle
  · obtain ⟨shift, hshift⟩ := Int.le.dest hle
    obtain ⟨h150, hw⟩ := decMag_mul_pow_lt hb hza hshift hab
    rw [max_eq_right hle]
    refine ⟨shift, 0, hshift, by simp, h150, by omega, hw, ?_⟩
    rw [pow_zero, mul_one]
    exact lt_trans hb.decMag_lt hlt78
  · obtain ⟨shift, hshift⟩ := Int.le.dest hle
    obtain ⟨h150, hw⟩ := decMag_mul_pow_lt ha hzb hshift hba
    rw [max_eq_left hle]
    refine ⟨0, shift, by simp, hshift, by omega, h150, ?_, hw⟩
    rw [pow_zero, mul_one]
    exact lt_trans ha.decMag_lt hlt78

/-- An operand too small to matter becomes a sticky digit; the others are aligned. -/
theorem beansDecvAdd_spec (site : Site) (ha : a.Representable)
    (hb : b.Representable) :
    RoundedOrPanic (a.toRat + b.toRat) (max a.s b.s) site
      (beansDecvAdd a b site) := by
  have hscale : (if b.s < a.s then a.s else b.s) = max a.s b.s := by
    split_ifs <;> omega
  have hleA : a.s ≤ max a.s b.s := le_max_left _ _
  have hleB : b.s ≤ max a.s b.s := le_max_right _ _
  have hmax : max a.s b.s ≤ bdecMaxScale := max_le ha.scale_le hb.scale_le
  have h0 : 0 ≤ max a.s b.s := le_trans ha.scale_nonneg hleA
  have hzeroRat : ∀ d : BDec, d.coeff = 0 → d.toRat = 0 := by
    intro d hd
    simp [BDec.toRat, hd]
  unfold beansDecvAdd
  rw [hscale]
  dsimp only
  by_cases hza : a.coeff = 0
  · rw [(decZero_iff a).mpr hza, Bool.true_or, if_pos rfl, if_pos rfl]
    obtain ⟨d, hok, hd⟩ := decWiden_spec site hb hleB hmax
    rw [hzeroRat a hza, zero_add]
    exact Or.inl ⟨d, hok, hd.rounded⟩
  by_cases hzb : b.coeff = 0
  · rw [(decZero_iff b).mpr hzb, Bool.or_true, if_pos rfl,
      if_neg (mt (decZero_iff a).mp hza)]
    obtain ⟨d, hok, hd⟩ := decWiden_spec site ha hleA hmax
    rw [hzeroRat b hzb, add_zero]
    exact Or.inl ⟨d, hok, hd.rounded⟩
  have hnz : (decZero a || decZero b) = false := by
    rw [Bool.or_eq_false_iff, ← Bool.not_eq_true, ← Bool.not_eq_true,
      decZero_iff, decZero_iff]
    exact ⟨hza, hzb⟩
  rw [hnz, if_neg (by decide)]
  by_cases hfarA : (bdecPrecision : ℤ) + 1 < decAdjusted a - decAdjusted b
  · rw [if_pos hfarA]
    obtain ⟨d, hok, hd⟩ := decWiden_spec site ha hleA hmax
    exact Or.inl ⟨d, hok, hd.rounded_of_far hza hzb hleB hfarA⟩
  rw [if_neg hfarA]
  by_cases hfarB : (bdecPrecision : ℤ) + 1 < decAdjusted b - decAdjusted a
  · rw [if_pos hfarB, add_comm]
    obtain ⟨d, hok, hd⟩ := decWiden_spec site hb hleB hmax
    exact Or.inl ⟨d, hok, hd.rounded_of_far hzb hza hleA hfarB⟩
  rw [if_neg hfarB]
  obtain ⟨sa, sb, hsa, hsb, ha150, hb150, hwa, hwb⟩ :=
    decAligned_bounds ha hb hza hzb (by omega) (by omega)
  exact decAddAligned_spec site h0 hmax hza hsa hsb ha150 hb150 hwa hwb

theorem beansDecvNeg_coeff (hd : d.Representable) :
    (beansDecvNeg d).coeff = -d.coeff := by
  have hlt : (decMag d).toNat < 2 ^ 127 :=
    lt_trans hd.decMag_lt (by norm_num [bdecPrecision])
  rw [beansDecvNeg, decSet_coeff _ _ hlt, BDec.coeff_eq_sign_mul]
  cases decNegative d <;> simp

theorem beansDecvNeg_representable (hd : d.Representable) :
    (beansDecvNeg d).Representable := by
  refine ⟨?_, hd.scale_nonneg, hd.scale_le⟩
  rw [beansDecvNeg_coeff hd, abs_neg]
  exact hd.coeff_lt

theorem beansDecvNeg_toRat (hd : d.Representable) :
    (beansDecvNeg d).toRat = -d.toRat := by
  rw [BDec.toRat, beansDecvNeg_coeff hd, beansDecvNeg, decSet_s, BDec.toRat]
  push_cast
  ring

theorem beansDecvSub_spec (site : Site) (ha : a.Representable)
    (hb : b.Representable) :
    RoundedOrPanic (a.toRat - b.toRat) (max a.s b.s) site
      (beansDecvSub a b site) := by
  have h := beansDecvAdd_spec site ha (beansDecvNeg_representable hb)
  rwa [beansDecvNeg_toRat hb, ← sub_eq_add_neg] at h

/-- The signs multiply. -/
theorem signed_mul (an bn : Bool) (x y : ℚ) :
    signed an x * signed bn y = signed (an != bn) (x * y) := by
  cases an <;> cases bn <;> simp [signed]

theorem beansDecvMul_spec (site : Site) (ha : a.Representable)
    (hb : b.Representable) (hza : a.coeff ≠ 0) (hzb : b.coeff ≠ 0) :
    RoundedOrPanic (a.toRat * b.toRat) (a.s + b.s) site
      (beansDecvMul a b site) := by
  have hapos : 0 < (decMag a).toNat :=
    Nat.pos_of_ne_zero (mt (decMag_toNat_eq_zero_iff a).mp hza)
  have hbpos : 0 < (decMag b).toNat :=
    Nat.pos_of_ne_zero (mt (decMag_toNat_eq_zero_iff b).mp hzb)
  have hwide : (decMag a).toNat * (decMag b).toNat < wideLimit := by
    have hlt := Nat.mul_lt_mul'' ha.decMag_lt hb.decMag_lt
    refine lt_trans hlt ?_
    unfold wideLimit bdecPrecision bdecWideLimbs
    norm_num
  rw [BDec.toRat_eq_signed a, BDec.toRat_eq_signed b, signed_mul,
    ← workingRat_mul]
  unfold beansDecvMul
  rw [decwMultiply_eq, ok_bind]
  exact decFinish_roundedOrPanic _ _ _ (Nat.mul_pos hapos hbpos) hwide

/-- A zero product keeps the sum of the scales, and panics where that sum is
not a scale. -/
theorem beansDecvMul_zero (site : Site) (ha : a.Representable)
    (hb : b.Representable) (hz : a.coeff = 0 ∨ b.coeff = 0) :
    beansDecvMul a b site =
      if bdecMaxScale < a.s + b.s then decOverflow site
      else .ok (decSet ⟨0, 0⟩ false (a.s + b.s)) := by
  have hmag : (decMag a).toNat * (decMag b).toNat = 0 := by
    rcases hz with h | h
    · rw [(decMag_toNat_eq_zero_iff a).mpr h, Nat.zero_mul]
    · rw [(decMag_toNat_eq_zero_iff b).mpr h, Nat.mul_zero]
  have hpos : 0 < wideLimit := lt_trans (by positivity) pow_bdecPrecision_lt
  unfold beansDecvMul
  rw [decwMultiply_eq, ok_bind, hmag,
    decFinish_zero _ _ _ _ (BDecWide.toNat_ofNat hpos),
    max_eq_left (add_nonneg ha.scale_nonneg hb.scale_nonneg)]

end Decimal
end Beans
