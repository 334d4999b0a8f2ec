import Beans.Decimal.Arithmetic
import Beans.Foundation.DirectedRounding

/-!
# `decimal.round`

The rounding operation takes a number of places and a mode.  It has three ways
to work: places far below every decimal, more dropped digits than the
coefficient has, and the ordinary digit-dropping loop.  The specification is the
multiple of `10 ^ (-places)` that the mode selects for the exact value; the
three ways agree with it except where a zero meets the mode `ceil`.

**Results.**
* `decvRound_exact_iff`: rounding is exact, except where `ceil` drops more than one place of a
  zero.
* `decvRound_ceil_zero`: `0.00` rounds up to `1`.
-/

namespace Beans

namespace RoundingMode

/-- The number of the mode in the runtime. -/
def code : RoundingMode → Int
  | halfEven => Decimal.broundHalfEven
  | halfAway => Decimal.broundHalfAway
  | towardZero => Decimal.broundTowardZero
  | floor => Decimal.broundFloor
  | ceil => Decimal.broundCeil

end RoundingMode

namespace Decimal

/-- The end of the operation: the kept digits at their scale. -/
def decvRoundFinish (wide : BDecWide) (negative : Bool) (places mode : Int)
    (site : Site) : Except Panic BDec :=
  if places < 0 then do
    let wide ← decwMulPow10 wide (-places) site
    decFinish wide negative 0 mode site
  else decFinish wide negative places mode site

def beansDecvRound (value : BDec) (places mode : Int) (site : Site) :
    Except Panic BDec :=
  if value.s ≤ places then .ok value
  else if places < -(bdecPrecision : Int) then
    let away := (mode == broundFloor && decNegative value) ||
      (mode == broundCeil && !decNegative value && !decZero value)
    if away then decOverflow site else .ok (decSet ⟨0, 0⟩ false 0)
  else
    let wide := decwFrom128 (decMag value)
    let drop := value.s - places
    let digits := decwDigits wide
    let negative := decNegative value
    if digits < drop then
      -- the zero of the branch above is not looked for here
      let away := (mode == broundFloor && negative) ||
        (mode == broundCeil && !negative)
      if away then
        decvRoundFinish (decwFrom128 ⟨1, 0⟩) negative places mode site
      else .ok (decSet ⟨0, 0⟩ false (if places < 0 then 0 else places))
    else do
      let d := decDrop wide drop.toNat
      let up ← decShouldIncrement d.guard d.sticky d.value negative mode
      let wide ← decIncrementIf up d.value site
      decvRoundFinish wide negative places mode site

/-- The multiple of `10 ^ (-places)` that the mode selects for `x`. -/
def selected (mode : RoundingMode) (places : ℤ) (x : ℚ) : ℚ :=
  mode.pick (x * (10 : ℚ) ^ places) * (10 : ℚ) ^ (-places)

/-- Rounding `v` is exact: the selected multiple or an overflow. -/
structure RoundsExactly
    (mode : RoundingMode) (v : BDec) (places : ℤ) (site : Site) : Prop where
  unchanged : v.s ≤ places →
    beansDecvRound v places mode.code site = .ok v ∧
      selected mode places v.toRat = v.toRat
  rounded : places < v.s → FitsDecimal (selected mode places v.toRat) →
    ∃ d, beansDecvRound v places mode.code site = .ok d ∧ d.Representable ∧
      d.toRat = selected mode places v.toRat ∧ d.s = max 0 places
  overflow : places < v.s → ¬ FitsDecimal (selected mode places v.toRat) →
    beansDecvRound v places mode.code site = decOverflow site

variable {c drop n : ℕ} {scale : Int} {places : ℤ} {v : BDec} {mode : RoundingMode}

/-- The guard and the sticky bit decide as the remainder does. -/
theorem decShouldIncrement_eq (mode : RoundingMode) (negative : Bool) (v : BDecWide)
    (hdrop : 0 < drop) :
    decShouldIncrement (decDrop v drop).guard (decDrop v drop).sticky
        (decDrop v drop).value negative mode.code =
      .ok (mode.up negative (v.toNat / 10 ^ drop) (v.toNat % 10 ^ drop)
        (10 ^ drop)) := by
  obtain ⟨hvalue, hguard, hsticky⟩ := decDrop_spec v hdrop
  obtain ⟨left, rfl⟩ : ∃ left, drop = left + 1 := ⟨drop - 1, by omega⟩
  rw [Nat.add_sub_cancel] at hguard hsticky
  set d := decDrop v (left + 1)
  -- the remainder is the guard digit followed by what the sticky bit tells of
  have hsplit : v.toNat % 10 ^ (left + 1) =
      d.guard.toNat * 10 ^ left + v.toNat % 10 ^ left := by
    rw [hguard, pow_succ, Nat.mod_mul, Nat.add_comm, Nat.mul_comm]
  have hrem : v.toNat % 10 ^ left < 10 ^ left := Nat.mod_lt _ (by positivity)
  have hlt : d.guard.toNat < 10 := by
    rw [hguard]
    exact Nat.mod_lt _ (by omega)
  have hnonzero : v.toNat % 10 ^ (left + 1) ≠ 0 ↔
      d.guard.toNat ≠ 0 ∨ d.sticky = true := by
    rw [hsplit, hsticky]
    generalize v.toNat % 10 ^ left = t at *
    interval_cases d.guard.toNat <;> omega
  have hfive : 10 ^ (left + 1) ≤ 2 * (v.toNat % 10 ^ (left + 1)) ↔
      5 ≤ d.guard.toNat := by
    rw [hsplit, pow_succ]
    generalize v.toNat % 10 ^ left = t at *
    generalize 10 ^ left = unit at *
    interval_cases d.guard.toNat <;> omega
  have hmore : 10 ^ (left + 1) < 2 * (v.toNat % 10 ^ (left + 1)) ↔
      5 < d.guard.toNat ∨ (d.guard.toNat = 5 ∧ d.sticky = true) := by
    rw [hsplit, pow_succ, hsticky]
    generalize v.toNat % 10 ^ left = t at *
    generalize 10 ^ left = unit at *
    interval_cases d.guard.toNat <;> omega
  have hzero : d.guard ≠ 0 ↔ d.guard.toNat ≠ 0 := by
    rw [ne_eq, ← UInt32.toNat_inj]
    rfl
  cases mode with
  | halfEven =>
    rw [RoundingMode.code, decShouldIncrement_halfEven, hvalue]
    refine congrArg Except.ok ?_
    rw [Bool.eq_iff_iff, decide_eq_true_iff]
    simp only [RoundingMode.up, Bool.or_eq_true, Bool.and_eq_true,
      decide_eq_true_iff, bne_iff_ne, hmore]
    constructor
    · rintro (h | ⟨h, hs | ho⟩)
      · exact Or.inl (Or.inl h)
      · exact Or.inl (Or.inr ⟨h, hs⟩)
      · by_cases hs : d.sticky = true
        · exact Or.inl (Or.inr ⟨h, hs⟩)
        · have := hfive.mpr h.ge
          have := mt hmore.mp (by rw [not_or]; exact ⟨by omega, fun hc => hs hc.2⟩)
          exact Or.inr ⟨by omega, ho⟩
    · rintro ((h | ⟨h, hs⟩) | ⟨h, ho⟩)
      · exact Or.inl h
      · exact Or.inr ⟨h, Or.inl hs⟩
      · have hge := hfive.mp h.ge
        have := mt hmore.mpr (by omega)
        rw [not_or] at this
        exact Or.inr ⟨by omega, Or.inr ho⟩
  | halfAway =>
    refine congrArg Except.ok ?_
    rw [Bool.eq_iff_iff]
    simp only [RoundingMode.up, decide_eq_true_iff, hfive]
    exact UInt32.le_iff_toNat_le
  | towardZero => rfl
  | floor =>
    refine congrArg Except.ok ?_
    rw [Bool.eq_iff_iff]
    simp only [RoundingMode.up, Bool.and_eq_true, Bool.or_eq_true,
      bne_iff_ne, hnonzero, hzero]
  | ceil =>
    refine congrArg Except.ok ?_
    rw [Bool.eq_iff_iff]
    simp only [RoundingMode.up, Bool.and_eq_true, Bool.or_eq_true,
      bne_iff_ne, hnonzero, hzero]

theorem decFinishStrip_of_le {v : BDecWide}
    (h : scale ≤ bdecMaxScale) : decFinishStrip 155 v scale = (v, scale) :=
  if_neg (by omega)

theorem decSet_zero (negative : Bool) (scale : Int) :
    decSet (BU128.ofNat 0) negative scale = decSet ⟨0, 0⟩ false scale := by
  cases negative <;> rfl

/-- A coefficient of at most 38 digits at an allowed scale stays as it is. -/
theorem decFinish_of_lt (negative : Bool) (mode : Int) (site : Site)
    (hc : c < 10 ^ bdecPrecision) (h0 : 0 ≤ scale) (hmax : scale ≤ bdecMaxScale) :
    decFinish (BDecWide.ofNat c) negative scale mode site =
      .ok (decSet (BU128.ofNat c) negative scale) := by
  have hval := BDecWide.toNat_ofNat (lt_trans hc pow_bdecPrecision_lt)
  have h128 : c < 2 ^ 128 := lt_trans hc (by norm_num [bdecPrecision])
  rcases Nat.eq_zero_or_pos c with rfl | hpos
  · rw [decFinish_zero negative scale mode site hval, if_neg (by omega),
      decSet_zero, max_eq_left h0]
  · have hround : decFinishRound (BDecWide.ofNat c) scale negative mode site =
        .ok (BDecWide.ofNat c, scale) := by
      refine if_neg (not_lt.mpr ?_)
      rw [decwDigits_eq, hval]
      exact (numDigits_le_iff (by decide)).mpr hc
    unfold decFinish
    rw [if_neg (by rw [decwZero_eq_true_iff, hval]; omega),
      decFinishExpand_of_nonneg site h0, ok_bind]
    unfold decFinishSettle
    dsimp only
    rw [decFinishStrip_of_le hmax]
    dsimp only
    rw [if_neg (by omega), hround, ok_bind]
    dsimp only
    rw [decwTo128_of_lt site (by rw [hval]; exact h128), hval, ok_bind, buCmp_eq,
      BU128.toNat_ofNat h128, decCoeffLimit_toNat, if_neg (by split_ifs <;> omega)]

/-- The first coefficient of 39 digits has no scale to give up. -/
theorem decFinish_pow (negative : Bool) (mode : Int) (site : Site) :
    decFinish (BDecWide.ofNat (10 ^ bdecPrecision)) negative 0 mode site =
      decOverflow site := by
  have hval := BDecWide.toNat_ofNat pow_bdecPrecision_lt
  have hdigits : numDigits (10 ^ bdecPrecision) = bdecPrecision + 1 := by
    rw [numDigits, Nat.log_pow (by omega)]
  unfold decFinish
  rw [if_neg (by rw [decwZero_eq_true_iff, hval]; positivity),
    decFinishExpand_of_nonneg site le_rfl, ok_bind]
  unfold decFinishSettle
  dsimp only
  rw [decFinishStrip_of_le (by decide)]
  dsimp only
  rw [if_neg (by decide)]
  unfold decFinishRound
  dsimp only
  rw [decwDigits_eq, hval, hdigits, if_pos (by omega), if_pos (by omega)]
  rfl

/-- What the end of the operation answers for the coefficient `c`. -/
theorem decvRoundFinish_eq {places : Int} (negative : Bool) (mode : Int) (site : Site)
    (hlow : -(bdecPrecision : Int) ≤ places) (hhigh : places ≤ bdecMaxScale)
    (hc : c * 10 ^ (-places).toNat ≤ 10 ^ bdecPrecision)
    (hpos : 0 ≤ places → c < 10 ^ bdecPrecision) :
    decvRoundFinish (BDecWide.ofNat c) negative places mode site =
      if c * 10 ^ (-places).toNat < 10 ^ bdecPrecision then
        .ok (decSet (BU128.ofNat (c * 10 ^ (-places).toNat)) negative
          (max 0 places))
      else decOverflow site := by
  unfold decvRoundFinish
  rcases lt_or_ge places 0 with hneg | hnonneg
  · obtain ⟨k, hk⟩ : ∃ k : ℕ, -places = k := ⟨(-places).toNat, by omega⟩
    have hcw : c < wideLimit := by
      refine lt_of_le_of_lt ?_ (lt_of_le_of_lt hc pow_bdecPrecision_lt)
      exact Nat.le_mul_of_pos_right _ (by positivity)
    rw [hk, Int.toNat_natCast] at hc ⊢
    rw [if_pos hneg, decwMulPow10_of_lt site
      (by simp only [bdecPrecision] at hlow; omega)
      (by
        rw [BDecWide.toNat_ofNat hcw]
        exact lt_of_le_of_lt hc pow_bdecPrecision_lt),
      ok_bind, BDecWide.toNat_ofNat hcw, max_eq_left hneg.le]
    rcases lt_or_eq_of_le hc with hlt | heq
    · rw [if_pos hlt, decFinish_of_lt negative mode site hlt le_rfl (by decide)]
    · rw [heq, if_neg (lt_irrefl _), decFinish_pow]
  · have hzero : (-places).toNat = 0 := by omega
    rw [hzero, pow_zero, Nat.mul_one, if_neg (by omega), if_pos (hpos hnonneg),
      max_eq_right hnonneg, decFinish_of_lt negative mode site (hpos hnonneg)
        hnonneg hhigh]

/-- The digits that rounding at `places` drops from `v`. -/
def dropped (v : BDec) (places : ℤ) : ℕ := (v.s - places).toNat

/-- The coefficient of the selected multiple, without its sign. -/
def keptMagnitude (mode : RoundingMode) (v : BDec) (places : ℤ) : ℕ :=
  mode.magnitude (decNegative v) (decMag v).toNat (10 ^ dropped v places)

theorem pick_signed (mode : RoundingMode) (negative : Bool) {p : ℕ}
    (hp : 0 < p) :
    (mode.pick (signed negative ((n : ℚ) / p)) : ℚ) =
      signed negative (mode.magnitude negative n p) := by
  cases negative with
  | false =>
    simp only [signed, Bool.false_eq_true, if_false, one_mul]
    rw [RoundingMode.pick_div mode hp, Int.cast_natCast]
  | true =>
    simp only [signed, if_true, neg_mul, one_mul]
    rw [RoundingMode.pick_neg_div mode hp, Int.cast_neg, Int.cast_natCast]

theorem selected_eq (mode : RoundingMode) (h : places < v.s) :
    selected mode places v.toRat =
      signed (decNegative v) (workingRat (keptMagnitude mode v places) places) := by
  have hdrop : ((dropped v places : ℕ) : ℤ) = v.s - places := by
    unfold dropped
    omega
  have hscaled : v.toRat * (10 : ℚ) ^ places =
      signed (decNegative v)
        (((decMag v).toNat : ℚ) / ((10 ^ dropped v places : ℕ) : ℚ)) := by
    rw [BDec.toRat_eq_signed, signed, signed, workingRat, Nat.cast_pow,
      Nat.cast_ofNat, ← zpow_natCast, hdrop, zpow_sub₀ (by norm_num), zpow_neg]
    field_simp
  rw [selected, hscaled, pick_signed mode _ (by positivity), keptMagnitude,
    workingRat, signed, signed, mul_assoc]

/-- A multiple of the unit is selected itself. -/
theorem selected_of_le (mode : RoundingMode)
    (h : v.s ≤ places) : selected mode places v.toRat = v.toRat := by
  obtain ⟨k, hk⟩ : ∃ k : ℕ, places = v.s + k := ⟨(places - v.s).toNat, by omega⟩
  have hint : v.toRat * (10 : ℚ) ^ places = ((v.coeff * 10 ^ k : ℤ) : ℚ) := by
    rw [BDec.toRat, hk, mul_assoc, ← zpow_add₀ (by norm_num), neg_add_cancel_left,
      zpow_natCast]
    push_cast
    rfl
  have hten : (10 : ℚ) ^ places ≠ 0 := zpow_ne_zero _ (by norm_num)
  rw [selected, hint, RoundingMode.pick_intCast, ← hint, zpow_neg,
    mul_inv_cancel_right₀ hten]

/-- Zeros move the selected coefficient to the scale of the result. -/
theorem workingRat_expand (c : ℕ) (places : ℤ) :
    workingRat (c * 10 ^ (-places).toNat) (max 0 places) = workingRat c places := by
  rw [← workingRat_mul_pow c (-places).toNat places]
  congr 1
  omega

theorem decSet_signed {w : ℕ} {scale : ℤ} (negative : Bool) (hw : w < 10 ^ bdecPrecision)
    (h0 : 0 ≤ scale) (hmax : scale ≤ bdecMaxScale) :
    (decSet (BU128.ofNat w) negative scale).Representable ∧
      (decSet (BU128.ofNat w) negative scale).toRat =
        signed negative (workingRat w scale) := by
  have h128 : w < 2 ^ 128 := lt_trans hw (by norm_num [bdecPrecision])
  have hval := BU128.toNat_ofNat h128
  have hcoeff := decSet_coeff (m := BU128.ofNat w) negative scale
    (by rw [hval]; exact lt_trans hw (by norm_num [bdecPrecision]))
  rw [hval] at hcoeff
  refine ⟨⟨?_, h0, hmax⟩, ?_⟩
  · rw [hcoeff, abs_mul, Nat.abs_cast]
    have : |(if negative then (-1 : ℤ) else 1)| = 1 := by cases negative <;> rfl
    rw [this, one_mul]
    exact_mod_cast hw
  · rw [BDec.toRat, hcoeff, decSet_s, signed, workingRat]
    push_cast
    ring

theorem numDigits_zero : numDigits 0 = 1 := by
  rw [numDigits, Nat.log_zero_right]

/-- Fewer digits than are dropped make less than half a unit. -/
theorem two_mul_lt_of_digits (h : numDigits n < drop) :
    2 * n < 10 ^ drop := by
  obtain ⟨left, rfl⟩ : ∃ left, drop = left + 1 := ⟨drop - 1, by omega⟩
  have hpos : 0 < numDigits n := Nat.succ_pos _
  have := (numDigits_le_iff (n := n) (by omega)).mp (Nat.le_of_lt_succ h)
  rw [pow_succ]
  omega

/-- A kept coefficient fits beside the zeros that negative places append. -/
theorem keptMagnitude_bounds (mode : RoundingMode) (hv : v.Representable)
    (hlow : -(bdecPrecision : Int) ≤ places) (h : places < v.s) :
    keptMagnitude mode v places * 10 ^ (-places).toNat ≤ 10 ^ bdecPrecision ∧
      (0 ≤ places → keptMagnitude mode v places < 10 ^ bdecPrecision) := by
  have hs := hv.scale_nonneg
  have hmag := hv.decMag_lt
  have hdrop : 0 < dropped v places ∧ (-places).toNat ≤ dropped v places := by
    unfold dropped
    omega
  have hplaces : (-places).toNat ≤ bdecPrecision := by omega
  have hle : keptMagnitude mode v places ≤
      10 ^ (bdecPrecision - dropped v places) := by
    refine RoundingMode.magnitude_le mode _ (lt_of_lt_of_le hmag ?_)
    rw [← pow_add]
    exact Nat.pow_le_pow_right (by omega) (by omega)
  constructor
  · calc keptMagnitude mode v places * 10 ^ (-places).toNat
        ≤ 10 ^ (bdecPrecision - dropped v places) * 10 ^ (-places).toNat :=
          Nat.mul_le_mul_right _ hle
      _ ≤ 10 ^ bdecPrecision := by
          rw [← pow_add]
          exact Nat.pow_le_pow_right (by omega) (by omega)
  · intro _
    refine lt_of_le_of_lt hle (Nat.pow_lt_pow_right (by omega) ?_)
    have : 0 < bdecPrecision := by decide
    omega

/-- The zero that the mode `ceil` takes for a positive number. -/
def CeilsZero (mode : RoundingMode) (v : BDec) (places : ℤ) : Prop :=
  mode = .ceil ∧ v.coeff = 0 ∧ -(bdecPrecision : ℤ) ≤ places ∧
    1 < v.s - places

instance (mode : RoundingMode) (v : BDec) (places : ℤ) :
    Decidable (CeilsZero mode v places) := by
  unfold CeilsZero
  infer_instance

theorem away_iff (mode : RoundingMode) (negative : Bool) :
    ((mode.code == broundFloor && negative) ||
        (mode.code == broundCeil && !negative)) = true ↔
      (mode = .floor ∧ negative = true) ∨ (mode = .ceil ∧ negative = false) := by
  cases mode <;> cases negative <;> decide

theorem decNegative_of_coeff_zero (h : v.coeff = 0) :
    decNegative v = false := by
  rw [← Bool.not_eq_true, decNegative_iff_coeff, h]
  exact lt_irrefl 0

/-- With more dropped digits than the coefficient has, `away` decides. -/
theorem keptMagnitude_of_digits (h : numDigits (decMag v).toNat < dropped v places)
    (hzero : v.coeff = 0 → mode ≠ .ceil) :
    keptMagnitude mode v places =
      if (mode.code == broundFloor && decNegative v) ||
        (mode.code == broundCeil && !decNegative v) then 1 else 0 := by
  rw [keptMagnitude, RoundingMode.magnitude_of_small mode _
    (two_mul_lt_of_digits h)]
  refine if_congr ?_ rfl rfl
  rw [away_iff, and_iff_right_iff_imp, ne_eq, decMag_toNat_eq_zero_iff]
  rintro haway hcoeff
  have hneg := decNegative_of_coeff_zero hcoeff
  rcases haway with ⟨-, ht⟩ | ⟨hceil, -⟩
  · rw [hneg] at ht
    cases ht
  · exact hzero hcoeff hceil

/-- The two inner ways of the operation finish the kept coefficient. -/
theorem beansDecvRound_eq (site : Site) (hv : v.Representable)
    (hlow : -(bdecPrecision : Int) ≤ places) (h : places < v.s)
    (hok : ¬ CeilsZero mode v places) :
    beansDecvRound v places mode.code site =
      decvRoundFinish (BDecWide.ofNat (keptMagnitude mode v places))
        (decNegative v) places mode.code site := by
  have hdrop : 0 < dropped v places := by
    unfold dropped
    omega
  have hdropped : ((dropped v places : ℕ) : ℤ) = v.s - places := by
    unfold dropped
    omega
  unfold beansDecvRound
  rw [if_neg (by omega), if_neg (by omega)]
  dsimp only
  rw [decwDigits_eq, decwFrom128_toNat, ← hdropped, Int.toNat_natCast]
  by_cases hdigits : numDigits (decMag v).toNat < dropped v places
  · have hzero : v.coeff = 0 → mode ≠ .ceil := by
      intro hcoeff hceil
      have hmag := (decMag_toNat_eq_zero_iff v).mpr hcoeff
      rw [hmag, numDigits_zero] at hdigits
      exact hok ⟨hceil, hcoeff, hlow, by omega⟩
    rw [if_pos (by omega), keptMagnitude_of_digits hdigits hzero]
    cases haway : (mode.code == broundFloor && decNegative v) ||
        (mode.code == broundCeil && !decNegative v) with
    | true => rfl
    | false =>
      have hplaces : (if places < 0 then 0 else places) = max 0 places := by
        split_ifs <;> omega
      simp only [Bool.false_eq_true, if_false]
      rw [hplaces, decvRoundFinish_eq _ _ _ hlow
        (by have := hv.scale_le; omega) (by rw [Nat.zero_mul]; positivity)
        (fun _ => by positivity), Nat.zero_mul, if_pos (by positivity),
        decSet_zero]
  · rw [if_neg (by omega), decShouldIncrement_eq mode _ _ hdrop, ok_bind,
      decwFrom128_toNat]
    have hkept : (decDrop (decwFrom128 (decMag v)) (dropped v places)).value.toNat
        = (decMag v).toNat / 10 ^ dropped v places := by
      rw [(decDrop_spec _ hdrop).1, decwFrom128_toNat]
    rw [decIncrementIf_of_lt _ site (by
      rw [hkept]
      exact lt_of_le_of_lt (Nat.div_le_self _ _) hv.decMag_lt), ok_bind, hkept]
    rfl

theorem roundsExactly_near (site : Site) (hv : v.Representable)
    (hlow : -(bdecPrecision : Int) ≤ places) (hok : ¬ CeilsZero mode v places) :
    RoundsExactly mode v places site := by
  refine ⟨fun h => ⟨if_pos h, selected_of_le mode h⟩, fun h hfits => ?_,
    fun h hunfit => ?_⟩
  all_goals
    have hmax : places ≤ bdecMaxScale := by
      have := hv.scale_le
      omega
    have hmax0 : max 0 places ≤ bdecMaxScale := max_le (by decide) hmax
    obtain ⟨hle, hlt⟩ := keptMagnitude_bounds mode hv hlow h
    have hrun := beansDecvRound_eq site hv hlow h hok
    rw [decvRoundFinish_eq _ _ _ hlow hmax hle hlt] at hrun
    have hsel := selected_eq mode h
    rw [← workingRat_expand] at hsel
    generalize hw : keptMagnitude mode v places * 10 ^ (-places).toNat = w at *
  · have hsmall : w < 10 ^ bdecPrecision := by
      by_contra hbig
      rw [hsel] at hfits
      refine (unfit_of_le ?_).not_fits_signed (workingRat_nonneg w _) _ hfits
      have heq : w = 10 ^ bdecPrecision := by omega
      have hneg : max 0 places = 0 := by
        rcases lt_or_ge places 0 with hneg | hnonneg
        · exact max_eq_left hneg.le
        · have := hlt hnonneg
          rw [show (-places).toNat = 0 by omega, pow_zero, Nat.mul_one] at hw
          omega
      rw [hneg, heq, workingRat, neg_zero, zpow_zero, mul_one]
      push_cast
      exact le_rfl
    rw [if_pos hsmall] at hrun
    obtain ⟨hrep, hrat⟩ := decSet_signed (decNegative v) hsmall
      (le_max_left 0 places) hmax0
    exact ⟨_, hrun, hrep, by rw [hrat, hsel], rfl⟩
  · rw [hrun, if_neg]
    intro hsmall
    obtain ⟨hrep, hrat⟩ := decSet_signed (decNegative v) hsmall
      (le_max_left 0 places) hmax0
    exact hunfit ⟨_, hrep, by rw [hrat, hsel]⟩

/-- Places below every decimal leave zero, or a unit no decimal denotes. -/
theorem roundsExactly_far (site : Site) (hv : v.Representable)
    (hlow : places < -(bdecPrecision : Int)) :
    RoundsExactly mode v places site := by
  have hs := hv.scale_nonneg
  have hprec : (0 : ℤ) < bdecPrecision := by decide
  have h : places < v.s := by omega
  have hdrop : bdecPrecision + 1 ≤ dropped v places := by
    unfold dropped
    omega
  have hdigits : numDigits (decMag v).toNat < dropped v places :=
    lt_of_le_of_lt ((numDigits_le_iff (by decide)).mpr hv.decMag_lt) (by omega)
  have hkept : keptMagnitude mode v places =
      if (mode.code == broundFloor && decNegative v) ||
        (mode.code == broundCeil && !decNegative v && !decZero v)
      then 1 else 0 := by
    by_cases hcoeff : v.coeff = 0
    · have hmag := (decMag_toNat_eq_zero_iff v).mpr hcoeff
      rw [keptMagnitude, RoundingMode.magnitude_of_small mode _
        (two_mul_lt_of_digits hdigits), if_neg (fun hc => hc.1 hmag),
        decNegative_of_coeff_zero hcoeff, (decZero_iff v).mpr hcoeff]
      simp
    · rw [keptMagnitude_of_digits hdigits (fun hc => absurd hc hcoeff),
        Bool.eq_false_iff.mpr (mt (decZero_iff v).mp hcoeff), Bool.not_false,
        Bool.and_true]
  have hrun : beansDecvRound v places mode.code site =
      if keptMagnitude mode v places = 1 then decOverflow site
      else .ok (decSet ⟨0, 0⟩ false 0) := by
    unfold beansDecvRound
    rw [if_neg (by omega), if_pos hlow, hkept]
    refine if_congr ?_ rfl rfl
    split_ifs with haway <;> simp [haway]
  have hsel := selected_eq mode h
  have hcases : keptMagnitude mode v places = 1 ∨
      keptMagnitude mode v places = 0 := by
    rw [hkept]
    split_ifs
    · exact Or.inl rfl
    · exact Or.inr rfl
  rcases hcases with hone | hzero
  · -- the unit itself has at least 40 digits
    have hbig : (10 : ℚ) ^ bdecPrecision ≤ workingRat 1 places := by
      rw [workingRat, Nat.cast_one, one_mul, ← zpow_natCast]
      exact zpow_le_zpow_right₀ (by norm_num) (by omega)
    rw [hone] at hsel hrun
    rw [if_pos rfl] at hrun
    refine ⟨fun hle => absurd hle (by omega), fun _ hfits => ?_, fun _ _ => hrun⟩
    rw [hsel] at hfits
    exact absurd hfits
      ((unfit_of_le hbig).not_fits_signed (workingRat_nonneg 1 _) _)
  · rw [hzero] at hsel hrun
    rw [if_neg (by omega)] at hrun
    have hnull : selected mode places v.toRat = 0 := by
      rw [hsel, signed, workingRat, Nat.cast_zero, zero_mul, mul_zero]
    have hsmall : 0 < 10 ^ bdecPrecision := by positivity
    obtain ⟨hrep, hrat⟩ := decSet_signed false hsmall (le_refl (0 : ℤ)) (by decide)
    rw [decSet_zero] at hrep hrat
    have hzeroRat : (decSet ⟨0, 0⟩ false 0).toRat = 0 := by
      rw [hrat, signed, workingRat, Nat.cast_zero, zero_mul, mul_zero]
    refine ⟨fun hle => absurd hle (by omega), fun _ _ => ?_, fun _ hunfit => ?_⟩
    · refine ⟨_, hrun, hrep, by rw [hzeroRat, hnull], ?_⟩
      rw [decSet_s, max_eq_left (by omega)]
    · rw [hnull] at hunfit
      exact absurd ⟨_, hrep, hzeroRat⟩ hunfit

/-- A zero that `ceil` takes for a positive number is no zero afterwards. -/
theorem not_roundsExactly_of_ceilsZero (site : Site) (hv : v.Representable)
    (hzero : CeilsZero mode v places) :
    ¬ RoundsExactly mode v places site := by
  obtain ⟨rfl, hcoeff, hlow, hdrop⟩ := hzero
  intro hexact
  have h : places < v.s := by omega
  have hmax : places ≤ bdecMaxScale := by
    have := hv.scale_le
    omega
  have hneg := decNegative_of_coeff_zero hcoeff
  have hnull : selected .ceil places v.toRat = 0 := by
    rw [(BDec.toRat_eq_zero_iff v).mpr hcoeff, selected, zero_mul,
      RoundingMode.pick, Int.ceil_zero, Int.cast_zero, zero_mul]
  have hfits : FitsDecimal (selected .ceil places v.toRat) :=
    ⟨v, hv, by rw [hnull, (BDec.toRat_eq_zero_iff v).mpr hcoeff]⟩
  obtain ⟨d, hd, -, hrat, -⟩ := hexact.rounded h hfits
  have hone : decwFrom128 ⟨1, 0⟩ = BDecWide.ofNat 1 :=
    BDecWide.eq_ofNat (decwFrom128_toNat ⟨1, 0⟩)
  have hunit : 10 ^ (-places).toNat ≤ 10 ^ bdecPrecision :=
    Nat.pow_le_pow_right (by omega) (by omega)
  have hrun : beansDecvRound v places RoundingMode.ceil.code site =
      decvRoundFinish (BDecWide.ofNat 1) false places RoundingMode.ceil.code
        site := by
    unfold beansDecvRound
    rw [if_neg (by omega), if_neg (by omega)]
    dsimp only
    rw [decwDigits_eq, decwFrom128_toNat, (decMag_toNat_eq_zero_iff v).mpr hcoeff,
      numDigits_zero, if_pos (by omega), hneg, if_pos (by decide), hone]
  rw [hrun, decvRoundFinish_eq _ _ _ hlow hmax (by rw [Nat.one_mul]; exact hunit)
    (fun _ => by norm_num [bdecPrecision]), Nat.one_mul] at hd
  by_cases hsmall : 10 ^ (-places).toNat < 10 ^ bdecPrecision
  · rw [if_pos hsmall] at hd
    cases hd
    obtain ⟨-, hvalue⟩ := decSet_signed false hsmall (le_max_left 0 places)
      (max_le (by decide) hmax)
    rw [hrat, hnull, signed, if_neg (by decide), one_mul] at hvalue
    exact absurd hvalue (workingRat_pos (by positivity) _).ne
  · rw [if_neg hsmall] at hd
    cases hd

/--
Rounding is exact, except for a zero under the mode `ceil` that loses more than
one place and no more than the runtime forms powers for.
-/
theorem decvRound_exact_iff
    (mode : RoundingMode)
    (v : BDec)
    (places : ℤ)
    (site : Site)
    (hv : v.Representable) :
    RoundsExactly mode v places site ↔ ¬ CeilsZero mode v places := by
  constructor
  · intro h hzero
    exact not_roundsExactly_of_ceilsZero site hv hzero h
  · intro hok
    rcases lt_or_ge places (-(bdecPrecision : Int)) with hfar | hnear
    · exact roundsExactly_far site hv hfar
    · exact roundsExactly_near site hv hnear hok

/-- `2.5` rounds half away to `3`. -/
theorem decvRound_exact_iff_half :
    RoundsExactly .halfAway ⟨25, 0, 1⟩ 0 ⟨1, 1⟩ :=
  (decvRound_exact_iff .halfAway ⟨25, 0, 1⟩ 0 ⟨1, 1⟩ (by decide)).mpr (by decide)

/-- `0.00` rounds up to `1`. -/
theorem decvRound_ceil_zero :
    (⟨0, 0, 2⟩ : BDec).Representable ∧
      beansDecvRound ⟨0, 0, 2⟩ 0 RoundingMode.ceil.code ⟨1, 1⟩ = .ok ⟨1, 0, 0⟩ ∧
      ¬ RoundsExactly .ceil ⟨0, 0, 2⟩ 0 ⟨1, 1⟩ := by
  have hrep : (⟨0, 0, 2⟩ : BDec).Representable := by decide
  exact ⟨hrep, by decide +kernel,
    not_roundsExactly_of_ceilsZero ⟨1, 1⟩ hrep (by decide)⟩

end Decimal
end Beans
