import Beans.Decimal.Division

/-!
# The arithmetic contract

The four operations together: what they return is the exact result rounded
half-even to 38 digits, they panic only where no decimal is the exact result
(a zero product of too large a scale apart), and the scale of a result follows
from the scales of the operands.

**Input.**  Any two representable decimals: coefficients below 10^38 and scales of 16 bits.

**Results.**
* `decArithmetic_correctlyRounded`: what is returned is the exact result, rounded half-even.
* `decArithmetic_zeroProduct_panics`: a zero product whose scale does not fit is an overflow.
* `decScale_rules`: the scale of a sum, a difference, a product and a quotient.
* `decScale_quotient_notSmallest`: the scale of a quotient need not be the smallest one.
-/

namespace Beans
namespace Decimal

open HalfEven

inductive DecOp where
  | add
  | sub
  | mul
  | div
deriving DecidableEq, Repr

namespace DecOp

def run : DecOp → BDec → BDec → Site → Except Panic BDec
  | add => beansDecvAdd
  | sub => beansDecvSub
  | mul => beansDecvMul
  | div => beansDecvDiv

/-- The exact result on the numbers the operands denote. -/
def exact : DecOp → ℚ → ℚ → ℚ
  | add, x, y => x + y
  | sub, x, y => x - y
  | mul, x, y => x * y
  | div, x, y => x / y

end DecOp

variable {a b d : BDec} {ideal s scale : ℤ} {x : ℚ} {site : Site}

/-- A zero quotient carries the scale difference, never a negative one. -/
theorem beansDecvDiv_zero (site : Site) (hza : a.coeff = 0)
    (hzb : b.coeff ≠ 0) :
    beansDecvDiv a b site = .ok (decSet ⟨0, 0⟩ false (max 0 (a.s - b.s))) := by
  unfold beansDecvDiv
  rw [if_neg (mt (decZero_iff b).mp hzb), if_pos ((decZero_iff a).mpr hza)]
  dsimp only
  congr 2
  split_ifs <;> omega

/-- Outside zero products every operation rounds, or there is no decimal. -/
theorem DecOp.run_roundedOrPanic (op : DecOp) (site : Site)
    (ha : a.Representable) (hb : b.Representable)
    (hdiv : op = .div → b.coeff ≠ 0)
    (hmul : op = .mul → op.exact a.toRat b.toRat = 0 →
      a.s + b.s ≤ bdecMaxScale) :
    ∃ ideal, RoundedOrPanic (op.exact a.toRat b.toRat) ideal site
      (op.run a b site) := by
  cases op with
  | add => exact ⟨_, beansDecvAdd_spec site ha hb⟩
  | sub => exact ⟨_, beansDecvSub_spec site ha hb⟩
  | mul =>
    by_cases hz : a.coeff = 0 ∨ b.coeff = 0
    · have hzero : a.toRat * b.toRat = 0 := by
        rw [mul_eq_zero, BDec.toRat_eq_zero_iff, BDec.toRat_eq_zero_iff]
        exact hz
      have hscale := hmul rfl hzero
      have hnonneg := add_nonneg ha.scale_nonneg hb.scale_nonneg
      refine ⟨a.s + b.s,
        Or.inl ⟨decSet ⟨0, 0⟩ false (a.s + b.s), ?_, ?_⟩⟩
      · exact (beansDecvMul_zero site ha hb hz).trans (if_neg (by omega))
      · rw [DecOp.exact, hzero]
        exact rounded_zero hnonneg hscale
    · rw [not_or] at hz
      exact ⟨_, beansDecvMul_spec site ha hb hz.1 hz.2⟩
  | div =>
    have hzb := hdiv rfl
    by_cases hza : a.coeff = 0
    · refine ⟨max 0 (a.s - b.s),
        Or.inl ⟨_, beansDecvDiv_zero site hza hzb, ?_⟩⟩
      rw [DecOp.exact, (BDec.toRat_eq_zero_iff a).mpr hza, zero_div]
      have ha' := ha.scale_le
      have hb' := hb.scale_nonneg
      exact rounded_zero (le_max_left _ _)
        (max_le (by decide) (by omega))
    · obtain ⟨ideal, h, -⟩ := beansDecvDiv_spec site ha hb hza hzb
      exact ⟨ideal, h⟩

/--
Arithmetic is correctly rounded.  A returned result is the exact one rounded
half-even to 38 digits, unchanged when it needs no more; a result that is a
decimal is returned, except that a zero product whose scales add up to more
than 65535 is an overflow.
-/
theorem decArithmetic_correctlyRounded
    (op : DecOp) (a b : BDec) (site : Site)
    (ha : a.Representable) (hb : b.Representable)
    (hdiv : op = .div → b.coeff ≠ 0) :
    (∀ d, op.run a b site = .ok d →
      d.Representable ∧
      d.toRat = roundSig 10 bdecPrecision (op.exact a.toRat b.toRat) ∧
      ∀ m e : ℤ, |m| < 10 ^ bdecPrecision →
        op.exact a.toRat b.toRat = m * (10 : ℚ) ^ e →
        d.toRat = op.exact a.toRat b.toRat) ∧
    (FitsDecimal (op.exact a.toRat b.toRat) →
      (op = .mul → op.exact a.toRat b.toRat = 0 → a.s + b.s ≤ bdecMaxScale) →
      Returns (op.run a b site)) ∧
    (op = .mul → op.exact a.toRat b.toRat = 0 → bdecMaxScale < a.s + b.s →
      op.run a b site = decOverflow site) := by
  have hpanic : op = .mul → op.exact a.toRat b.toRat = 0 →
      bdecMaxScale < a.s + b.s → op.run a b site = decOverflow site := by
    rintro rfl hzero hscale
    rw [DecOp.exact, mul_eq_zero, BDec.toRat_eq_zero_iff,
      BDec.toRat_eq_zero_iff] at hzero
    exact (beansDecvMul_zero site ha hb hzero).trans (if_pos hscale)
  refine ⟨?_, ?_, hpanic⟩
  · intro d hd
    have hmul : op = .mul → op.exact a.toRat b.toRat = 0 →
        a.s + b.s ≤ bdecMaxScale := by
      intro hop hzero
      by_contra hscale
      rw [hpanic hop hzero (not_le.mp hscale)] at hd
      cases hd
    obtain ⟨ideal, ⟨d', hok, hround⟩ | ⟨hp, -⟩⟩ :=
      op.run_roundedOrPanic site ha hb hdiv hmul
    · rw [hok] at hd
      cases hd
      refine ⟨hround.representable, hround.toRat_eq, fun m e hm hx => ?_⟩
      rw [hround.toRat_eq]
      refine roundSig_eq_self (m := m) (e := e) (by omega) ?_ ?_
      · rw [hx, Nat.cast_ofNat]
      · exact_mod_cast hm
    · rw [hp] at hd
      cases hd
  · intro hfits hmul
    obtain ⟨ideal, ⟨d', hok, -⟩ | ⟨-, hun⟩⟩ :=
      op.run_roundedOrPanic site ha hb hdiv hmul
    · exact ⟨d', hok⟩
    · exact absurd hfits hun

/-- `0.1 + 0.2` is `0.3`. -/
theorem decArithmetic_correctlyRounded_cents :
    (⟨3, 0, 1⟩ : BDec).toRat = roundSig 10 bdecPrecision
      (DecOp.add.exact (⟨1, 0, 1⟩ : BDec).toRat (⟨2, 0, 1⟩ : BDec).toRat) :=
  ((decArithmetic_correctlyRounded .add ⟨1, 0, 1⟩ ⟨2, 0, 1⟩ ⟨1, 1⟩
    (by decide) (by decide) (by decide)).1 _ (by decide +kernel)).2.1

/-- `0E-40000 * 0E-40000` is zero, a decimal, and still an overflow. -/
theorem decArithmetic_zeroProduct_panics :
    (⟨0, 0, 40000⟩ : BDec).Representable ∧
      FitsDecimal (DecOp.mul.exact (⟨0, 0, 40000⟩ : BDec).toRat
        (⟨0, 0, 40000⟩ : BDec).toRat) ∧
      ¬ Returns (DecOp.mul.run ⟨0, 0, 40000⟩ ⟨0, 0, 40000⟩ ⟨1, 1⟩) := by
  have hrep : (⟨0, 0, 40000⟩ : BDec).Representable := by decide
  have hzero : (⟨0, 0, 40000⟩ : BDec).toRat = 0 :=
    (BDec.toRat_eq_zero_iff _).mpr (by decide)
  refine ⟨hrep, ⟨⟨0, 0, 0⟩, by decide, ?_⟩, ?_⟩
  · rw [DecOp.exact, hzero, mul_zero]
    exact (BDec.toRat_eq_zero_iff _).mpr (by decide)
  · rintro ⟨d, hd⟩
    have hrun := beansDecvMul_zero ⟨1, 1⟩ hrep hrep (Or.inl (by decide))
    rw [if_pos (by decide)] at hrun
    rw [DecOp.run, hrun] at hd
    cases hd

/-- `x` written at `scale` needs no more than 38 digits. -/
def FitsAt (x : ℚ) (scale : ℤ) : Prop :=
  ∃ m : ℤ, |m| < 10 ^ bdecPrecision ∧ x = m * (10 : ℚ) ^ (-scale)

/-- A result that needs no rounding at its ideal scale carries that scale. -/
theorem Rounded.scale_eq (h : Rounded x ideal d)
    (h0 : 0 ≤ ideal) (hmax : ideal ≤ bdecMaxScale) (hfit : FitsAt x ideal) :
    d.s = ideal := by
  obtain ⟨m, hm, rfl⟩ := hfit
  have hround := h.toRat_eq
  rw [roundSig_eq_self (m := m) (e := -ideal) (by omega) (by rw [Nat.cast_ofNat])
    (by exact_mod_cast hm), BDec.toRat] at hround
  rcases h.scale_cases with hs | ⟨hlt, hcoeff⟩ | hs | hs
  · exact hs
  · obtain ⟨e, he⟩ : ∃ e : ℕ, ideal = d.s + (e + 1 : ℕ) :=
      ⟨(ideal - d.s - 1).toNat, by push_cast; omega⟩
    have hpow : (10 : ℚ) ^ (-ideal) ≠ 0 := zpow_ne_zero _ (by norm_num)
    have hsplit : (10 : ℚ) ^ (-d.s) = 10 ^ (e + 1) * 10 ^ (-ideal) := by
      rw [← zpow_natCast, ← zpow_add₀ (by norm_num), he]
      congr 1
      ring
    rw [hsplit, ← mul_assoc, mul_left_inj' hpow] at hround
    have hint : d.coeff * 10 ^ (e + 1) = m := by exact_mod_cast hround
    rw [← hint, abs_mul, abs_of_pos (by positivity : (0 : ℤ) < 10 ^ (e + 1))] at hm
    have hten : (10 : ℤ) ≤ 10 ^ (e + 1) := by
      exact_mod_cast Nat.le_self_pow (by omega) 10
    have hge : (10 : ℤ) ^ (bdecPrecision - 1) * 10 ≤ |d.coeff| * 10 ^ (e + 1) :=
      mul_le_mul hcoeff hten (by norm_num) (abs_nonneg _)
    exact absurd hm (not_lt.mpr hge)
  · omega
  · omega

/-- The smallest scale from `low` on at which `x` is a whole number of units. -/
def IsLeastScale (x : ℚ) (low s : ℤ) : Prop :=
  IsLeast {t : ℤ | low ≤ t ∧ ∃ m : ℤ, x = m * (10 : ℚ) ^ (-t)} s

theorem whole_mono {t : ℤ} (hst : s ≤ t)
    (h : ∃ m : ℤ, x = m * (10 : ℚ) ^ (-s)) :
    ∃ m : ℤ, x = m * (10 : ℚ) ^ (-t) := by
  obtain ⟨m, rfl⟩ := h
  obtain ⟨e, rfl⟩ := Int.le.dest hst
  refine ⟨m * 10 ^ e, ?_⟩
  rw [neg_add, zpow_add₀ (by norm_num), zpow_neg _ (e : ℤ), zpow_natCast]
  push_cast
  field_simp

/-- An exact quotient comes at the smallest scale from the scale difference
on. -/
theorem ExactQuotient.isLeastScale (h : ExactQuotient x scale ideal) (hd : Rounded x ideal d)
    (hmax : scale ≤ bdecMaxScale) :
    IsLeastScale x (max 0 scale) d.s := by
  obtain ⟨k, v, hideal, hv, habs, hlast⟩ := h.digits
  have hrep := hd.representable
  have hxd : d.toRat = x := by
    rw [hd.toRat_eq]
    rcases abs_choice x with hx | hx
    · rw [← hx, habs, roundSig_workingRat hv]
    · have hx' : x = -|x| := by rw [hx, neg_neg]
      rw [hx', habs, roundSig_neg, roundSig_workingRat hv]
  have hmem : ∃ m : ℤ, x = m * (10 : ℚ) ^ (-d.s) := ⟨d.coeff, hxd.symm⟩
  have hsmall : ∀ t : ℤ, scale ≤ t → (∃ m : ℤ, x = m * (10 : ℚ) ^ (-t)) →
      ideal ≤ t := by
    rintro t ht ⟨m, hm⟩
    by_contra hlt
    obtain ⟨e, he⟩ : ∃ e : ℕ, ideal = t + (e + 1 : ℕ) :=
      ⟨(ideal - t - 1).toNat, by push_cast; omega⟩
    have habs' : |x| = workingRat m.natAbs t := by
      rw [hm, abs_mul, abs_of_pos (zpow_pos (by norm_num : (0 : ℚ) < 10) _),
        workingRat, Nat.cast_natAbs, Int.cast_abs]
    rw [habs, he, ← workingRat_mul_pow m.natAbs (e + 1) t, workingRat_inj]
      at habs'
    have := hlast (by omega)
    rw [habs', pow_succ, ← Nat.mul_assoc] at this
    omega
  have hle : ideal ≤ bdecMaxScale :=
    hsmall _ hmax (whole_mono hrep.scale_le hmem)
  have hdscale : d.s = max 0 ideal := by
    have h0 := hrep.scale_nonneg
    rcases hd.scale_cases with hs | ⟨hlt, hcoeff⟩ | ⟨hbig, hs⟩ | ⟨hneg, hs⟩
    · omega
    · have hfit : FitsAt x ideal := by
        rcases abs_choice x with hx | hx
        · exact ⟨v, by rw [Nat.abs_cast]; exact_mod_cast hv, by
            rw [← hx, habs, workingRat, Int.cast_natCast]⟩
        · refine ⟨-v, by rw [abs_neg, Nat.abs_cast]; exact_mod_cast hv, ?_⟩
          rw [← neg_neg x, ← hx, habs, workingRat]
          push_cast
          ring
      have := hd.scale_eq (by omega) hle hfit
      omega
    · omega
    · omega
  refine ⟨⟨?_, hmem⟩, ?_⟩
  · rw [hdscale, hideal]
    omega
  · rintro t ⟨ht, hm⟩
    have := hsmall t (le_trans (le_max_right _ _) ht) hm
    rw [hdscale]
    exact max_le (le_trans (le_max_left _ _) ht) this

theorem decZero_eq (h : decZero d = true) : d = ⟨0, 0, d.s⟩ := by
  obtain ⟨lo, hi, s⟩ := d
  simp only [decZero, Bool.and_eq_true, beq_iff_eq] at h
  rw [h.1, h.2]

theorem decAddAligned_comm {sa sb : ℕ} (site : Site)
    (hsa : a.s + sa = scale) (hsb : b.s + sb = scale)
    (hsa' : sa ≤ 150) (hsb' : sb ≤ 150)
    (hwa : (decMag a).toNat * 10 ^ sa < 10 ^ 78)
    (hwb : (decMag b).toNat * 10 ^ sb < 10 ^ 78) :
    decAddAligned a b scale site = decAddAligned b a scale site := by
  have hlimit : 10 ^ 78 + 10 ^ 78 < wideLimit := by
    unfold wideLimit bdecWideLimbs
    norm_num
  unfold decAddAligned
  rw [show scale - a.s = sa by omega, show scale - b.s = sb by omega,
    decwMulPow10_of_lt site hsa' (by rw [decwFrom128_toNat]; omega),
    decwMulPow10_of_lt site hsb' (by rw [decwFrom128_toNat]; omega),
    ok_bind, ok_bind, ok_bind, ok_bind, decwFrom128_toNat, decwFrom128_toNat]
  generalize (decMag a).toNat * 10 ^ sa = m at *
  generalize (decMag b).toNat * 10 ^ sb = n at *
  have hm := BDecWide.toNat_ofNat (n := m) (by omega)
  have hn := BDecWide.toNat_ofNat (n := n) (by omega)
  dsimp only
  by_cases hsign : decNegative a = decNegative b
  · rw [if_pos hsign, if_pos hsign.symm, decwAdd_of_lt site (by omega),
      decwAdd_of_lt site (by omega), hm, hn, Nat.add_comm, hsign]
  · rw [if_neg hsign, if_neg (Ne.symm hsign)]
    have hmn := decwCmp_eq (BDecWide.ofNat m) (BDecWide.ofNat n)
    have hnm := decwCmp_eq (BDecWide.ofNat n) (BDecWide.ofNat m)
    rw [hm, hn] at hmn hnm
    rcases lt_trichotomy m n with hlt | heq | hgt
    · rw [if_pos hlt] at hmn
      rw [if_neg (by omega), if_pos hlt] at hnm
      rw [hmn, hnm, if_neg (by decide), if_neg (by decide), if_neg (by decide),
        if_pos (by decide)]
    · rw [if_neg (by omega), if_neg (by omega)] at hmn hnm
      rw [hmn, hnm, if_pos rfl, if_pos rfl]
    · rw [if_neg (by omega), if_pos hgt] at hmn
      rw [if_pos hgt] at hnm
      rw [hmn, hnm, if_neg (by decide), if_pos (by decide), if_neg (by decide),
        if_neg (by decide)]

/-- A zero reaches every scale it is widened to. -/
theorem decWiden_zero (site : Site) (hs : s ≤ scale)
    (hmax : scale ≤ bdecMaxScale) :
    decWiden ⟨0, 0, s⟩ scale site = .ok ⟨0, 0, scale⟩ := by
  unfold decWiden
  rcases eq_or_lt_of_le hs with rfl | hlt
  · exact if_pos le_rfl
  · rw [if_neg (not_le.mpr hlt), if_pos (by rfl), if_neg (by omega)]
    rfl

theorem beansDecvAdd_comm (site : Site) (ha : a.Representable)
    (hb : b.Representable) : beansDecvAdd a b site = beansDecvAdd b a site := by
  have hscale : (if b.s < a.s then a.s else b.s) = max a.s b.s := by
    split_ifs <;> omega
  have hscale' : (if a.s < b.s then b.s else a.s) = max a.s b.s := by
    split_ifs <;> omega
  unfold beansDecvAdd
  rw [hscale, hscale', Bool.or_comm (decZero b)]
  dsimp only
  by_cases hzero : (decZero a || decZero b) = true
  · rw [if_pos hzero, if_pos hzero]
    by_cases hza : decZero a = true
    · by_cases hzb : decZero b = true
      · rw [if_pos hza, if_pos hzb, decZero_eq hza, decZero_eq hzb]
        have hmax := max_le ha.scale_le hb.scale_le
        exact (decWiden_zero site (le_max_right _ _) hmax).trans
          (decWiden_zero site (le_max_left _ _) hmax).symm
      · rw [if_pos hza, if_neg hzb]
    · rw [if_neg hza, if_pos ((Bool.or_eq_true_iff.mp hzero).resolve_left hza)]
  · rw [if_neg hzero, if_neg hzero]
    have hza : a.coeff ≠ 0 := fun h => hzero (by simp [(decZero_iff a).mpr h])
    have hzb : b.coeff ≠ 0 := fun h => hzero (by simp [(decZero_iff b).mpr h])
    by_cases hab : (bdecPrecision : ℤ) + 1 < decAdjusted a - decAdjusted b
    · rw [if_pos hab, if_neg (by omega), if_pos hab]
    · rw [if_neg hab]
      by_cases hba : (bdecPrecision : ℤ) + 1 < decAdjusted b - decAdjusted a
      · rw [if_pos hba, if_pos hba]
      · rw [if_neg hba, if_neg hba, if_neg hab]
        obtain ⟨sa, sb, hsa, hsb, ha150, hb150, hwa, hwb⟩ :=
          decAligned_bounds ha hb hza hzb (by omega) (by omega)
        exact decAddAligned_comm site hsa hsb ha150 hb150 hwa hwb

theorem beansDecvMul_comm (a b : BDec) (site : Site) :
    beansDecvMul a b site = beansDecvMul b a site := by
  unfold beansDecvMul
  rw [decwMultiply_eq, decwMultiply_eq, Nat.mul_comm, add_comm a.s, bne_comm]

/-- The ideal scale where 38 digits reach it, else 38 digits below it. -/
def ScaleRule (x : ℚ) (ideal : ℤ) (d : BDec) : Prop :=
  (FitsAt x ideal → d.s = ideal) ∧
    (d.s = ideal ∨ (d.s < ideal ∧ 10 ^ (bdecPrecision - 1) ≤ |d.coeff|))

theorem Rounded.scaleRule (h : Rounded x ideal d)
    (h0 : 0 ≤ ideal) (hmax : ideal ≤ bdecMaxScale) : ScaleRule x ideal d := by
  refine ⟨h.scale_eq h0 hmax, ?_⟩
  rcases h.scale_cases with hs | hs | hs | hs
  · exact Or.inl hs
  · exact Or.inr hs
  · omega
  · omega

theorem RoundedOrPanic.rounded {r : Except Panic BDec} (h : RoundedOrPanic x ideal site r)
    (hr : r = .ok d) : Rounded x ideal d := by
  rcases h with ⟨d', hok, hd⟩ | ⟨hp, -⟩
  · rw [hok] at hr
    cases hr
    exact hd
  · rw [hp] at hr
    cases hr

theorem beansDecvMul_rounded (ha : a.Representable) (hb : b.Representable)
    (hd : beansDecvMul a b site = .ok d) :
    Rounded (a.toRat * b.toRat) (a.s + b.s) d := by
  by_cases hz : a.coeff = 0 ∨ b.coeff = 0
  · rw [beansDecvMul_zero site ha hb hz] at hd
    have hzero : a.toRat * b.toRat = 0 := by
      rw [mul_eq_zero, BDec.toRat_eq_zero_iff, BDec.toRat_eq_zero_iff]
      exact hz
    split_ifs at hd with hscale
    · cases hd
    · cases hd
      rw [hzero]
      exact rounded_zero (add_nonneg ha.scale_nonneg hb.scale_nonneg)
        (not_lt.mp hscale)
  · rw [not_or] at hz
    exact (beansDecvMul_spec site ha hb hz.1 hz.2).rounded hd

theorem beansDecvDiv_isLeastScale
    (ha : a.Representable) (hb : b.Representable) (hzb : b.coeff ≠ 0)
    (hd : beansDecvDiv a b site = .ok d) (hfit : FitsDecimal (a.toRat / b.toRat)) :
    IsLeastScale (a.toRat / b.toRat) (max 0 (a.s - b.s)) d.s := by
  by_cases hza : a.coeff = 0
  · rw [beansDecvDiv_zero site hza hzb] at hd
    cases hd
    refine ⟨⟨le_rfl, 0, ?_⟩, fun t ht => ht.1⟩
    rw [(BDec.toRat_eq_zero_iff a).mpr hza]
    simp
  · obtain ⟨ideal, hrun, hexact | hun⟩ := beansDecvDiv_spec site ha hb hza hzb
    · have hmax := ha.scale_le
      have hnonneg := hb.scale_nonneg
      exact hexact.isLeastScale (hrun.rounded hd) (by omega)
    · exact absurd hfit hun

/-- A zero coefficient has no sign. -/
theorem decNegative_of_zero (h : d.coeff = 0) :
    decNegative d = false := by
  rw [← Bool.not_eq_true, decNegative_iff_coeff, h]
  exact lt_irrefl 0

/--
The scale rules.  A sum and a difference carry the larger scale and a product
the sum of the scales, where 38 digits reach that far; an exact quotient
carries the smallest scale from the scale difference on.  Addition and
multiplication are commutative, scale and panic included, and no result has a
negative scale or is a negative zero.
-/
theorem decScale_rules
    (a b : BDec) (site : Site)
    (ha : a.Representable) (hb : b.Representable) :
    (∀ d, beansDecvAdd a b site = .ok d →
      ScaleRule (a.toRat + b.toRat) (max a.s b.s) d) ∧
    (∀ d, beansDecvSub a b site = .ok d →
      ScaleRule (a.toRat - b.toRat) (max a.s b.s) d) ∧
    (∀ d, beansDecvMul a b site = .ok d →
      (a.s + b.s ≤ bdecMaxScale →
        ScaleRule (a.toRat * b.toRat) (a.s + b.s) d) ∧
      (bdecMaxScale < a.s + b.s → d.s = bdecMaxScale ∨
        (d.s < bdecMaxScale ∧ 10 ^ (bdecPrecision - 1) ≤ |d.coeff|))) ∧
    (b.coeff ≠ 0 → ∀ d, beansDecvDiv a b site = .ok d →
      FitsDecimal (a.toRat / b.toRat) →
      IsLeastScale (a.toRat / b.toRat) (max 0 (a.s - b.s)) d.s) ∧
    beansDecvAdd a b site = beansDecvAdd b a site ∧
    beansDecvMul a b site = beansDecvMul b a site ∧
    (∀ (op : DecOp) (d : BDec), op.run a b site = .ok d →
      0 ≤ d.s ∧ (d.coeff = 0 → decNegative d = false)) := by
  have hmax : max a.s b.s ≤ bdecMaxScale := max_le ha.scale_le hb.scale_le
  have hmax0 : 0 ≤ max a.s b.s := le_trans ha.scale_nonneg (le_max_left _ _)
  have hsum0 := add_nonneg ha.scale_nonneg hb.scale_nonneg
  refine ⟨fun d hd => ?_, fun d hd => ?_, fun d hd => ⟨fun hle => ?_, fun hgt => ?_⟩,
    fun hzb d hd => beansDecvDiv_isLeastScale ha hb hzb hd,
    beansDecvAdd_comm site ha hb, beansDecvMul_comm a b site,
    fun op d hd => ⟨?_, decNegative_of_zero⟩⟩
  · exact ((beansDecvAdd_spec site ha hb).rounded hd).scaleRule hmax0 hmax
  · exact ((beansDecvSub_spec site ha hb).rounded hd).scaleRule hmax0 hmax
  · exact (beansDecvMul_rounded ha hb hd).scaleRule hsum0 hle
  · have hround := beansDecvMul_rounded ha hb hd
    have hscale := hround.representable.scale_le
    rcases hround.scale_cases with hs | ⟨hs, hcoeff⟩ | ⟨-, hs⟩ | ⟨hs, -⟩
    · omega
    · rcases eq_or_lt_of_le hscale with heq | hlt
      · exact Or.inl heq
      · exact Or.inr ⟨hlt, hcoeff⟩
    · exact Or.inl hs
    · omega
  · cases op with
    | add =>
      exact ((beansDecvAdd_spec site ha hb).rounded hd).representable.scale_nonneg
    | sub =>
      exact ((beansDecvSub_spec site ha hb).rounded hd).representable.scale_nonneg
    | mul => exact (beansDecvMul_rounded ha hb hd).representable.scale_nonneg
    | div =>
      have hzb : b.coeff ≠ 0 := by
        intro hzb
        rw [DecOp.run, beansDecvDiv, if_pos ((decZero_iff b).mpr hzb)] at hd
        cases hd
      by_cases hza : a.coeff = 0
      · rw [DecOp.run, beansDecvDiv_zero site hza hzb] at hd
        cases hd
        exact le_max_left _ _
      · obtain ⟨ideal, hrun, -⟩ := beansDecvDiv_spec site ha hb hza hzb
        exact (hrun.rounded hd).representable.scale_nonneg

/-- `1.25 + 1.25` is `2.50`, at scale 2. -/
theorem decScale_rules_cents :
    ScaleRule ((⟨125, 0, 2⟩ : BDec).toRat + (⟨125, 0, 2⟩ : BDec).toRat)
      (max 2 2) ⟨250, 0, 2⟩ :=
  (decScale_rules ⟨125, 0, 2⟩ ⟨125, 0, 2⟩ ⟨1, 1⟩ (by decide) (by decide)).1 _
    (by decide +kernel)

/-- `1.00 / 1` is `1.00`, although scale 0 represents the quotient. -/
theorem decScale_quotient_notSmallest :
    beansDecvDiv ⟨100, 0, 2⟩ ⟨1, 0, 0⟩ ⟨1, 1⟩ = .ok ⟨100, 0, 2⟩ ∧
      FitsAt ((⟨100, 0, 2⟩ : BDec).toRat / (⟨1, 0, 0⟩ : BDec).toRat) 0 := by
  refine ⟨by decide +kernel, 1, by decide, ?_⟩
  have hnum : (⟨100, 0, 2⟩ : BDec).coeff = 100 := by decide
  have hden : (⟨1, 0, 0⟩ : BDec).coeff = 1 := by decide
  rw [BDec.toRat, BDec.toRat, hnum, hden]
  norm_num [zpow_neg]

end Decimal
end Beans
