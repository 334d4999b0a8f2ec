import Beans.Decimal.Value
import Beans.Foundation.HalfEven

/-!
# Rounding and range of a finished result

Every decimal operation ends in `decFinish`, which takes an exact working value
and a scale and makes a decimal of them: a negative scale is expanded away, a
scale above 65535 gives up trailing zeros, a coefficient of more than 38 digits
is rounded, and what still does not fit is a panic.  The specification says
which number comes out, at which scale, and that a panic means the exact number
was not a decimal at all.
-/

namespace Beans
namespace Decimal

open HalfEven

def broundHalfEven : Int := 0
def broundHalfAway : Int := 1
def broundTowardZero : Int := 2
def broundFloor : Int := 3
def broundCeil : Int := 4

/-- What the guard digit and the sticky bit say, mode by mode. -/
def decShouldIncrement (guard : UInt32) (sticky : Bool) (kept : BDecWide)
    (negative : Bool) (mode : Int) : Except Panic Bool :=
  if mode = broundHalfEven then
    .ok (5 < guard || (guard == 5 && (sticky || decwMod10 kept % 2 != 0)))
  else if mode = broundHalfAway then .ok (5 ≤ guard)
  else if mode = broundTowardZero then .ok false
  else if mode = broundFloor then .ok (negative && (guard != 0 || sticky))
  else if mode = broundCeil then .ok (!negative && (guard != 0 || sticky))
  else beansPanic "unknown decimal rounding mode" ⟨0, 0⟩

/-- The working value of the digit-dropping loop. -/
structure Dropping where
  value : BDecWide
  guard : UInt32
  sticky : Bool

/-- Drops digits; the last one dropped is the guard. -/
def decDropLoop : ℕ → Dropping → Dropping
  | 0, d => d
  | left + 1, d =>
    let (value, removed) := decwDiv10 d.value
    if left = 0 then decDropLoop left ⟨value, removed, d.sticky⟩
    else decDropLoop left ⟨value, d.guard, d.sticky || removed != 0⟩

/-- Digits are dropped one by one; the last of them is the guard. -/
def decDrop (value : BDecWide) (drop : ℕ) : Dropping :=
  decDropLoop drop ⟨value, 0, false⟩

/-- A negative scale becomes trailing zeros of the coefficient. -/
def decFinishExpand (value : BDecWide) (scale : Int) (site : Site) :
    Except Panic (BDecWide × Int) :=
  if scale < 0 then
    let expand := -scale
    if (bdecPrecision : Int) < expand ∨
        (bdecPrecision : Int) < decwDigits value + expand then
      decOverflow site
    else do
      let value ← decwMulPow10 value expand site
      .ok (value, 0)
  else .ok (value, scale)

/-- Trailing zeros are given up while the scale is too large. -/
def decFinishStrip : ℕ → BDecWide → Int → BDecWide × Int
  | 0, value, scale => (value, scale)
  | fuel + 1, value, scale =>
    if bdecMaxScale < scale ∧ decwMod10 value = 0 then
      decFinishStrip fuel (decwDiv10 value).1 (scale - 1)
    else (value, scale)

def decIncrementIf (up : Bool) (value : BDecWide) (site : Site) :
    Except Panic BDecWide :=
  if up then decwIncrement value site else .ok value

/-- A rounding carry that reached a 39th digit is taken back. -/
def decFinishCarry (value : BDecWide) (scale : Int) (site : Site) :
    Except Panic (BDecWide × Int) :=
  if bdecPrecision < decwDigits value then
    if scale = 0 ∨ decwMod10 value ≠ 0 then decOverflow site
    else .ok ((decwDiv10 value).1, scale - 1)
  else .ok (value, scale)

/-- The digits beyond the precision are rounded away. -/
def decFinishRound (value : BDecWide) (scale : Int) (negative : Bool)
    (mode : Int) (site : Site) : Except Panic (BDecWide × Int) :=
  let digits := decwDigits value
  if bdecPrecision < digits then
    let drop := digits - bdecPrecision
    if scale < drop then decOverflow site
    else do
      let d := decDrop value drop
      let up ← decShouldIncrement d.guard d.sticky d.value negative mode
      let value ← decIncrementIf up d.value site
      decFinishCarry value (scale - drop) site
  else .ok (value, scale)

/-- A nonzero working value loses at most its 154 trailing zeros. -/
def decFinishSettle (value : BDecWide) (negative : Bool) (scale mode : Int)
    (site : Site) : Except Panic BDec :=
  let (value, scale) := decFinishStrip 155 value scale
  if bdecMaxScale < scale then decOverflow site
  else do
    let (value, scale) ← decFinishRound value scale negative mode site
    let coefficient ← decwTo128 value site
    if 0 < buCmp coefficient decCoeffLimit then decOverflow site
    else .ok (decSet coefficient negative scale)

/-- A wide coefficient is brought to 38 digits and a scale in range. -/
def decFinish (value : BDecWide) (negative : Bool) (scale mode : Int)
    (site : Site) : Except Panic BDec :=
  if decwZero value then
    let scale := if scale < 0 then 0 else scale
    if bdecMaxScale < scale then decOverflow site
    else .ok (decSet ⟨0, 0⟩ false scale)
  else do
    let (value, scale) ← decFinishExpand value scale site
    decFinishSettle value negative scale mode site

theorem decDropLoop_spec :
    ∀ (left : ℕ) (d : Dropping),
      (decDropLoop (left + 1) d).value.toNat =
          d.value.toNat / 10 ^ (left + 1) ∧
        (decDropLoop (left + 1) d).guard.toNat =
          d.value.toNat / 10 ^ left % 10 ∧
        ((decDropLoop (left + 1) d).sticky = true ↔
          d.sticky = true ∨ d.value.toNat % 10 ^ left ≠ 0)
  | 0, d => by
      have hdiv := decwDiv10_spec d.value
      simp [decDropLoop, hdiv.1, hdiv.2, Nat.mod_one]
  | left + 1, d => by
      obtain ⟨hquot, hrem⟩ := decwDiv10_spec d.value
      obtain ⟨hvalue, hguard, hsticky⟩ :=
        decDropLoop_spec left
          ⟨(decwDiv10 d.value).1, d.guard,
            d.sticky || (decwDiv10 d.value).2 != 0⟩
      have hunfold : decDropLoop (left + 1 + 1) d =
          decDropLoop (left + 1)
            ⟨(decwDiv10 d.value).1, d.guard,
              d.sticky || (decwDiv10 d.value).2 != 0⟩ := by
        conv_lhs => rw [decDropLoop]
        simp
      have hremoved : (decwDiv10 d.value).2 ≠ 0 ↔ d.value.toNat % 10 ≠ 0 := by
        rw [ne_eq, ← UInt32.toNat_inj, UInt32.toNat_zero, hrem]
      have hmod : d.value.toNat % 10 ^ (left + 1) = 0 ↔
          d.value.toNat % 10 = 0 ∧ d.value.toNat / 10 % 10 ^ left = 0 := by
        rw [pow_succ', Nat.mod_mul]
        omega
      rw [hunfold]
      dsimp only at hvalue hguard hsticky
      refine ⟨?_, ?_, ?_⟩
      · rw [hvalue, hquot, Nat.div_div_eq_div_mul, ← pow_succ']
      · rw [hguard, hquot, Nat.div_div_eq_div_mul, ← pow_succ']
      · rw [hsticky, hquot, Bool.or_eq_true, bne_iff_ne, hremoved]
        simp only [ne_eq, hmod]
        tauto

variable {c drop n : ℕ} {v : BDecWide} {negative : Bool} {s scale : ℤ}

theorem decDrop_spec (value : BDecWide) (h : 0 < drop) :
    (decDrop value drop).value.toNat = value.toNat / 10 ^ drop ∧
      (decDrop value drop).guard.toNat = value.toNat / 10 ^ (drop - 1) % 10 ∧
      ((decDrop value drop).sticky = true ↔
        value.toNat % 10 ^ (drop - 1) ≠ 0) := by
  obtain ⟨left, rfl⟩ : ∃ left, drop = left + 1 := ⟨drop - 1, by omega⟩
  simpa [decDrop] using decDropLoop_spec left ⟨value, 0, false⟩

/-- The half-even decision on the guard, the sticky bit and the kept digits. -/
theorem decShouldIncrement_halfEven (guard : UInt32) (sticky : Bool)
    (kept : BDecWide) (negative : Bool) :
    decShouldIncrement guard sticky kept negative broundHalfEven =
      .ok (decide (5 < guard.toNat ∨
        (guard.toNat = 5 ∧ (sticky = true ∨ kept.toNat % 2 ≠ 0)))) := by
  have hfive : (5 : UInt32).toNat = 5 := rfl
  have htwo : (2 : UInt32).toNat = 2 := rfl
  have hgt : 5 < guard ↔ 5 < guard.toNat := UInt32.lt_iff_toNat_lt
  have heq : guard = 5 ↔ guard.toNat = 5 := by
    rw [← UInt32.toNat_inj, hfive]
  have hodd : decwMod10 kept % 2 = 0 ↔ kept.toNat % 2 = 0 := by
    rw [← UInt32.toNat_inj, UInt32.toNat_mod, decwMod10_toNat, htwo,
      UInt32.toNat_zero]
    omega
  rw [decShouldIncrement, if_pos rfl]
  refine congrArg Except.ok ?_
  rw [Bool.eq_iff_iff, decide_eq_true_iff]
  simp only [Bool.or_eq_true, Bool.and_eq_true, decide_eq_true_iff, beq_iff_eq,
    bne_iff_ne, ne_eq, hgt, heq, hodd]

theorem decFinishExpand_of_nonneg {scale : Int} (site : Site)
    (h : 0 ≤ scale) : decFinishExpand v scale site = .ok (v, scale) :=
  if_neg (by omega)

theorem decFinishExpand_neg {expand : ℕ} (site : Site)
    (hv : 0 < v.toNat) (hexpand : 0 < expand) :
    decFinishExpand v (-expand) site =
      if v.toNat * 10 ^ expand < 10 ^ bdecPrecision then
        .ok (BDecWide.ofNat (v.toNat * 10 ^ expand), 0)
      else decOverflow site := by
  have hdigits : numDigits v.toNat + expand ≤ bdecPrecision ↔
      v.toNat * 10 ^ expand < 10 ^ bdecPrecision := by
    rw [← numDigits_mul_pow hv, numDigits_le_iff (by decide)]
  have hpos : 0 < numDigits v.toNat := Nat.succ_pos _
  unfold decFinishExpand
  rw [if_pos (by omega), decwDigits_eq, neg_neg]
  by_cases hfit : v.toNat * 10 ^ expand < 10 ^ bdecPrecision
  · have hle := hdigits.mpr hfit
    have hwide : v.toNat * 10 ^ expand < wideLimit :=
      lt_of_lt_of_le hfit (by
        unfold wideLimit bdecPrecision bdecWideLimbs
        norm_num)
    rw [if_neg (by omega), if_pos hfit, decwMulPow10_of_lt site
      (by simp only [bdecPrecision] at hle; omega) hwide]
    rfl
  · have hgt := mt hdigits.mp hfit
    rw [if_pos (by omega), if_neg hfit]

theorem decFinishStrip_spec :
    ∀ (fuel : ℕ) (v : BDecWide) (scale : Int), v.toNat ≠ 0 →
      v.toNat < 10 ^ fuel →
      ∃ k : ℕ, v.toNat = (decFinishStrip fuel v scale).1.toNat * 10 ^ k ∧
        (decFinishStrip fuel v scale).2 = scale - k ∧
        (k = 0 ∨ bdecMaxScale ≤ (decFinishStrip fuel v scale).2) ∧
        ((decFinishStrip fuel v scale).2 ≤ bdecMaxScale ∨
          (decFinishStrip fuel v scale).1.toNat % 10 ≠ 0)
  | 0, v, scale, hne, hlt => by
      simp at hlt
      exact absurd hlt hne
  | fuel + 1, v, scale, hne, hlt => by
      have hquot := (decwDiv10_spec v).1
      have hmod : decwMod10 v = 0 ↔ v.toNat % 10 = 0 := by
        rw [← UInt32.toNat_inj, decwMod10_toNat, UInt32.toNat_zero]
      unfold decFinishStrip
      by_cases hgo : bdecMaxScale < scale ∧ decwMod10 v = 0
      · rw [if_pos hgo]
        have hzero := hmod.mp hgo.2
        obtain ⟨k, hval, hscale, hstop, hend⟩ :=
          decFinishStrip_spec fuel (decwDiv10 v).1 (scale - 1)
            (by omega) (by rw [pow_succ] at hlt; omega)
        refine ⟨k + 1, ?_, by rw [hscale]; push_cast; ring, Or.inr ?_, hend⟩
        · rw [pow_succ, ← Nat.mul_assoc, ← hval, hquot]
          omega
        · rcases hstop with rfl | hstop
          · rw [hscale]
            omega
          · exact hstop
      · rw [if_neg hgo]
        refine ⟨0, by simp, by simp, Or.inl rfl, ?_⟩
        by_cases hle : scale ≤ bdecMaxScale
        · exact Or.inl hle
        · exact Or.inr (fun h => hgo ⟨by omega, hmod.mpr h⟩)

/-- Dropping down to 38 digits and rounding up as decided is half-even. -/
theorem decDrop_halfEven (negative : Bool)
    (scale : ℤ) (hdrop : 0 < drop)
    (hlow : 10 ^ (bdecPrecision - 1 + drop) ≤ v.toNat)
    (hhigh : v.toNat < 10 ^ (bdecPrecision + drop)) :
    ∃ up : Bool,
      decShouldIncrement (decDrop v drop).guard (decDrop v drop).sticky
          (decDrop v drop).value negative broundHalfEven = .ok up ∧
        workingRat (v.toNat / 10 ^ drop + if up then 1 else 0) (scale - drop) =
          roundSig 10 bdecPrecision (workingRat v.toNat scale) := by
  obtain ⟨hvalue, hguard, hsticky⟩ := decDrop_spec v hdrop
  obtain ⟨left, rfl⟩ : ∃ left, drop = left + 1 := ⟨drop - 1, by omega⟩
  rw [Nat.add_sub_cancel] at hguard hsticky
  refine ⟨_, decShouldIncrement_halfEven _ _ _ _, ?_⟩
  set n := v.toNat
  have hten : (0 : ℚ) < 10 ^ (-scale) := zpow_pos (by norm_num) _
  have hunit : (10 : ℚ) ^ (((left + 1 : ℕ) : ℤ) - scale - 1) =
      10 ^ left * 10 ^ (-scale) := by
    rw [← zpow_natCast, ← zpow_add₀ (by norm_num)]
    congr 1
    push_cast
    ring
  have hsplit : 10 ^ left * (n / 10 ^ left) + n % 10 ^ left = n :=
    Nat.div_add_mod n _
  have hrem : n % 10 ^ left < 10 ^ left := Nat.mod_lt _ (by positivity)
  have hsplitQ : (n : ℚ) =
      10 ^ left * ((n / 10 ^ left : ℕ) : ℚ) + ((n % 10 ^ left : ℕ) : ℚ) := by
    exact_mod_cast hsplit.symm
  have hremQ : ((n % 10 ^ left : ℕ) : ℚ) < 10 ^ left := by exact_mod_cast hrem
  have hrem0 : (0 : ℚ) ≤ ((n % 10 ^ left : ℕ) : ℚ) := Nat.cast_nonneg _
  have hround := roundSig_of_guard (K := ℚ) (b := 10) (p := bdecPrecision)
    (h := 5) (x := workingRat n scale) (n := n / 10 ^ left)
    (e := ((left + 1 : ℕ) : ℤ) - scale) (by omega) rfl
    (by
      rw [Nat.le_div_iff_mul_le (by positivity), ← pow_add]
      convert hlow using 2
      unfold bdecPrecision
      omega)
    (by
      refine Nat.div_lt_of_lt_mul ?_
      rw [← pow_add]
      convert hhigh using 2
      omega)
    (by
      rw [Nat.cast_ofNat, hunit, workingRat, hsplitQ]
      nlinarith)
    (by
      rw [Nat.cast_ofNat, hunit, workingRat, hsplitQ]
      nlinarith)
  have hexact : workingRat n scale =
      ((n / 10 ^ left : ℕ) : ℚ) * (10 : ℚ) ^ (((left + 1 : ℕ) : ℤ) - scale - 1) ↔
        n % 10 ^ left = 0 := by
    rw [hunit, workingRat, hsplitQ, ← Nat.cast_eq_zero (R := ℚ)]
    constructor
    · intro h
      have hprod : ((n % 10 ^ left : ℕ) : ℚ) * 10 ^ (-scale) = 0 := by linarith
      exact (mul_eq_zero.mp hprod).resolve_right hten.ne'
    · intro h
      rw [h]
      ring
  rw [Nat.cast_ofNat] at hround
  simp only [ne_eq, hexact, Nat.div_div_eq_div_mul, ← pow_succ] at hround
  simp only [hguard, hsticky, hvalue, decide_eq_true_iff, ne_eq]
  rw [hround, workingRat, neg_sub]

theorem pow_bdecPrecision_lt : 10 ^ bdecPrecision < wideLimit := by
  unfold wideLimit bdecPrecision bdecWideLimbs
  norm_num

theorem decIncrementIf_of_lt (up : Bool) (site : Site)
    (h : v.toNat < 10 ^ bdecPrecision) :
    decIncrementIf up v site =
      .ok (BDecWide.ofNat (v.toNat + if up then 1 else 0)) := by
  have := pow_bdecPrecision_lt
  cases up with
  | false => exact congrArg Except.ok (BDecWide.eq_ofNat (by simp))
  | true => exact decwIncrement_of_lt site (by omega)

theorem decFinishCarry_of_lt (scale : ℤ) (site : Site)
    (h : c < 10 ^ bdecPrecision) :
    decFinishCarry (BDecWide.ofNat c) scale site = .ok (BDecWide.ofNat c, scale) := by
  have hval := BDecWide.toNat_ofNat (lt_trans h pow_bdecPrecision_lt)
  refine if_neg (not_lt.mpr ?_)
  rw [decwDigits_eq, hval]
  exact (numDigits_le_iff (by decide)).mpr h

theorem decFinishCarry_pow (scale : ℤ) (site : Site) :
    decFinishCarry (BDecWide.ofNat (10 ^ bdecPrecision)) scale site =
      if scale = 0 then decOverflow site
      else .ok (BDecWide.ofNat (10 ^ (bdecPrecision - 1)), scale - 1) := by
  have hval := BDecWide.toNat_ofNat pow_bdecPrecision_lt
  have hmod : decwMod10 (BDecWide.ofNat (10 ^ bdecPrecision)) = 0 := by
    rw [← UInt32.toNat_inj, decwMod10_toNat, hval]
    rfl
  unfold decFinishCarry
  rw [if_pos (by
    rw [decwDigits_eq, hval]
    by_contra hcon
    have := (numDigits_le_iff (by decide)).mp (not_lt.mp hcon)
    omega)]
  simp only [hmod, ne_eq, not_true_eq_false, or_false]
  split_ifs
  · rfl
  · refine congrArg (fun w => Except.ok (w, scale - 1)) (BDecWide.eq_ofNat ?_)
    rw [(decwDiv10_spec _).1, hval]
    rfl

/-- The rounding stage: a rounded value of at most 38 digits, or a value whose
38 leading digits reach above the point. -/
theorem decFinishRound_spec {scale : Int} (negative : Bool)
    (site : Site) (hv : 0 < v.toNat) (hscale : 0 ≤ scale) :
    (∃ (c : ℕ) (s : ℤ),
      decFinishRound v scale negative broundHalfEven site =
          .ok (BDecWide.ofNat c, s) ∧
        0 < c ∧ c < 10 ^ bdecPrecision ∧
        workingRat c s = roundSig 10 bdecPrecision (workingRat v.toNat scale) ∧
        0 ≤ s ∧ (s = scale ∨ (s < scale ∧ 10 ^ (bdecPrecision - 1) ≤ c))) ∨
    (decFinishRound v scale negative broundHalfEven site = decOverflow site ∧
      (10 ^ bdecPrecision ≤ workingRat v.toNat scale ∨
        roundSig 10 bdecPrecision (workingRat v.toNat scale) =
          10 ^ bdecPrecision)) := by
  set n := v.toNat with hn
  unfold decFinishRound
  rw [decwDigits_eq, ← hn]
  by_cases hbig : bdecPrecision < numDigits n
  · rw [if_pos hbig]
    set drop := numDigits n - bdecPrecision with hdrop
    have hdigits : numDigits n = bdecPrecision + drop := by omega
    have hnlow : 10 ^ (bdecPrecision - 1 + drop) ≤ n := by
      by_contra hcon
      have := (numDigits_le_iff (by unfold bdecPrecision; omega)).mpr
        (not_le.mp hcon)
      unfold bdecPrecision at *
      omega
    have hnhigh : n < 10 ^ (bdecPrecision + drop) :=
      (numDigits_le_iff (by unfold bdecPrecision; omega)).mp hdigits.le
    by_cases hscaleDrop : scale < drop
    · rw [if_pos hscaleDrop]
      refine Or.inr ⟨rfl, Or.inl ?_⟩
      have hnQ : (10 : ℚ) ^ (bdecPrecision - 1 + drop) ≤ n := by
        exact_mod_cast hnlow
      calc (10 : ℚ) ^ bdecPrecision
          = 10 ^ (bdecPrecision - 1 + drop) * 10 ^ (1 - (drop : ℤ)) := by
            rw [← zpow_natCast, ← zpow_natCast, ← zpow_add₀ (by norm_num)]
            congr 1
            unfold bdecPrecision
            push_cast
            ring
        _ ≤ n * 10 ^ (-scale) := by
            refine mul_le_mul hnQ ?_ (by positivity) (by positivity)
            exact zpow_le_zpow_right₀ (by norm_num) (by omega)
    · rw [if_neg hscaleDrop]
      obtain ⟨up, hup, hround⟩ :=
        decDrop_halfEven negative scale (by omega) hnlow hnhigh
      have hkept := (decDrop_spec v (show 0 < drop by omega)).1
      rw [← hn] at hround hkept
      have hqlow : 10 ^ (bdecPrecision - 1) ≤ n / 10 ^ drop := by
        rw [Nat.le_div_iff_mul_le (by positivity), ← pow_add]
        exact hnlow
      have hqhigh : n / 10 ^ drop < 10 ^ bdecPrecision := by
        refine Nat.div_lt_of_lt_mul ?_
        rw [← pow_add, Nat.add_comm]
        exact hnhigh
      set c := n / 10 ^ drop + if up then 1 else 0 with hc
      have hcle : c ≤ 10 ^ bdecPrecision := by
        rw [hc]
        split_ifs <;> omega
      dsimp only
      rw [hup, ok_bind, decIncrementIf_of_lt up site (by omega), hkept, ← hc, ok_bind]
      have hclow : 10 ^ (bdecPrecision - 1) ≤ c := by omega
      have hcpos : 0 < c := lt_of_lt_of_le (by positivity) hclow
      rcases lt_or_eq_of_le hcle with hclt | hceq
      · rw [decFinishCarry_of_lt _ site hclt]
        exact Or.inl ⟨c, scale - drop, rfl, hcpos, hclt, hround, by omega,
          Or.inr ⟨by omega, hclow⟩⟩
      · rw [hceq] at hround ⊢
        rw [decFinishCarry_pow]
        by_cases hzero : scale - drop = 0
        · rw [if_pos hzero]
          refine Or.inr ⟨rfl, Or.inr ?_⟩
          rw [← hround, hzero]
          simp [workingRat]
        · rw [if_neg hzero]
          refine Or.inl ⟨_, _, rfl, by positivity,
            Nat.pow_lt_pow_right (by omega) (by decide), ?_, by omega,
            Or.inr ⟨by omega, le_rfl⟩⟩
          rw [← hround]
          have := workingRat_mul_pow (10 ^ (bdecPrecision - 1)) 1 (scale - drop - 1)
          rw [← this]
          norm_num [bdecPrecision]
  · rw [if_neg hbig]
    have hlt : n < 10 ^ bdecPrecision :=
      (numDigits_le_iff (by decide)).mp (by omega)
    refine Or.inl ⟨n, scale, by rw [hn, ← BDecWide.eq_ofNat rfl], hv, hlt, ?_,
      hscale, Or.inl rfl⟩
    refine (roundSig_eq_self (m := n) (e := -scale) (by omega) ?_ ?_).symm
    · simp [workingRat]
    · rw [Int.cast_natCast, Nat.abs_cast]
      exact_mod_cast hlt

/-- What `decFinish` answers for the magnitude `n` at `scale`. -/
structure Finished (negative : Bool) (n : ℕ) (scale : ℤ) (d : BDec) : Prop where
  decNegative_eq : decNegative d = negative
  rounded : workingRat (decMag d).toNat d.s =
    roundSig 10 bdecPrecision (workingRat n scale)
  representable : d.Representable
  mag_pos : 0 < (decMag d).toNat
  scale_cases : d.s = scale ∨
    (d.s < scale ∧ 10 ^ (bdecPrecision - 1) ≤ (decMag d).toNat) ∨
    (bdecMaxScale < scale ∧ d.s = bdecMaxScale) ∨ (scale < 0 ∧ d.s = 0)

/-- A decimal magnitude is left alone by the rounding. -/
theorem roundSig_workingRat (hn : n < 10 ^ bdecPrecision) (scale : ℤ) :
    roundSig 10 bdecPrecision (workingRat n scale) = workingRat n scale := by
  refine roundSig_eq_self (m := n) (e := -scale) (by omega) ?_ ?_
  · simp [workingRat]
  · rw [Int.cast_natCast, Nat.abs_cast]
    exact_mod_cast hn

/-- The decimal made of a nonzero coefficient is the finished result. -/
theorem finished_decSet (hpos : 0 < c) (hlt : c < 10 ^ bdecPrecision) (hs0 : 0 ≤ s)
    (hs : s ≤ bdecMaxScale)
    (hround : workingRat c s = roundSig 10 bdecPrecision (workingRat n scale))
    (hscale : s = scale ∨ (s < scale ∧ 10 ^ (bdecPrecision - 1) ≤ c) ∨
      (bdecMaxScale < scale ∧ s = bdecMaxScale) ∨ (scale < 0 ∧ s = 0)) :
    Finished negative n scale (decSet (BU128.ofNat c) negative s) := by
  have hc := BU128.toNat_ofNat (n := c) (lt_trans hlt (by norm_num [bdecPrecision]))
  have hmag := decMag_decSet negative s
    (show (BU128.ofNat c).toNat < 2 ^ 127 by
      rw [hc]
      exact lt_trans hlt (by norm_num [bdecPrecision]))
  rw [hc] at hmag
  refine ⟨?_, by rw [hmag]; exact hround, ⟨?_, hs0, hs⟩, by rw [hmag]; exact hpos,
    by rw [hmag]; exact hscale⟩
  · exact decNegative_decSet negative s (by rw [hc]; exact hpos)
      (by rw [hc]; exact lt_trans hlt (by norm_num [bdecPrecision]))
  · rw [← decMag_toNat, hmag]
    exact_mod_cast hlt

/-- No decimal denotes `x`, whatever its sign. -/
def Unfit (x : ℚ) : Prop := ∀ d : BDec, d.Representable → |d.toRat| ≠ x

theorem unfit_of_le {x : ℚ} (h : 10 ^ bdecPrecision ≤ x) : Unfit x := by
  intro d hd heq
  have := hd.workingRat_lt
  rw [← BDec.abs_toRat, heq] at this
  linarith

theorem unfit_of_roundSig {x : ℚ}
    (h : roundSig 10 bdecPrecision x = 10 ^ bdecPrecision) : Unfit x := by
  intro d hd heq
  have hround := roundSig_workingRat hd.decMag_lt d.s
  rw [← BDec.abs_toRat, heq, h] at hround
  exact unfit_of_le hround.le d hd heq

theorem unfit_of_scale {m : ℕ} (hs : bdecMaxScale < s)
    (hm : m % 10 ≠ 0) : Unfit (workingRat m s) := by
  intro d hd heq
  have hle := hd.scale_le
  rw [BDec.abs_toRat] at heq
  obtain ⟨e, he⟩ : ∃ e : ℕ, s = d.s + (e + 1 : ℕ) :=
    ⟨(s - d.s - 1).toNat, by push_cast; omega⟩
  rw [← workingRat_mul_pow _ (e + 1) d.s, ← he] at heq
  have hnat := workingRat_inj.mp heq
  rw [pow_succ, ← Nat.mul_assoc] at hnat
  omega

/-- Digits are dropped until the value fits, or no scale makes it fit. -/
theorem decFinishSettle_spec (negative : Bool)
    (site : Site) (hv : 0 < v.toNat) (hscale : 0 ≤ scale) :
    (∃ d, decFinishSettle v negative scale broundHalfEven site = .ok d ∧
      Finished negative v.toNat scale d) ∨
    (decFinishSettle v negative scale broundHalfEven site = decOverflow site ∧
      Unfit (workingRat v.toNat scale)) := by
  obtain ⟨k, hsplit, hk, hstop, hend⟩ :=
    decFinishStrip_spec 155 v scale (by omega)
      (lt_of_lt_of_le v.toNat_lt wideLimit_le)
  unfold decFinishSettle
  generalize decFinishStrip 155 v scale = stripped at *
  obtain ⟨w, t⟩ := stripped
  dsimp only at *
  have hw : 0 < w.toNat := by
    rcases Nat.eq_zero_or_pos w.toNat with h | h
    · rw [h, Nat.zero_mul] at hsplit
      omega
    · exact h
  have hsame : workingRat v.toNat scale = workingRat w.toNat t := by
    rw [hsplit, ← workingRat_mul_pow w.toNat k t, hk, sub_add_cancel]
  by_cases hbig : bdecMaxScale < t
  · rw [if_pos hbig, hsame]
    exact Or.inr ⟨rfl, unfit_of_scale hbig (hend.resolve_left (by omega))⟩
  · rw [if_neg hbig, hsame]
    have ht : 0 ≤ t := by
      rcases hstop with rfl | hstop
      · omega
      · have : (0 : ℤ) ≤ bdecMaxScale := by decide
        omega
    rcases decFinishRound_spec negative site hw ht with
      ⟨c, s, hok, hpos, hlt, hround, hs0, hcases⟩ | ⟨hpanic, hwhy⟩
    · rw [hok, ok_bind]
      have hcw := BDecWide.toNat_ofNat (lt_trans hlt pow_bdecPrecision_lt)
      have h128 : c < 2 ^ 128 := lt_trans hlt (by norm_num [bdecPrecision])
      dsimp only
      rw [decwTo128_of_lt site (by rw [hcw]; exact h128), hcw, ok_bind,
        buCmp_eq, BU128.toNat_ofNat h128, decCoeffLimit_toNat]
      rw [if_neg (by split_ifs <;> omega)]
      refine Or.inl ⟨_, rfl, finished_decSet hpos hlt hs0 (by omega) ?_ ?_⟩
      · rw [hround, hsame]
      · rcases hcases with rfl | ⟨hs, hc⟩
        · rcases hstop with rfl | hstop
          · exact Or.inl (by omega)
          · by_cases hkz : k = 0
            · exact Or.inl (by omega)
            · exact Or.inr (Or.inr (Or.inl ⟨by omega, by omega⟩))
        · exact Or.inr (Or.inl ⟨by omega, hc⟩)
    · rw [hpanic]
      exact Or.inr ⟨rfl, hwhy.elim unfit_of_le unfit_of_roundSig⟩

/-- A finished result is the rounded number; a panic means there is none. -/
theorem decFinish_spec (negative : Bool) (scale : ℤ) (site : Site)
    (hn : 0 < n) (hlt : n < wideLimit) :
    (∃ d, decFinish (BDecWide.ofNat n) negative scale broundHalfEven site = .ok d ∧
      Finished negative n scale d) ∨
    (decFinish (BDecWide.ofNat n) negative scale broundHalfEven site =
        decOverflow site ∧ Unfit (workingRat n scale)) := by
  have hval := BDecWide.toNat_ofNat hlt
  unfold decFinish
  rw [if_neg (by rw [decwZero_eq_true_iff, hval]; omega)]
  rcases lt_or_ge scale 0 with hneg | hnonneg
  · obtain ⟨expand, rfl⟩ : ∃ expand : ℕ, scale = -(expand : ℤ) :=
      ⟨(-scale).toNat, by omega⟩
    have hsame : workingRat (n * 10 ^ expand) 0 = workingRat n (-expand) := by
      rw [← workingRat_mul_pow n expand (-expand), neg_add_cancel]
    rw [decFinishExpand_neg site (by rw [hval]; exact hn) (by omega), hval]
    by_cases hfit : n * 10 ^ expand < 10 ^ bdecPrecision
    · have hw := BDecWide.toNat_ofNat (lt_trans hfit pow_bdecPrecision_lt)
      rw [if_pos hfit, ok_bind]
      rcases decFinishSettle_spec negative site
        (v := BDecWide.ofNat (n * 10 ^ expand))
        (by rw [hw]; positivity) le_rfl with ⟨d, hok, hd⟩ | ⟨hpanic, hun⟩
      · refine Or.inl ⟨d, hok, ?_⟩
        rw [hw] at hd
        refine ⟨hd.decNegative_eq, by rw [hd.rounded, hsame], hd.representable,
          hd.mag_pos, Or.inr (Or.inr (Or.inr ⟨hneg, ?_⟩))⟩
        have := hd.representable.scale_nonneg
        rcases hd.scale_cases with h | h | h | h <;> omega
      · rw [hw, hsame] at hun
        exact Or.inr ⟨hpanic, hun⟩
    · rw [if_neg hfit]
      refine Or.inr ⟨rfl, unfit_of_le ?_⟩
      rw [← hsame]
      simp only [workingRat, neg_zero, zpow_zero, mul_one]
      exact_mod_cast not_lt.mp hfit
  · rw [decFinishExpand_of_nonneg site hnonneg, ok_bind]
    have := decFinishSettle_spec negative site (v := BDecWide.ofNat n)
      (by rw [hval]; exact hn) hnonneg
    rwa [hval] at this

/-- A coefficient of at most 38 digits keeps an allowed scale. -/
theorem Finished.scale_eq {d : BDec}
    (h : Finished negative n scale d) (hn : n < 10 ^ bdecPrecision)
    (h0 : 0 ≤ scale) (hmax : scale ≤ bdecMaxScale) :
    d.s = scale ∧ (decMag d).toNat = n := by
  have hvalue := h.rounded
  rw [roundSig_workingRat hn] at hvalue
  have hs : d.s = scale := by
    rcases h.scale_cases with h | ⟨hlt, hmag⟩ | h | h
    · exact h
    · obtain ⟨e, he⟩ : ∃ e : ℕ, scale = d.s + (e + 1 : ℕ) :=
        ⟨(scale - d.s - 1).toNat, by push_cast; omega⟩
      rw [he, ← workingRat_mul_pow _ (e + 1) d.s, workingRat_inj] at hvalue
      have hge : 10 ^ (bdecPrecision - 1) * 10 ≤
          (decMag d).toNat * 10 ^ (e + 1) :=
        Nat.mul_le_mul hmag (Nat.le_self_pow (by omega) 10)
      rw [hvalue] at hge
      exact absurd hn (not_lt.mpr hge)
    · omega
    · omega
  rw [hs, workingRat_inj] at hvalue
  exact ⟨hs, hvalue⟩

/-- A zero keeps its scale as far as the scale is allowed. -/
theorem decFinish_zero (negative : Bool) (scale mode : ℤ)
    (site : Site) (hv : v.toNat = 0) :
    decFinish v negative scale mode site =
      if bdecMaxScale < scale then decOverflow site
      else .ok (decSet ⟨0, 0⟩ false (max scale 0)) := by
  have hmax : (if scale < 0 then 0 else scale) = max scale 0 := by
    split_ifs <;> omega
  have hpos : (0 : ℤ) ≤ bdecMaxScale := by decide
  unfold decFinish
  rw [if_pos ((decwZero_eq_true_iff v).mpr hv)]
  dsimp only
  rw [hmax]
  by_cases h : bdecMaxScale < scale
  · rw [if_pos (by omega), if_pos h]
  · rw [if_neg (by omega), if_neg h]

end Decimal
end Beans
