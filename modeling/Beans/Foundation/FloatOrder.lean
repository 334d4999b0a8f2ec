import Mathlib

/-!
# The total order of floating-point data

The binary interchange formats of IEEE 754, the number a datum denotes and the
order `totalOrder` of its data, clause by clause.  A datum is a sign and a
magnitude, which holds the exponent above the fraction.  The order is the order
of the integers: the magnitude of a positive datum, and one less than the
negated magnitude of a negative one.
-/

namespace Beans
namespace FloatOrder

/-- The widths of the exponent and of the fraction. -/
structure Format where
  exponentBits : ℕ
  fractionBits : ℕ
  exponentBits_pos : 0 < exponentBits
  fractionBits_pos : 0 < fractionBits

/-- The sign, and the exponent and the fraction as one number. -/
@[ext] structure Datum (format : Format) where
  negative : Bool
  magnitude : ℕ
  lt : magnitude < 2 ^ (format.exponentBits + format.fractionBits)

variable {format : Format}

namespace Datum

def exponent (x : Datum format) : ℕ :=
  x.magnitude / 2 ^ format.fractionBits

def fraction (x : Datum format) : ℕ :=
  x.magnitude % 2 ^ format.fractionBits

def IsNan (x : Datum format) : Prop :=
  x.exponent = 2 ^ format.exponentBits - 1 ∧ x.fraction ≠ 0

instance (x : Datum format) : Decidable x.IsNan :=
  inferInstanceAs (Decidable (_ ∧ _))

/-- One for a quiet nan, zero for a signaling one. -/
def quietBit (x : Datum format) : ℕ :=
  x.fraction / 2 ^ (format.fractionBits - 1)

def payload (x : Datum format) : ℕ :=
  x.fraction % 2 ^ (format.fractionBits - 1)

/-- The fraction, with the leading bit of a normal number. -/
def significand (x : Datum format) : ℕ :=
  if x.exponent = 0 then x.fraction else 2 ^ format.fractionBits + x.fraction

/-- What the exponent of a number scales its significand by. -/
def scale (x : Datum format) : ℤ :=
  max x.exponent 1 - (2 ^ (format.exponentBits - 1) - 1) - format.fractionBits

/-- The number of a datum with less than the greatest exponent. -/
def finite (x : Datum format) : ℚ :=
  (if x.negative then -1 else 1) * x.significand * 2 ^ x.scale

/-- The number that a datum denotes when it is not a nan. -/
def value (x : Datum format) : WithBot (WithTop ℚ) :=
  if x.exponent = 2 ^ format.exponentBits - 1 then
    if x.negative then ⊥ else ((⊤ : WithTop ℚ) : WithBot (WithTop ℚ))
  else ((x.finite : WithTop ℚ) : WithBot (WithTop ℚ))

/-- One datum is before another in `totalOrder`: by their values, then the negative
zero before the positive one; nans are outside the numbers, on the side of their sign,
and there the quiet ones further than the signaling ones, then the ones with greater
payloads. -/
inductive Precedes (x y : Datum format) : Prop
  | value : ¬ x.IsNan → ¬ y.IsNan → x.value < y.value → Precedes x y
  | zeros : ¬ x.IsNan → ¬ y.IsNan → x.value = y.value →
      x.negative = true → y.negative = false → Precedes x y
  | fromNan : x.IsNan → ¬ y.IsNan → x.negative = true → Precedes x y
  | toNan : ¬ x.IsNan → y.IsNan → y.negative = false → Precedes x y
  | signs : x.IsNan → y.IsNan → x.negative = true → y.negative = false → Precedes x y
  | signaling : x.IsNan → y.IsNan → x.negative = false → y.negative = false →
      x.quietBit < y.quietBit → Precedes x y
  | payload : x.IsNan → y.IsNan → x.negative = false → y.negative = false →
      x.quietBit = y.quietBit → x.payload < y.payload → Precedes x y
  | quiet : x.IsNan → y.IsNan → x.negative = true → y.negative = true →
      y.quietBit < x.quietBit → Precedes x y
  | payloadBelow : x.IsNan → y.IsNan → x.negative = true → y.negative = true →
      x.quietBit = y.quietBit → y.payload < x.payload → Precedes x y

/-- The place of a datum in the order. -/
def rank (x : Datum format) : ℤ :=
  if x.negative then -x.magnitude - 1 else x.magnitude

/-- The magnitude with its sign. -/
def line (x : Datum format) : ℤ :=
  if x.negative then -x.magnitude else x.magnitude

theorem rank_injective : Function.Injective (@rank format) := by
  intro x y h
  obtain ⟨negative, magnitude, hlt⟩ := x
  obtain ⟨negative', magnitude', hlt'⟩ := y
  unfold rank at h
  cases negative with
  | false =>
    cases negative' with
    | false =>
      simp only [Bool.false_eq_true, if_false, Nat.cast_inj] at h
      subst h
      rfl
    | true =>
      simp only [Bool.false_eq_true, if_false, if_true] at h
      omega
  | true =>
    cases negative' with
    | false =>
      simp only [Bool.false_eq_true, if_false, if_true] at h
      omega
    | true =>
      simp only [if_true] at h
      have hsame : magnitude = magnitude' := by omega
      subst hsame
      rfl

end Datum

/-- The number of a magnitude in units of the least one. -/
def scaled (width magnitude : ℕ) : ℕ :=
  if magnitude / 2 ^ width = 0 then magnitude % 2 ^ width
  else (2 ^ width + magnitude % 2 ^ width) * 2 ^ (magnitude / 2 ^ width - 1)

theorem scaled_eq {width exponent fraction : ℕ} (h : fraction < 2 ^ width) :
    scaled width (exponent * 2 ^ width + fraction) =
      if exponent = 0 then fraction else (2 ^ width + fraction) * 2 ^ (exponent - 1) := by
  have hdiv : (exponent * 2 ^ width + fraction) / 2 ^ width = exponent := by
    rw [Nat.add_comm, Nat.add_mul_div_right _ _ (by positivity), Nat.div_eq_of_lt h, Nat.zero_add]
  have hmod : (exponent * 2 ^ width + fraction) % 2 ^ width = fraction := by
    rw [Nat.add_comm, Nat.add_mul_mod_self_right, Nat.mod_eq_of_lt h]
  rw [scaled, hdiv, hmod]

theorem scaled_lt_succ (width magnitude : ℕ) :
    scaled width magnitude < scaled width (magnitude + 1) := by
  obtain ⟨exponent, fraction, hlt, rfl⟩ : ∃ exponent fraction, fraction < 2 ^ width ∧
      magnitude = exponent * 2 ^ width + fraction :=
    ⟨magnitude / 2 ^ width, magnitude % 2 ^ width, Nat.mod_lt _ (by positivity),
      (Nat.div_add_mod' _ _).symm⟩
  rw [scaled_eq hlt]
  rcases Nat.lt_or_ge (fraction + 1) (2 ^ width) with hnext | hlast
  · rw [Nat.add_assoc, scaled_eq hnext]
    split_ifs with hzero
    · omega
    · exact Nat.mul_lt_mul_of_pos_right (by omega) (by positivity)
  · -- the next exponent
    have hcarry : exponent * 2 ^ width + fraction + 1 = (exponent + 1) * 2 ^ width + 0 := by
      rw [Nat.add_mul]
      omega
    rw [hcarry, scaled_eq (by positivity), if_neg (Nat.succ_ne_zero _), Nat.add_sub_cancel,
      Nat.add_zero]
    split_ifs with hzero
    · rw [hzero, pow_zero, Nat.mul_one]
      exact hlt
    · obtain ⟨below, rfl⟩ := Nat.exists_eq_succ_of_ne_zero hzero
      rw [Nat.succ_sub_one, pow_succ, Nat.mul_comm (2 ^ below) 2, ← Nat.mul_assoc]
      exact Nat.mul_lt_mul_of_pos_right (by omega) (by positivity)

/-- The number of a signed magnitude in units of the least one. -/
def signedScaled (width : ℕ) (line : ℤ) : ℤ :=
  line.sign * scaled width line.natAbs

theorem signedScaled_strictMono (width : ℕ) :
    StrictMono (signedScaled width) := by
  have hzero : scaled width 0 = 0 := by
    rw [scaled, Nat.zero_div, if_pos rfl, Nat.zero_mod]
  have hpositive : ∀ n : ℕ, signedScaled width n = scaled width n := by
    intro n
    cases n with
    | zero => rw [signedScaled, Nat.cast_zero, Int.natAbs_zero, hzero]; rfl
    | succ n => rw [signedScaled, Int.natAbs_natCast, Int.sign_eq_one_of_pos (by omega), one_mul]
  have hnegative : ∀ n : ℕ, signedScaled width (-n) = -scaled width n := by
    intro n
    cases n with
    | zero => rw [Nat.cast_zero, neg_zero, signedScaled, Int.natAbs_zero, hzero]; rfl
    | succ n =>
      rw [signedScaled, Int.natAbs_neg, Int.natAbs_natCast, Int.sign_eq_neg_one_of_neg (by omega),
        neg_one_mul]
  refine strictMono_int_of_lt_succ fun line => ?_
  cases line with
  | ofNat n =>
    have hstep := scaled_lt_succ width n
    have hnext := hpositive (n + 1)
    rw [Nat.cast_succ] at hnext
    rw [Int.ofNat_eq_natCast, hpositive, hnext]
    exact_mod_cast hstep
  | negSucc n =>
    have hstep := scaled_lt_succ width n
    have hhere := hnegative (n + 1)
    have hnext := hnegative n
    rw [Int.negSucc_eq, show -((n : ℤ) + 1) + 1 = -n by omega, hnext]
    rw [Nat.cast_succ] at hhere
    rw [hhere]
    omega

namespace Datum

theorem magnitude_eq (x : Datum format) :
    x.exponent * 2 ^ format.fractionBits + x.fraction = x.magnitude :=
  Nat.div_add_mod' _ _

theorem fraction_lt (x : Datum format) :
    x.fraction < 2 ^ format.fractionBits :=
  Nat.mod_lt _ (by positivity)

theorem exponent_lt (x : Datum format) :
    x.exponent < 2 ^ format.exponentBits := by
  refine Nat.div_lt_of_lt_mul ?_
  rw [← pow_add, Nat.add_comm]
  exact x.lt

/-- The magnitude of the infinities. -/
def infinity (format : Format) : ℕ :=
  (2 ^ format.exponentBits - 1) * 2 ^ format.fractionBits

theorem exponent_eq_iff (x : Datum format) :
    x.exponent = 2 ^ format.exponentBits - 1 ↔ infinity format ≤ x.magnitude := by
  have hlt := x.exponent_lt
  rw [infinity, ← Nat.le_div_iff_mul_le (by positivity)]
  change _ ↔ _ ≤ x.exponent
  omega

theorem isNan_iff (x : Datum format) :
    x.IsNan ↔ infinity format < x.magnitude := by
  have hmagnitude := x.magnitude_eq
  constructor
  · rintro ⟨hexponent, hfraction⟩
    rw [← hmagnitude, hexponent, infinity]
    omega
  · intro hlt
    have hexponent := x.exponent_eq_iff.mpr hlt.le
    refine ⟨hexponent, fun hzero => ?_⟩
    rw [hexponent, hzero, Nat.add_zero] at hmagnitude
    rw [infinity, hmagnitude] at hlt
    exact lt_irrefl _ hlt

/-- What the numbers of a format are multiples of. -/
def unit (format : Format) : ℚ :=
  2 ^ ((1 : ℤ) - (2 ^ (format.exponentBits - 1) - 1) - format.fractionBits)

theorem unit_pos (format : Format) :
    0 < unit format := by
  unfold unit
  positivity

theorem significand_scale (x : Datum format) :
    (x.significand : ℚ) * 2 ^ x.scale =
      scaled format.fractionBits x.magnitude * unit format := by
  rw [← x.magnitude_eq, scaled_eq x.fraction_lt, significand, scale, unit]
  split_ifs with hzero
  · rw [hzero]
    norm_num
  · have hone : 1 ≤ x.exponent := Nat.one_le_iff_ne_zero.mpr hzero
    have hmax : max x.exponent 1 = x.exponent - 1 + 1 := by omega
    rw [hmax]
    push_cast
    rw [mul_assoc]
    congr 1
    rw [← zpow_natCast (2 : ℚ) (x.exponent - 1), ← zpow_add₀ two_ne_zero]
    congr 1
    ring

theorem finite_eq (x : Datum format) :
    x.finite = signedScaled format.fractionBits x.line * unit format := by
  have hscale := x.significand_scale
  have hsigned : (signedScaled format.fractionBits x.line : ℚ) =
      (if x.negative then -1 else 1) * scaled format.fractionBits x.magnitude := by
    rcases Nat.eq_zero_or_pos x.magnitude with hzero | hpos
    · have hnone : scaled format.fractionBits 0 = 0 := by
        rw [scaled, Nat.zero_div, if_pos rfl, Nat.zero_mod]
      rw [line, hzero, hnone]
      split_ifs
      all_goals simp [signedScaled]
    · rw [line, signedScaled]
      split_ifs
      · rw [Int.natAbs_neg, Int.natAbs_natCast, Int.sign_eq_neg_one_of_neg (by omega)]
        push_cast
        rfl
      · rw [Int.natAbs_natCast, Int.sign_eq_one_of_pos (by omega)]
        push_cast
        rfl
  rw [finite, mul_assoc, hscale, hsigned, mul_assoc]

variable {x y : Datum format}

/-- The value of what is not a nan, by where its line is. -/
theorem value_cases (h : ¬ x.IsNan) :
    x.line = -infinity format ∧ x.negative = true ∧ x.value = ⊥ ∨
      x.line = infinity format ∧ x.negative = false ∧
        x.value = ((⊤ : WithTop ℚ) : WithBot (WithTop ℚ)) ∨
      (-(infinity format : ℤ) < x.line ∧ x.line < infinity format) ∧
        x.value = ((x.finite : WithTop ℚ) : WithBot (WithTop ℚ)) := by
  rw [x.isNan_iff, not_lt] at h
  by_cases htop : x.exponent = 2 ^ format.exponentBits - 1
  · have hsame : x.magnitude = infinity format :=
      le_antisymm h (x.exponent_eq_iff.mp htop)
    rw [line, value, if_pos htop, hsame]
    cases x.negative with
    | true => exact .inl ⟨rfl, rfl, rfl⟩
    | false => exact .inr (.inl ⟨rfl, rfl, rfl⟩)
  · have hlt : x.magnitude < infinity format := by
      rw [x.exponent_eq_iff, not_le] at htop
      exact htop
    refine .inr (.inr ⟨?_, by rw [value, if_neg htop]⟩)
    rw [line]
    split_ifs
    · omega
    · omega

theorem infinity_pos (format : Format) :
    0 < infinity format := by
  have hone := Nat.one_lt_two_pow format.exponentBits_pos.ne'
  exact Nat.mul_pos (by omega) (by positivity)

/-- The numbers are ordered as their lines are. -/
theorem value_lt_iff (hx : ¬ x.IsNan) (hy : ¬ y.IsNan) :
    x.value < y.value ↔ x.line < y.line := by
  have hpos := infinity_pos format
  rcases value_cases hx with ⟨hline, -, hvalue⟩ | ⟨hline, -, hvalue⟩ | ⟨hline, hvalue⟩
  · rcases value_cases hy with ⟨hline', -, hvalue'⟩ | ⟨hline', -, hvalue'⟩ | ⟨hline', hvalue'⟩
    · rw [hvalue, hvalue', hline, hline']
      exact iff_of_false (lt_irrefl _) (lt_irrefl _)
    · rw [hvalue, hvalue', hline, hline']
      exact iff_of_true (WithBot.bot_lt_coe _) (by omega)
    · rw [hvalue, hvalue', hline]
      exact iff_of_true (WithBot.bot_lt_coe _) hline'.1
  · rcases value_cases hy with ⟨hline', -, hvalue'⟩ | ⟨hline', -, hvalue'⟩ | ⟨hline', hvalue'⟩
    · rw [hvalue, hvalue', hline, hline']
      exact iff_of_false not_lt_bot (by omega)
    · rw [hvalue, hvalue', hline, hline']
      exact iff_of_false (lt_irrefl _) (lt_irrefl _)
    · rw [hvalue, hvalue', hline, WithBot.coe_lt_coe]
      exact iff_of_false not_top_lt (by omega)
  · rcases value_cases hy with ⟨hline', -, hvalue'⟩ | ⟨hline', -, hvalue'⟩ | ⟨hline', hvalue'⟩
    · rw [hvalue, hvalue', hline']
      exact iff_of_false not_lt_bot (by omega)
    · rw [hvalue, hvalue', hline', WithBot.coe_lt_coe]
      exact iff_of_true (WithTop.coe_lt_top _) hline.2
    · rw [hvalue, hvalue', WithBot.coe_lt_coe, WithTop.coe_lt_coe, finite_eq, finite_eq,
        mul_lt_mul_iff_left₀ (unit_pos format), Int.cast_lt,
        (signedScaled_strictMono format.fractionBits).lt_iff_lt]

theorem value_eq_iff {x y : Datum format} (hx : ¬ x.IsNan) (hy : ¬ y.IsNan) :
    x.value = y.value ↔ x.line = y.line := by
  rw [le_antisymm_iff, ← not_lt, ← not_lt, value_lt_iff hx hy, value_lt_iff hy hx, not_lt, not_lt,
    ← le_antisymm_iff]

theorem magnitude_lt_iff (hx : x.IsNan) (hy : y.IsNan) :
    x.magnitude < y.magnitude ↔
      x.quietBit < y.quietBit ∨ x.quietBit = y.quietBit ∧ x.payload < y.payload := by
  rw [← x.magnitude_eq, ← y.magnitude_eq, hx.1, hy.1, Nat.add_lt_add_iff_left]
  have hx' := Nat.div_add_mod' x.fraction (2 ^ (format.fractionBits - 1))
  have hy' := Nat.div_add_mod' y.fraction (2 ^ (format.fractionBits - 1))
  change x.quietBit * _ + x.payload = _ at hx'
  change y.quietBit * _ + y.payload = _ at hy'
  rcases lt_trichotomy x.quietBit y.quietBit with hlt | heq | hgt
  · exact iff_of_true (Nat.lt_of_div_lt_div hlt) (.inl hlt)
  · rw [heq] at hx'
    omega
  · have hfraction : y.fraction < x.fraction := Nat.lt_of_div_lt_div hgt
    omega

/-- The order of the standard is the order of the ranks. -/
theorem precedes_iff
    :
    x.Precedes y ↔ x.rank < y.rank := by
  constructor
  · intro h
    cases h with
    | value hx hy hlt =>
      rw [value_lt_iff hx hy, line, line] at hlt
      rw [rank, rank]
      split_ifs at hlt ⊢
      all_goals omega
    | zeros hx hy heq hnegative hpositive =>
      rw [value_eq_iff hx hy, line, line, hnegative, hpositive] at heq
      rw [rank, rank, hnegative, hpositive]
      simp only [if_true, Bool.false_eq_true, if_false] at heq ⊢
      omega
    | fromNan hx hy hnegative =>
      rw [isNan_iff] at hx hy
      rw [rank, rank, if_pos hnegative]
      split_ifs
      all_goals omega
    | toNan hx hy hpositive =>
      rw [isNan_iff] at hx hy
      rw [rank, rank, hpositive]
      simp only [Bool.false_eq_true, if_false]
      split_ifs
      all_goals omega
    | signs hx hy hnegative hpositive =>
      rw [rank, rank, hnegative, hpositive]
      simp only [if_true, Bool.false_eq_true, if_false]
      omega
    | signaling hx hy hpositive hpositive' hquiet =>
      have hlt := (magnitude_lt_iff hx hy).mpr (.inl hquiet)
      rw [rank, rank, hpositive, hpositive']
      simp only [Bool.false_eq_true, if_false]
      omega
    | payload hx hy hpositive hpositive' hquiet hpayload =>
      have hlt := (magnitude_lt_iff hx hy).mpr (.inr ⟨hquiet, hpayload⟩)
      rw [rank, rank, hpositive, hpositive']
      simp only [Bool.false_eq_true, if_false]
      omega
    | quiet hx hy hnegative hnegative' hquiet =>
      have hlt := (magnitude_lt_iff hy hx).mpr (.inl hquiet)
      rw [rank, rank, if_pos hnegative, if_pos hnegative']
      omega
    | payloadBelow hx hy hnegative hnegative' hquiet hpayload =>
      have hlt := (magnitude_lt_iff hy hx).mpr (.inr ⟨hquiet.symm, hpayload⟩)
      rw [rank, rank, if_pos hnegative, if_pos hnegative']
      omega
  · intro h
    by_cases hx : x.IsNan
    · by_cases hy : y.IsNan
      · cases hsign : x.negative with
        | false =>
          cases hsign' : y.negative with
          | false =>
            rw [rank, rank, hsign, hsign'] at h
            simp only [Bool.false_eq_true, if_false, Nat.cast_lt] at h
            rcases (magnitude_lt_iff hx hy).mp h with hquiet | ⟨hquiet, hpayload⟩
            · exact .signaling hx hy hsign hsign' hquiet
            · exact .payload hx hy hsign hsign' hquiet hpayload
          | true =>
            rw [rank, rank, hsign, hsign'] at h
            simp only [if_true, Bool.false_eq_true, if_false] at h
            omega
        | true =>
          cases hsign' : y.negative with
          | false => exact .signs hx hy hsign hsign'
          | true =>
            rw [rank, rank, if_pos hsign, if_pos hsign'] at h
            rcases (magnitude_lt_iff hy hx).mp (by omega) with hquiet | ⟨hquiet, hpayload⟩
            · exact .quiet hx hy hsign hsign' hquiet
            · exact .payloadBelow hx hy hsign hsign' hquiet.symm hpayload
      · refine .fromNan hx hy ?_
        by_contra hpositive
        rw [isNan_iff] at hx hy
        rw [rank, rank, if_neg hpositive] at h
        split_ifs at h
        all_goals omega
    · by_cases hy : y.IsNan
      · refine .toNan hx hy ?_
        by_contra hnegative
        rw [Bool.not_eq_false] at hnegative
        rw [isNan_iff] at hx hy
        rw [rank, rank, if_pos hnegative] at h
        split_ifs at h
        all_goals omega
      · rcases lt_trichotomy x.line y.line with hlt | heq | hgt
        · exact .value hx hy ((value_lt_iff hx hy).mpr hlt)
        · -- the lines agree, so only the signs of zeros are apart
          have hsigns : x.negative = true ∧ y.negative = false := by
            rw [line, line] at heq
            rw [rank, rank] at h
            cases hsign : x.negative
            all_goals cases hsign' : y.negative
            all_goals simp only [hsign, hsign', if_true, Bool.false_eq_true, if_false] at h heq
            all_goals first | exact ⟨rfl, rfl⟩ | omega
          exact .zeros hx hy ((value_eq_iff hx hy).mpr heq) hsigns.1 hsigns.2
        · rw [line, line] at hgt
          rw [rank, rank] at h
          split_ifs at h hgt
          all_goals omega

/-- The order of the standard is a strict total order. -/
instance : IsStrictTotalOrder (Datum format) Precedes where
  irrefl x h := lt_irrefl _ (precedes_iff.mp h)
  trans _ _ _ h h' := precedes_iff.mpr ((precedes_iff.mp h).trans (precedes_iff.mp h'))
  trichotomous x y h h' := by
    rw [precedes_iff, not_lt] at h h'
    exact rank_injective (le_antisymm h' h)

end Datum

end FloatOrder
end Beans
