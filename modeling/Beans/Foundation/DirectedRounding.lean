import Beans.Foundation.HalfEven

/-!
# Rounding to an integer in five directions

The reference meaning of the five usual rounding modes on an ordered field, and
the form in which an implementation computes them.  An implementation divides a
magnitude by a power of its base and keeps the sign apart; the quotient, the
remainder and the sign decide whether the quotient goes up.
-/

namespace Beans

inductive RoundingMode where
  | halfEven
  | halfAway
  | towardZero
  | floor
  | ceil
deriving DecidableEq, Repr

namespace RoundingMode

variable {K : Type*} [Field K] [LinearOrder K] [IsStrictOrderedRing K]
  [FloorRing K]

/-- The integer the mode selects for `x`. -/
def pick : RoundingMode → K → ℤ
  | halfEven, x => HalfEven.halfEven x
  | halfAway, x => if 0 ≤ x then round x else -round (-x)
  | towardZero, x => if 0 ≤ x then ⌊x⌋ else ⌈x⌉
  | floor, x => ⌊x⌋
  | ceil, x => ⌈x⌉

/-- Whether a quotient with remainder `r` of a division by `p` goes up. -/
def up (mode : RoundingMode) (negative : Bool) (q r p : ℕ) : Bool :=
  match mode with
  | halfEven => p < 2 * r || (2 * r = p && q % 2 != 0)
  | halfAway => p ≤ 2 * r
  | towardZero => false
  | floor => negative && r != 0
  | ceil => !negative && r != 0

/-- The rounded magnitude of `n / p` under a sign. -/
def magnitude (mode : RoundingMode) (negative : Bool) (n p : ℕ) : ℕ :=
  n / p + if mode.up negative (n / p) (n % p) p then 1 else 0

theorem pick_intCast (mode : RoundingMode) (z : ℤ) : mode.pick (z : K) = z := by
  cases mode with
  | halfEven => exact HalfEven.halfEven_intCast z
  | halfAway => rw [pick, ← Int.cast_neg, round_intCast, round_intCast, neg_neg, ite_self]
  | towardZero => rw [pick, Int.floor_intCast, Int.ceil_intCast, ite_self]
  | floor => exact Int.floor_intCast z
  | ceil => exact Int.ceil_intCast z

section Division

variable {n p : ℕ}

omit [IsStrictOrderedRing K] in
/-- A fraction is its quotient and what the remainder is of the divisor. -/
theorem div_eq_quotient_add (hp : 0 < p) :
    (n : K) / p = ((n / p : ℕ) : K) + ((n % p : ℕ) : K) / p := by
  have hpK : (p : K) ≠ 0 := by exact_mod_cast hp.ne'
  have h : (p : K) * ((n / p : ℕ) : K) + ((n % p : ℕ) : K) = n := by
    exact_mod_cast Nat.div_add_mod n p
  rw [← h]
  field_simp

/-- The part of the divisor that the remainder is lies in `[0, 1)`. -/
theorem remainder_bounds (hp : 0 < p) :
    (0 : K) ≤ ((n % p : ℕ) : K) / p ∧ ((n % p : ℕ) : K) / p < 1 := by
  have hpK : (0 : K) < p := by exact_mod_cast hp
  have hlt : ((n % p : ℕ) : K) < p := by exact_mod_cast Nat.mod_lt n hp
  exact ⟨div_nonneg (Nat.cast_nonneg _) hpK.le, (div_lt_one hpK).mpr hlt⟩

theorem remainder_lt_half_iff (hp : 0 < p) :
    ((n % p : ℕ) : K) / p < 1 / 2 ↔ 2 * (n % p) < p := by
  have hpK : (0 : K) < p := by exact_mod_cast hp
  rw [div_lt_iff₀ hpK, ← Nat.cast_lt (α := K)]
  push_cast
  constructor <;> intro h <;> linarith

theorem half_lt_remainder_iff (hp : 0 < p) :
    1 / 2 < ((n % p : ℕ) : K) / p ↔ p < 2 * (n % p) := by
  have hpK : (0 : K) < p := by exact_mod_cast hp
  rw [lt_div_iff₀ hpK, ← Nat.cast_lt (α := K)]
  push_cast
  constructor <;> intro h <;> linarith

omit [IsStrictOrderedRing K] in
theorem remainder_eq_zero_iff (hp : 0 < p) :
    ((n % p : ℕ) : K) / p = 0 ↔ n % p = 0 := by
  have hpK : (p : K) ≠ 0 := by exact_mod_cast hp.ne'
  rw [div_eq_zero_iff, or_iff_left hpK, Nat.cast_eq_zero]

theorem floor_div (hp : 0 < p) : ⌊(n : K) / p⌋ = ((n / p : ℕ) : ℤ) := by
  obtain ⟨h0, h1⟩ := remainder_bounds (K := K) (n := n) hp
  rw [div_eq_quotient_add hp, Int.floor_eq_iff, Int.cast_natCast]
  constructor <;> linarith

theorem ceil_div (hp : 0 < p) :
    ⌈(n : K) / p⌉ = ((n / p + if n % p ≠ 0 then 1 else 0 : ℕ) : ℤ) := by
  obtain ⟨h0, h1⟩ := remainder_bounds (K := K) (n := n) hp
  have hzero := remainder_eq_zero_iff (K := K) (n := n) hp
  rw [div_eq_quotient_add hp, Int.ceil_eq_iff]
  by_cases hr : n % p = 0
  · rw [if_neg (not_not.mpr hr), hzero.mpr hr, Nat.add_zero, Int.cast_natCast]
    constructor <;> linarith
  · have hpos : (0 : K) < ((n % p : ℕ) : K) / p :=
      lt_of_le_of_ne h0 (Ne.symm (mt hzero.mp hr))
    rw [if_pos hr, Int.cast_natCast, Nat.cast_add, Nat.cast_one]
    constructor <;> linarith

theorem halfEven_div (hp : 0 < p) :
    HalfEven.halfEven ((n : K) / p) = (halfEven.magnitude false n p : ℕ) := by
  have hfrac : (n : K) / p - ((n / p : ℕ) : K) = ((n % p : ℕ) : K) / p := by
    rw [div_eq_quotient_add hp, add_sub_cancel_left]
  have hlt := remainder_lt_half_iff (K := K) (n := n) hp
  have hgt := half_lt_remainder_iff (K := K) (n := n) hp
  have heven : Even ((n / p : ℕ) : ℤ) ↔ n / p % 2 = 0 := by
    rw [Int.even_coe_nat, Nat.even_iff]
  unfold HalfEven.halfEven magnitude up
  rw [floor_div hp, Int.cast_natCast, hfrac]
  simp only [hlt, hgt, heven, Bool.or_eq_true, Bool.and_eq_true,
    decide_eq_true_iff, bne_iff_ne]
  rcases lt_trichotomy (2 * (n % p)) p with h | h | h
  · rw [if_pos h, if_neg (by omega), add_zero]
  · rw [if_neg (by omega), if_neg (by omega)]
    by_cases hodd : n / p % 2 = 0
    · rw [if_pos hodd, if_neg (by omega), add_zero]
    · rw [if_neg hodd, if_pos (Or.inr ⟨h, hodd⟩)]
      push_cast
      rfl
  · rw [if_neg (by omega), if_pos h, if_pos (Or.inl h)]
    push_cast
    rfl

theorem halfAway_div (hp : 0 < p) :
    ⌊(n : K) / p + 1 / 2⌋ = (halfAway.magnitude false n p : ℕ) := by
  obtain ⟨h0, h1⟩ := remainder_bounds (K := K) (n := n) hp
  have hlt := remainder_lt_half_iff (K := K) (n := n) hp
  unfold magnitude up
  rw [div_eq_quotient_add hp, Int.floor_eq_iff]
  simp only [decide_eq_true_iff]
  by_cases h : 2 * (n % p) < p
  · have := hlt.mpr h
    rw [if_neg (not_le.mpr h), Nat.add_zero, Int.cast_natCast]
    constructor <;> linarith
  · have := not_lt.mp (mt hlt.mp h)
    rw [if_pos (not_lt.mp h), Int.cast_natCast, Nat.cast_add, Nat.cast_one]
    constructor <;> linarith

/-- The mode's choice for a nonnegative fraction. -/
theorem pick_div (mode : RoundingMode) (hp : 0 < p) :
    mode.pick ((n : K) / p) = (mode.magnitude false n p : ℕ) := by
  have hnonneg : (0 : K) ≤ (n : K) / p :=
    div_nonneg (Nat.cast_nonneg _) (Nat.cast_nonneg _)
  cases mode with
  | halfEven => exact halfEven_div hp
  | halfAway => rw [pick, if_pos hnonneg, round_eq, halfAway_div hp]
  | towardZero =>
    rw [pick, if_pos hnonneg, floor_div hp]
    rfl
  | floor =>
    rw [pick, floor_div hp]
    simp [magnitude, up]
  | ceil =>
    rw [pick, ceil_div hp]
    simp [magnitude, up]

/-- The mode's choice for a nonpositive fraction. -/
theorem pick_neg_div (mode : RoundingMode) (hp : 0 < p) :
    mode.pick (-((n : K) / p)) = -((mode.magnitude true n p : ℕ) : ℤ) := by
  have hnonneg : (0 : K) ≤ (n : K) / p :=
    div_nonneg (Nat.cast_nonneg _) (Nat.cast_nonneg _)
  by_cases hzero : (n : K) / p = 0
  · have hpK : (p : K) ≠ 0 := by exact_mod_cast hp.ne'
    have hn : n = 0 := by
      rw [div_eq_zero_iff, or_iff_left hpK, Nat.cast_eq_zero] at hzero
      exact hzero
    have hpick := pick_intCast (K := K) mode 0
    rw [Int.cast_zero] at hpick
    rw [hzero, neg_zero, hpick, hn]
    cases mode <;> simp [magnitude, up, hp.ne, hp.ne']
  · have hneg : ¬ (0 : K) ≤ -((n : K) / p) := by
      rw [Left.nonneg_neg_iff]
      exact not_le.mpr (lt_of_le_of_ne hnonneg (Ne.symm hzero))
    cases mode with
    | halfEven => rw [pick, HalfEven.halfEven_neg, halfEven_div hp]; rfl
    | halfAway =>
      rw [pick, if_neg hneg, neg_neg, round_eq, halfAway_div hp]
      rfl
    | towardZero =>
      rw [pick, if_neg hneg, Int.ceil_neg, floor_div hp]
      rfl
    | floor =>
      rw [pick, Int.floor_neg, ceil_div hp]
      simp [magnitude, up]
    | ceil =>
      rw [pick, Int.ceil_neg, floor_div hp]
      simp [magnitude, up]

/-- A magnitude below a power rounds to no more than the power's quotient. -/
theorem magnitude_le (mode : RoundingMode) (negative : Bool) {k : ℕ}
    (h : n < p * k) : mode.magnitude negative n p ≤ k := by
  have hq : n / p < k := Nat.div_lt_of_lt_mul h
  unfold magnitude
  split_ifs <;> omega

/-- Below half the divisor only the directed modes leave zero. -/
theorem magnitude_of_small (mode : RoundingMode) (negative : Bool)
    (h : 2 * n < p) :
    mode.magnitude negative n p =
      if n ≠ 0 ∧ ((mode = floor ∧ negative = true) ∨
        (mode = ceil ∧ negative = false)) then 1 else 0 := by
  have hq : n / p = 0 := Nat.div_eq_of_lt (by omega)
  have hr : n % p = n := Nat.mod_eq_of_lt (by omega)
  unfold magnitude
  rw [hq, hr, Nat.zero_add]
  refine if_congr ?_ rfl rfl
  cases mode <;> cases negative <;> simp [up] <;> omega

end Division

end RoundingMode
end Beans
