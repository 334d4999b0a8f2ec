import Beans.Decimal.Arithmetic

/-!
# Division

The quotient is developed digit by digit: the digits of the integer part, then
one digit for every multiplication of the remainder by ten, until 39
significant digits are there or the remainder is zero.  The 39th digit is the
guard of the rounding and the remainder its sticky bit.  One equation carries
the proof: after `k` fractional digits, `numerator * 10 ^ k` is the digits so
far times the denominator plus the remainder.
-/

namespace Beans
namespace Decimal

open HalfEven

/-- The digits of the integer part, most significant first. -/
def decIntegerDigits : ℕ → BU128 → List UInt32 → List UInt32
  | 0, _, significant => significant
  | fuel + 1, integer, significant =>
    if buZero integer then significant
    else
      match buDivSmall integer 10 with
      | none => significant
      | some (quotient, digit) =>
        decIntegerDigits fuel quotient (digit :: significant)

/-- Subtracts the divisor while it fits; a digit is at most nine. -/
def decQuotientDigit : ℕ → BDecWide → BDecWide → UInt32 → BDecWide × UInt32
  | 0, next, _, digit => (next, digit)
  | fuel + 1, next, divisor, digit =>
    if 0 ≤ decwCmp next divisor then
      decQuotientDigit fuel (decwSub next divisor) divisor (digit + 1)
    else (next, digit)

/-- The state of the digit loop. -/
structure Quotient where
  significant : List UInt32
  ratioExp : Int
  remainder : BU128

/-- The digit loop, run for at most `fuel` turns. -/
def decQuotientLoop (divisor : BDecWide) (site : Site) :
    ℕ → Quotient → Except Panic Quotient
  | 0, q => .ok q
  | fuel + 1, q =>
    if q.significant.length < bdecPrecision + 1 ∧
        buZero q.remainder = false then do
      let next ← decwMul10 (decwFrom128 q.remainder) site
      let (next, digit) := decQuotientDigit 10 next divisor 0
      let remainder ← decwTo128 next site
      if q.significant = [] ∧ digit = 0 then
        decQuotientLoop divisor site fuel
          { q with ratioExp := q.ratioExp - 1, remainder := remainder }
      else
        decQuotientLoop divisor site fuel
          { q with significant := q.significant ++ [digit],
                   remainder := remainder }
    else .ok q

/-- The working value of a digit string. -/
def decKeep (site : Site) : List UInt32 → BDecWide → Except Panic BDecWide
  | [], kept => .ok kept
  | d :: ds, kept => do
      let kept ← decwMul10 kept site
      let kept ← decwAdd kept (decwFrom128 ⟨d.toUInt64, 0⟩) site
      decKeep site ds kept

/-- The first 38 digits as a working value, rounded by the 39th. -/
def decKeepRounded (q : Quotient) (negative : Bool) (site : Site) :
    Except Panic BDecWide := do
  let kept ← decKeep site (q.significant.take bdecPrecision)
    (decwFrom128 ⟨0, 0⟩)
  if bdecPrecision < q.significant.length then do
    let guard := q.significant.getD bdecPrecision 0
    let up ← decShouldIncrement guard (!buZero q.remainder) kept negative
      broundHalfEven
    decIncrementIf up kept site
  else .ok kept

/-- The integer part and its exponent; `-1` stands for no integer digit. -/
def decQuotientStart (integer remainder : BU128) : Quotient :=
  if buZero integer then ⟨[], -1, remainder⟩
  else
    let significant := decIntegerDigits 39 integer []
    ⟨significant, (significant.length : Int) - 1, remainder⟩

def beansDecvDiv (a b : BDec) (site : Site) : Except Panic BDec :=
  if decZero b then beansPanic "divide by zero" site
  else if decZero a then
    let quotientScale := a.s - b.s
    let quotientScale := if quotientScale < 0 then 0 else quotientScale
    .ok (decSet ⟨0, 0⟩ false quotientScale)
  else
    match buDivmod (decMag a) (decMag b) with
    | none => .ok (decSet ⟨0, 0⟩ false 0)
    | some (integer, remainder) => do
        let divisor := decwFrom128 (decMag b)
        let q ← decQuotientLoop divisor site 80
          (decQuotientStart integer remainder)
        if q.significant = [] then .ok (decSet ⟨0, 0⟩ false 0)
        else do
          let negative := decNegative a != decNegative b
          let kept ← decKeepRounded q negative site
          let resultExp := q.ratioExp + b.s - a.s
          let keptCount := min q.significant.length bdecPrecision
          let resultScale := (keptCount : Int) - 1 - resultExp
          decFinish kept negative resultScale broundHalfEven site

/-- The number a digit string denotes, most significant digit first. -/
def digitsNat (ds : List UInt32) : ℕ :=
  ds.foldl (fun v d => 10 * v + d.toNat) 0

@[simp] theorem digitsNat_nil : digitsNat [] = 0 := rfl

@[simp] theorem digitsNat_append_single (ds : List UInt32) (d : UInt32) :
    digitsNat (ds ++ [d]) = 10 * digitsNat ds + d.toNat := by
  simp [digitsNat]

theorem foldl_digits (ds : List UInt32) (v : ℕ) :
    ds.foldl (fun v d => 10 * v + d.toNat) v =
      v * 10 ^ ds.length + digitsNat ds := by
  induction ds generalizing v with
  | nil => simp
  | cons d ds ih =>
    have htail : digitsNat (d :: ds) =
        (10 * 0 + d.toNat) * 10 ^ ds.length + digitsNat ds :=
      ih (10 * 0 + d.toNat)
    rw [List.foldl_cons, ih, htail, List.length_cons, pow_succ]
    ring

theorem digitsNat_cons (d : UInt32) (ds : List UInt32) :
    digitsNat (d :: ds) = d.toNat * 10 ^ ds.length + digitsNat ds := by
  rw [digitsNat, List.foldl_cons, foldl_digits, Nat.mul_zero, Nat.zero_add]

theorem decIntegerDigits_spec :
    ∀ (fuel : ℕ) (v : BU128) (acc : List UInt32), v.toNat < 10 ^ fuel →
      digitsNat (decIntegerDigits fuel v acc) =
          v.toNat * 10 ^ acc.length + digitsNat acc ∧
        (decIntegerDigits fuel v acc).length =
          acc.length + (if v.toNat = 0 then 0 else numDigits v.toNat) ∧
        ((∀ d ∈ acc, d.toNat < 10) →
          ∀ d ∈ decIntegerDigits fuel v acc, d.toNat < 10)
  | 0, v, acc, h => by
      have hzero : v.toNat = 0 := by simpa using h
      simp [decIntegerDigits, hzero]
  | fuel + 1, v, acc, h => by
      unfold decIntegerDigits
      by_cases hzero : v.toNat = 0
      · rw [if_pos ((buZero_eq_true_iff v).mpr hzero), hzero]
        simp
      · rw [if_neg (mt (buZero_eq_true_iff v).mp hzero)]
        obtain ⟨q, r, hdiv, hq, hr⟩ :=
          buDivSmall_spec v 10 (by decide)
        have hten : (10 : UInt32).toNat = 10 := rfl
        rw [hten] at hq hr
        rw [hdiv]
        dsimp only
        obtain ⟨hval, hlen, hall⟩ := decIntegerDigits_spec fuel q (r :: acc)
          (by rw [hq]; exact Nat.div_lt_of_lt_mul (by rwa [pow_succ'] at h))
        have hsplit : v.toNat = 10 * q.toNat + r.toNat := by omega
        refine ⟨?_, ?_, ?_⟩
        · rw [hval, digitsNat_cons, List.length_cons, hsplit, pow_succ]
          ring
        · rw [hlen, if_neg hzero, List.length_cons]
          by_cases hsmall : q.toNat = 0
          · rw [if_pos hsmall, numDigits, Nat.log_of_lt (by omega)]
          · have := numDigits_div_ten (n := v.toNat) (by omega)
            rw [if_neg hsmall, hq]
            omega
        · intro hacc
          refine hall (List.forall_mem_cons.mpr ⟨by omega, hacc⟩)

theorem decQuotientDigit_spec (divisor : BDecWide) :
    ∀ (fuel : ℕ) (next : BDecWide) (digit : UInt32),
      next.toNat < fuel * divisor.toNat → digit.toNat + fuel ≤ 10 →
      (decQuotientDigit fuel next divisor digit).1.toNat < divisor.toNat ∧
        digit.toNat ≤ (decQuotientDigit fuel next divisor digit).2.toNat ∧
        ((decQuotientDigit fuel next divisor digit).2.toNat - digit.toNat) *
            divisor.toNat +
          (decQuotientDigit fuel next divisor digit).1.toNat = next.toNat
  | 0, next, digit, hlt, _ => by
      rw [Nat.zero_mul] at hlt
      omega
  | fuel + 1, next, digit, hlt, hdigit => by
      unfold decQuotientDigit
      by_cases hgo : divisor.toNat ≤ next.toNat
      · rw [if_pos ((decwCmp_nonneg_iff next divisor).mpr hgo)]
        have hsub := decwSub_toNat hgo
        have hone : (digit + 1).toNat = digit.toNat + 1 := by
          rw [UInt32.toNat_add]
          have : (1 : UInt32).toNat = 1 := rfl
          omega
        rw [Nat.succ_mul] at hlt
        obtain ⟨h₁, h₂, h₃⟩ := decQuotientDigit_spec divisor fuel
          (decwSub next divisor) (digit + 1) (by omega) (by omega)
        rw [hone] at h₂ h₃
        rw [hsub] at h₃
        refine ⟨h₁, by omega, ?_⟩
        generalize (decQuotientDigit fuel (decwSub next divisor) divisor
          (digit + 1)).2.toNat = digit' at *
        obtain ⟨m, rfl⟩ : ∃ m, digit' = digit.toNat + 1 + m :=
          ⟨digit' - (digit.toNat + 1), by omega⟩
        rw [Nat.add_sub_cancel_left] at h₃
        rw [show digit.toNat + 1 + m - digit.toNat = m + 1 by omega, Nat.succ_mul]
        omega
      · rw [if_neg (mt (decwCmp_nonneg_iff next divisor).mp hgo)]
        exact ⟨not_le.mp hgo, le_rfl, by simp⟩

/-- One multiplication by ten yields the next digit and remainder. -/
theorem decQuotientDigit_div (next divisor : BDecWide)
    (hlt : next.toNat < 10 * divisor.toNat) :
    (decQuotientDigit 10 next divisor 0).1.toNat = next.toNat % divisor.toNat ∧
      (decQuotientDigit 10 next divisor 0).2.toNat =
        next.toNat / divisor.toNat := by
  obtain ⟨h₁, -, h₃⟩ := decQuotientDigit_spec divisor 10 next 0 hlt (by decide)
  rw [UInt32.toNat_zero, Nat.sub_zero] at h₃
  generalize (decQuotientDigit 10 next divisor 0).2.toNat = d at *
  generalize (decQuotientDigit 10 next divisor 0).1.toNat = r at *
  rw [← h₃, Nat.mul_comm d, Nat.mul_add_mod, Nat.mul_add_div (by omega),
    Nat.mod_eq_of_lt h₁, Nat.div_eq_of_lt h₁]
  simp

/-- After `k` fractional digits of `n / m`. -/
structure Developed (n m : ℕ) (k : ℕ) (q : Quotient) : Prop where
  ratioExp_eq : q.ratioExp = (q.significant.length : ℤ) - 1 - k
  length_le : q.significant.length ≤ bdecPrecision + 1
  equation : n * 10 ^ k = digitsNat q.significant * m + q.remainder.toNat
  remainder_lt : q.remainder.toNat < m
  digit_lt : ∀ d ∈ q.significant, d.toNat < 10
  digits_lt : digitsNat q.significant < 10 ^ q.significant.length
  leading : q.significant ≠ [] →
    10 ^ (q.significant.length - 1) ≤ digitsNat q.significant
  last : k ≠ 0 → q.remainder.toNat = 0 → digitsNat q.significant % 10 ≠ 0

section

variable {n m : ℕ} {divisor : BDecWide} (site : Site)

variable {q : Quotient}

/-- The loop ends within 77 fractional digits. -/
theorem Developed.lt {k : ℕ} (h : Developed n m k q)
    (hn : 0 < n) (hm : m < 10 ^ bdecPrecision) : k < 77 := by
  have hdigits : digitsNat q.significant + 1 ≤ 10 ^ (bdecPrecision + 1) :=
    le_trans h.digits_lt (Nat.pow_le_pow_right (by omega) h.length_le)
  have hlt : n * 10 ^ k < 10 ^ 77 := by
    calc n * 10 ^ k = digitsNat q.significant * m + q.remainder.toNat := h.equation
      _ < digitsNat q.significant * m + m := Nat.add_lt_add_left h.remainder_lt _
      _ = (digitsNat q.significant + 1) * m := by ring
      _ ≤ 10 ^ (bdecPrecision + 1) * 10 ^ bdecPrecision :=
          Nat.mul_le_mul hdigits hm.le
      _ = 10 ^ 77 := by rw [← pow_add]; rfl
  have hpow : 10 ^ k < 10 ^ 77 :=
    lt_of_le_of_lt (Nat.le_mul_of_pos_left _ hn) hlt
  exact (Nat.pow_lt_pow_iff_right (by omega)).mp hpow

/-- One turn of the loop yields one more fractional digit. -/
theorem Developed.step {k : ℕ} {q : Quotient} (h : Developed n m k q)
    (hm : m < 10 ^ bdecPrecision) (hdivisor : divisor.toNat = m)
    (hlen : q.significant.length < bdecPrecision + 1)
    (hrem : q.remainder.toNat ≠ 0) :
    ∃ (next : BDecWide) (remainder : BU128) (digit : UInt32),
      decwMul10 (decwFrom128 q.remainder) site = .ok next ∧
      (decQuotientDigit 10 next divisor 0).2 = digit ∧
      decwTo128 (decQuotientDigit 10 next divisor 0).1 site = .ok remainder ∧
      Developed n m (k + 1)
        (if q.significant = [] ∧ digit = 0 then
          { q with ratioExp := q.ratioExp - 1, remainder := remainder }
        else { q with significant := q.significant ++ [digit],
                      remainder := remainder }) := by
  have hwide : 10 * q.remainder.toNat < wideLimit := by
    have hlt := h.remainder_lt
    have hbig : 10 * 10 ^ bdecPrecision < wideLimit := by
      unfold wideLimit bdecPrecision bdecWideLimbs
      norm_num
    omega
  have hnext := decwMul10_of_lt (a := decwFrom128 q.remainder) site
    (by rw [decwFrom128_toNat]; exact hwide)
  rw [decwFrom128_toNat] at hnext
  have hval := BDecWide.toNat_ofNat hwide
  have hrlt := h.remainder_lt
  obtain ⟨hquot, hdigit⟩ := decQuotientDigit_div
    (BDecWide.ofNat (10 * q.remainder.toNat)) divisor
    (by rw [hval, hdivisor]; omega)
  rw [hval, hdivisor] at hquot hdigit
  have hmod : 10 * q.remainder.toNat % m < m := Nat.mod_lt _ (by omega)
  have h128 : 10 ^ bdecPrecision < 2 ^ 128 := by norm_num [bdecPrecision]
  have hto := decwTo128_of_lt
    (a := (decQuotientDigit 10
      (BDecWide.ofNat (10 * q.remainder.toNat)) divisor 0).1) site
    (by rw [hquot]; omega)
  rw [hquot] at hto
  refine ⟨_, _, _, hnext, rfl, hto, ?_⟩
  have hR : (BU128.ofNat (10 * q.remainder.toNat % m)).toNat =
      10 * q.remainder.toNat % m := BU128.toNat_ofNat (by omega)
  generalize (decQuotientDigit 10
    (BDecWide.ofNat (10 * q.remainder.toNat)) divisor 0).2 = digit at *
  have hdivmod := Nat.div_add_mod (10 * q.remainder.toNat) m
  rw [← hdigit] at hdivmod
  have hdigitlt : digit.toNat < 10 := by
    rw [hdigit]
    exact Nat.div_lt_of_lt_mul (by omega)
  have hexact : 10 * q.remainder.toNat % m = 0 → digit.toNat ≠ 0 := by
    intro hzero hd
    rw [hd, hzero, Nat.mul_zero] at hdivmod
    omega
  have heq := h.equation
  by_cases hskip : q.significant = [] ∧ digit = 0
  · rw [if_pos hskip]
    obtain ⟨hnil, rfl⟩ := hskip
    have hratio := h.ratioExp_eq
    rw [hnil] at heq hratio
    rw [digitsNat_nil, Nat.zero_mul, Nat.zero_add] at heq
    rw [UInt32.toNat_zero, Nat.mul_zero, Nat.zero_add] at hdivmod
    refine ⟨?_, h.length_le, ?_, by rw [hR]; exact hmod, h.digit_lt,
      h.digits_lt, h.leading, ?_⟩
    · dsimp only
      rw [hratio, hnil]
      push_cast
      ring
    · dsimp only
      rw [hR, hdivmod, hnil, digitsNat_nil, pow_succ, ← Nat.mul_assoc, heq]
      ring
    · intro _ hzero
      rw [hR] at hzero
      exact absurd rfl (hexact hzero)
  · rw [if_neg hskip]
    have hlenApp : (q.significant ++ [digit]).length = q.significant.length + 1 := by
      simp
    refine ⟨?_, ?_, ?_, by rw [hR]; exact hmod, ?_, ?_, ?_, ?_⟩
    · dsimp only
      rw [hlenApp, h.ratioExp_eq]
      push_cast
      ring
    · rw [hlenApp]
      omega
    · dsimp only
      rw [digitsNat_append_single, hR, pow_succ, ← Nat.mul_assoc, heq]
      linarith [hdivmod, Nat.mul_comm m digit.toNat]
    · intro d hd
      rcases List.mem_append.mp hd with hd | hd
      · exact h.digit_lt d hd
      · rw [List.mem_singleton.mp hd]
        exact hdigitlt
    · have := h.digits_lt
      rw [digitsNat_append_single, hlenApp, pow_succ]
      omega
    · intro _
      rw [digitsNat_append_single, hlenApp, Nat.add_sub_cancel]
      by_cases hnil : q.significant = []
      · have hd : digit.toNat ≠ 0 := by
          intro hd
          exact hskip ⟨hnil, UInt32.toNat_inj.mp hd⟩
        rw [hnil]
        simp only [List.length_nil, pow_zero]
        omega
      · have hlead := h.leading hnil
        have hpos := List.length_pos_iff.mpr hnil
        have hpow : 10 ^ q.significant.length =
            10 * 10 ^ (q.significant.length - 1) := by
          rw [← pow_succ', Nat.sub_add_cancel hpos]
        omega
    · intro _ hzero
      rw [hR] at hzero
      have := hexact hzero
      rw [digitsNat_append_single]
      omega

/-- With enough fuel the loop ends on 39 digits or a zero remainder. -/
theorem decQuotientLoop_spec (hn : 0 < n) (hm : m < 10 ^ bdecPrecision)
    (hdivisor : divisor.toNat = m) :
    ∀ (fuel k : ℕ) (q : Quotient), Developed n m k q → 77 ≤ k + fuel →
      ∃ k' q', decQuotientLoop divisor site fuel q = .ok q' ∧
        Developed n m k' q' ∧
        (q'.significant.length = bdecPrecision + 1 ∨ q'.remainder.toNat = 0)
  | 0, k, q, h, hfuel => by
      have := h.lt hn hm
      omega
  | fuel + 1, k, q, h, hfuel => by
      unfold decQuotientLoop
      by_cases hgo : q.significant.length < bdecPrecision + 1 ∧
          buZero q.remainder = false
      · have hrem : q.remainder.toNat ≠ 0 := by
          rw [← Bool.not_eq_true, buZero_eq_true_iff] at hgo
          exact hgo.2
        obtain ⟨next, remainder, digit, hnext, hdigit, hto, hstep⟩ :=
          h.step site hm hdivisor hgo.1 hrem
        rw [if_pos hgo, hnext, ok_bind]
        dsimp only
        rw [hdigit, hto, ok_bind]
        by_cases hskip : q.significant = [] ∧ digit = 0
        · rw [if_pos hskip] at hstep ⊢
          exact decQuotientLoop_spec hn hm hdivisor fuel (k + 1) _ hstep (by omega)
        · rw [if_neg hskip] at hstep ⊢
          exact decQuotientLoop_spec hn hm hdivisor fuel (k + 1) _ hstep (by omega)
      · rw [if_neg hgo]
        refine ⟨k, q, rfl, h, ?_⟩
        have := h.length_le
        by_cases hlen : q.significant.length < bdecPrecision + 1
        · right
          by_contra hne
          refine hgo ⟨hlen, ?_⟩
          rw [← Bool.not_eq_true, buZero_eq_true_iff]
          exact hne
        · left
          omega

theorem decQuotientStart_spec {integer remainder : BU128}
    (hn : n < 10 ^ bdecPrecision) (hm : 0 < m) (hint : integer.toNat = n / m)
    (hrem : remainder.toNat = n % m) :
    Developed n m 0 (decQuotientStart integer remainder) := by
  have hlt : integer.toNat < 10 ^ bdecPrecision := by
    rw [hint]
    exact lt_of_le_of_lt (Nat.div_le_self n m) hn
  have hdivmod : n = n / m * m + n % m := by
    rw [Nat.mul_comm]
    exact (Nat.div_add_mod n m).symm
  have hmod := Nat.mod_lt n hm
  unfold decQuotientStart
  by_cases hzero : integer.toNat = 0
  · rw [if_pos ((buZero_eq_true_iff integer).mpr hzero)]
    rw [← hint, hzero, Nat.zero_mul, Nat.zero_add] at hdivmod
    refine ⟨by simp, by simp, ?_, by rw [hrem]; exact hmod, by simp, by simp,
      fun h => absurd rfl h, fun h => absurd rfl h⟩
    simpa [hrem] using hdivmod
  · rw [if_neg (mt (buZero_eq_true_iff integer).mp hzero)]
    obtain ⟨hval, hlen, hall⟩ := decIntegerDigits_spec 39 integer []
      (lt_trans hlt (by norm_num [bdecPrecision]))
    have hdigits := (numDigits_le_iff (by decide)).mpr hlt
    rw [if_neg hzero, List.length_nil, Nat.zero_add] at hlen
    rw [List.length_nil, pow_zero, Nat.mul_one, digitsNat_nil, Nat.add_zero]
      at hval
    dsimp only
    generalize decIntegerDigits 39 integer [] = digits at *
    refine ⟨by simp, by dsimp only; omega, ?_, by rw [hrem]; exact hmod,
      hall (by simp), ?_, ?_, fun h => absurd rfl h⟩
    · dsimp only
      rw [hval, hint, hrem, pow_zero, Nat.mul_one]
      exact hdivmod
    · dsimp only
      rw [hval, hlen]
      exact Nat.lt_pow_succ_log_self (by omega) _
    · intro _
      dsimp only
      rw [hval, hlen, numDigits, Nat.add_sub_cancel]
      exact Nat.pow_log_le_self 10 hzero

theorem decKeep_spec :
    ∀ (ds : List UInt32) (kept : BDecWide),
      kept.toNat * 10 ^ ds.length + digitsNat ds < wideLimit →
      decKeep site ds kept =
        .ok (BDecWide.ofNat (kept.toNat * 10 ^ ds.length + digitsNat ds))
  | [], kept, _ => by
      simpa [decKeep] using BDecWide.eq_ofNat (v := kept) rfl
  | d :: ds, kept, h => by
      have hdigit : (decwFrom128 ⟨d.toUInt64, 0⟩).toNat = d.toNat := by
        rw [decwFrom128_toNat]
        simp [BU128.toNat]
      have hsplit : kept.toNat * 10 ^ (d :: ds).length + digitsNat (d :: ds) =
          (10 * kept.toNat + d.toNat) * 10 ^ ds.length + digitsNat ds := by
        rw [digitsNat_cons, List.length_cons, pow_succ]
        ring
      rw [hsplit] at h ⊢
      have hle : 10 * kept.toNat + d.toNat ≤
          (10 * kept.toNat + d.toNat) * 10 ^ ds.length :=
        Nat.le_mul_of_pos_right _ (by positivity)
      have hten := BDecWide.toNat_ofNat (n := 10 * kept.toNat) (by omega)
      have hnew := BDecWide.toNat_ofNat (n := 10 * kept.toNat + d.toNat) (by omega)
      rw [decKeep, decwMul10_of_lt site (by omega), ok_bind,
        decwAdd_of_lt site (by rw [hten, hdigit]; omega), ok_bind, hten, hdigit,
        decKeep_spec ds _ (by rw [hnew]; exact h), hnew]

/-- A digit string of at most 38 digits is kept whole. -/
theorem decKeepRounded_of_le (negative : Bool)
    (hlen : q.significant.length ≤ bdecPrecision)
    (hlt : digitsNat q.significant < wideLimit) :
    decKeepRounded q negative site =
      .ok (BDecWide.ofNat (digitsNat q.significant)) := by
  unfold decKeepRounded
  rw [List.take_of_length_le hlen, decKeep_spec site _ _ (by
    rw [decwFrom128_toNat]
    simpa [BU128.toNat] using hlt), ok_bind, if_neg (by omega)]
  simp [BU128.toNat]

/-- A 39th digit rounds the other 38 half-even, the remainder being sticky. -/
theorem decKeepRounded_of_eq (negative : Bool)
    (hlen : q.significant.length = bdecPrecision + 1)
    (hdigit : ∀ d ∈ q.significant, d.toNat < 10)
    (hlt : digitsNat q.significant < 10 ^ (bdecPrecision + 1)) :
    decKeepRounded q negative site =
      .ok (BDecWide.ofNat (digitsNat q.significant / 10 +
        if 5 < digitsNat q.significant % 10 ∨
            (digitsNat q.significant % 10 = 5 ∧
              (q.remainder.toNat ≠ 0 ∨ digitsNat q.significant / 10 % 2 ≠ 0))
        then 1 else 0)) := by
  obtain ⟨init, last, hsplit⟩ : ∃ init last, q.significant = init ++ [last] :=
    ⟨_, _, (List.dropLast_append_getLast
      (List.ne_nil_of_length_pos (by omega))).symm⟩
  have hinit : init.length = bdecPrecision := by
    rw [hsplit, List.length_append, List.length_singleton] at hlen
    omega
  have hlast : last.toNat < 10 := hdigit last (by simp [hsplit])
  have htake : q.significant.take bdecPrecision = init := by
    rw [hsplit, ← hinit, List.take_left']
    rfl
  have hguard : q.significant.getD bdecPrecision 0 = last := by
    rw [hsplit, ← hinit]
    simp
  have hval : digitsNat q.significant = 10 * digitsNat init + last.toNat := by
    rw [hsplit, digitsNat_append_single]
  have hsticky : (!buZero q.remainder) = true ↔ q.remainder.toNat ≠ 0 := by
    rw [Bool.not_eq_true', ← Bool.not_eq_true, buZero_eq_true_iff]
  rw [hval] at hlt ⊢
  have hinitlt : digitsNat init < 10 ^ bdecPrecision := by
    rw [pow_succ] at hlt
    omega
  have hw := BDecWide.toNat_ofNat (lt_trans hinitlt pow_bdecPrecision_lt)
  have hzero : (decwFrom128 ⟨0, 0⟩).toNat = 0 := by
    rw [decwFrom128_toNat]
    rfl
  unfold decKeepRounded
  rw [htake, decKeep_spec site init (decwFrom128 ⟨0, 0⟩) (by
    rw [hzero, Nat.zero_mul, Nat.zero_add]
    exact lt_trans hinitlt pow_bdecPrecision_lt), ok_bind, hzero, Nat.zero_mul,
    Nat.zero_add, if_pos (by omega), hguard]
  dsimp only
  rw [decShouldIncrement_halfEven, ok_bind,
    decIncrementIf_of_lt _ site (by rw [hw]; exact hinitlt), hw]
  simp only [hsticky, decide_eq_true_iff]
  rw [show (10 * digitsNat init + last.toNat) / 10 = digitsNat init by omega,
    show (10 * digitsNat init + last.toNat) % 10 = last.toNat by omega]

end

variable {q : Quotient}

/-- The exact quotient, written with the digits developed so far. -/
theorem Developed.quotient_eq {n m k : ℕ}
    (h : Developed n m k q) (hm : 0 < m) (scale : ℤ) :
    workingRat n scale / m =
      (digitsNat q.significant + (q.remainder.toNat : ℚ) / m) *
        10 ^ (-(k + scale)) := by
  have hmQ : (m : ℚ) ≠ 0 := by exact_mod_cast hm.ne'
  have heq : (n : ℚ) * 10 ^ k =
      digitsNat q.significant * m + q.remainder.toNat := by
    exact_mod_cast h.equation
  have hpow : (10 : ℚ) ^ (-(k + scale)) = (10 ^ k)⁻¹ * 10 ^ (-scale) := by
    rw [neg_add, zpow_add₀ (by norm_num), zpow_neg _ (k : ℤ), zpow_natCast]
  have hten : (10 : ℚ) ^ k ≠ 0 := by positivity
  rw [hpow, workingRat]
  field_simp
  linear_combination heq

/-- With a zero remainder the digits are the exact quotient. -/
theorem Developed.quotient_exact {n m k : ℕ}
    (h : Developed n m k q) (hm : 0 < m) (scale : ℤ)
    (hrem : q.remainder.toNat = 0) :
    workingRat n scale / m = workingRat (digitsNat q.significant) (k + scale) := by
  rw [h.quotient_eq hm, hrem]
  simp [workingRat]

/-- With 39 digits the guard and the remainder round the exact quotient. -/
theorem Developed.quotient_rounded {n m k : ℕ}
    (h : Developed n m k q) (scale : ℤ)
    (hlen : q.significant.length = bdecPrecision + 1) :
    workingRat (digitsNat q.significant / 10 +
        if 5 < digitsNat q.significant % 10 ∨
            (digitsNat q.significant % 10 = 5 ∧
              (q.remainder.toNat ≠ 0 ∨ digitsNat q.significant / 10 % 2 ≠ 0))
        then 1 else 0) (k + scale - 1) =
      roundSig 10 bdecPrecision (workingRat n scale / m) := by
  have hm : 0 < m := lt_of_le_of_lt (Nat.zero_le _) h.remainder_lt
  have hlead := h.leading (List.ne_nil_of_length_pos (by omega))
  have hdigits := h.digits_lt
  rw [hlen] at hlead hdigits
  have hmQ : (0 : ℚ) < m := by exact_mod_cast hm
  have hremQ : (q.remainder.toNat : ℚ) / m < 1 := by
    rw [div_lt_one hmQ]
    exact_mod_cast h.remainder_lt
  have hrem0 : 0 ≤ (q.remainder.toNat : ℚ) / m := by positivity
  have hpow : (0 : ℚ) < 10 ^ (-(k + scale)) := zpow_pos (by norm_num) _
  have hexp : (1 - (k + scale)) - 1 = -(k + scale) := by ring
  have hround := roundSig_of_guard (K := ℚ) (b := 10) (p := bdecPrecision)
    (h := 5) (x := workingRat n scale / m) (n := digitsNat q.significant)
    (e := 1 - (k + scale)) (by omega) rfl hlead hdigits
    (by
      rw [Nat.cast_ofNat, hexp, h.quotient_eq hm]
      exact mul_le_mul_of_nonneg_right (by linarith) hpow.le)
    (by
      rw [Nat.cast_ofNat, hexp, h.quotient_eq hm]
      exact mul_lt_mul_of_pos_right (by linarith) hpow)
  have hexact : workingRat n scale / m =
      (digitsNat q.significant : ℚ) * 10 ^ (-(k + scale)) ↔
        q.remainder.toNat = 0 := by
    rw [h.quotient_eq hm, mul_left_inj' hpow.ne', add_eq_left, div_eq_zero_iff,
      Nat.cast_eq_zero]
    exact or_iff_left hmQ.ne'
  rw [Nat.cast_ofNat, hexp] at hround
  simp only [ne_eq, hexact] at hround
  rw [hround, workingRat]
  simp only [ne_eq, neg_sub]

/-- A rounding carry to `10 ^ 38` still has 38 significant digits. -/
theorem roundSig_workingRat_of_le {n : ℕ} (hn : n ≤ 10 ^ bdecPrecision)
    (scale : ℤ) :
    roundSig 10 bdecPrecision (workingRat n scale) = workingRat n scale := by
  rcases lt_or_eq_of_le hn with hlt | rfl
  · exact roundSig_workingRat hlt scale
  · have hten : workingRat (10 ^ bdecPrecision) scale = workingRat 1 (scale - 38) := by
      rw [← workingRat_mul_pow 1 bdecPrecision (scale - 38), Nat.one_mul]
      congr 1
      unfold bdecPrecision
      push_cast
      ring
    rw [hten]
    exact roundSig_workingRat (by decide) _

/-- Finishing a number already rounded finishes the exact one. -/
theorem RoundedOrPanic.of_roundSig {x y : ℚ} {ideal : ℤ} {site : Site}
    {r : Except Panic BDec} (h : RoundedOrPanic y ideal site r)
    (hy : y = roundSig 10 bdecPrecision x)
    (hfix : roundSig 10 bdecPrecision y = y) :
    RoundedOrPanic x ideal site r := by
  rcases h with ⟨d, hok, hd⟩ | ⟨hp, hun⟩
  · refine Or.inl ⟨d, hok, ?_, hd.representable, hd.scale_cases⟩
    rw [hd.toRat_eq, hfix, hy]
  · refine Or.inr ⟨hp, ?_⟩
    rintro ⟨d, hd, rfl⟩
    rw [hd.roundSig_toRat] at hy
    exact hun ⟨d, hd, hy.symm⟩

theorem signed_div (an bn : Bool) (x y : ℚ) :
    signed an x / signed bn y = signed (an != bn) (x / y) := by
  cases an <;> cases bn <;> simp [signed, neg_div, div_neg]

theorem toRat_div_eq (a b : BDec) :
    a.toRat / b.toRat = signed (decNegative a != decNegative b)
      (workingRat (decMag a).toNat (a.s - b.s) / (decMag b).toNat) := by
  rw [BDec.toRat_eq_signed, BDec.toRat_eq_signed, signed_div]
  congr 1
  unfold workingRat
  have hpow : (10 : ℚ) ^ (-b.s) ≠ 0 := zpow_ne_zero _ (by norm_num)
  rw [show -(a.s - b.s) = -a.s - -b.s by ring, zpow_sub₀ (by norm_num)]
  field_simp

/-- 39 digits and what follows are no decimal of 38. -/
theorem Developed.not_fits {n m k : ℕ}
    (h : Developed n m k q) (scale : ℤ) (hn : n < 10 ^ bdecPrecision)
    (hlen : q.significant.length = bdecPrecision + 1) (negative : Bool) :
    ¬ FitsDecimal (signed negative (workingRat n scale / m)) := by
  have hm : 0 < m := lt_of_le_of_lt (Nat.zero_le _) h.remainder_lt
  have hmQ : (m : ℚ) ≠ 0 := by exact_mod_cast hm.ne'
  have hpow : (10 : ℚ) ^ (-(k + scale)) ≠ 0 := zpow_ne_zero _ (by norm_num)
  have hlead := h.leading (List.ne_nil_of_length_pos (by omega))
  rw [hlen, Nat.add_sub_cancel] at hlead
  have hk : k ≠ 0 := by
    rintro rfl
    have heq := h.equation
    have := Nat.le_mul_of_pos_right (digitsNat q.significant) hm
    omega
  rintro ⟨d, hd, hfit⟩
  have hround := hd.roundSig_toRat
  rw [hfit, roundSig_signed, ← h.quotient_rounded scale hlen] at hround
  have hsame := congrArg (signed negative) hround
  rw [signed_signed, signed_signed] at hsame
  generalize digitsNat q.significant / 10 +
    (if 5 < digitsNat q.significant % 10 ∨
        (digitsNat q.significant % 10 = 5 ∧
          (q.remainder.toNat ≠ 0 ∨ digitsNat q.significant / 10 % 2 ≠ 0))
    then 1 else 0) = c at hsame
  have hshift := workingRat_mul_pow c 1 (k + scale - 1)
  rw [show (k : ℤ) + scale - 1 + (1 : ℕ) = k + scale by push_cast; ring] at hshift
  rw [← hshift, h.quotient_eq hm, workingRat, mul_left_inj' hpow] at hsame
  have hnat : c * 10 ^ 1 * m =
      digitsNat q.significant * m + q.remainder.toNat := by
    field_simp at hsame
    exact_mod_cast hsame
  have hrem : q.remainder.toNat = 0 := by
    have hmod := congrArg (· % m) hnat
    simp only [Nat.mul_mod_left, Nat.mul_add_mod', Nat.mod_eq_of_lt h.remainder_lt]
      at hmod
    exact hmod.symm
  rw [hrem, Nat.add_zero] at hnat
  have hdigits := Nat.eq_of_mul_eq_mul_right hm hnat
  exact h.last hk hrem (by omega)

/-- The shape of an exact quotient: no trailing zero beyond the scale
difference of the operands. -/
structure ExactQuotient (x : ℚ) (scale ideal : ℤ) : Prop where
  digits : ∃ k v : ℕ, ideal = k + scale ∧ v < 10 ^ bdecPrecision ∧
    |x| = workingRat v ideal ∧ (k ≠ 0 → v % 10 ≠ 0)

/-- The quotient is the exact one at its ideal scale, or the rounded one. -/
theorem beansDecvDiv_spec {a b : BDec} (site : Site) (ha : a.Representable)
    (hb : b.Representable) (hza : a.coeff ≠ 0) (hzb : b.coeff ≠ 0) :
    ∃ ideal, RoundedOrPanic (a.toRat / b.toRat) ideal site
        (beansDecvDiv a b site) ∧
      (ExactQuotient (a.toRat / b.toRat) (a.s - b.s) ideal ∨
        ¬ FitsDecimal (a.toRat / b.toRat)) := by
  have hn : 0 < (decMag a).toNat :=
    Nat.pos_of_ne_zero (mt (decMag_toNat_eq_zero_iff a).mp hza)
  have hm : 0 < (decMag b).toNat :=
    Nat.pos_of_ne_zero (mt (decMag_toNat_eq_zero_iff b).mp hzb)
  obtain ⟨integer, remainder, hdivmod, hint, hrem⟩ :=
    buDivmod_spec hm
  have hstart := decQuotientStart_spec ha.decMag_lt hm hint hrem
  obtain ⟨k, q, hloop, hdev, hend⟩ :=
    decQuotientLoop_spec site hn hb.decMag_lt
      (decwFrom128_toNat (decMag b)) 80 0 _ hstart (by omega)
  have hnonempty : q.significant ≠ [] := by
    intro hnil
    have heq := hdev.equation
    rcases hend with hlen | hzero
    · rw [hnil] at hlen
      simp at hlen
    · rw [hnil, hzero, digitsNat_nil, Nat.zero_mul] at heq
      have : 0 < (decMag a).toNat * 10 ^ k := by positivity
      omega
  rw [toRat_div_eq]
  unfold beansDecvDiv
  rw [if_neg (mt (decZero_iff b).mp hzb), if_neg (mt (decZero_iff a).mp hza),
    hdivmod]
  dsimp only
  rw [hloop, ok_bind, if_neg hnonempty]
  set negative := decNegative a != decNegative b
  by_cases hlen : q.significant.length = bdecPrecision + 1
  · have hfull := hdev.quotient_rounded (a.s - b.s) hlen
    have hdigits := hdev.digits_lt
    have hlead := hdev.leading hnonempty
    rw [hlen] at hdigits hlead
    have hscale : ((min q.significant.length bdecPrecision : ℕ) : ℤ) - 1 -
        (q.ratioExp + b.s - a.s) = k + (a.s - b.s) - 1 := by
      rw [hdev.ratioExp_eq, hlen, min_eq_right (Nat.le_succ _)]
      push_cast
      ring
    rw [decKeepRounded_of_eq site negative hlen hdev.digit_lt hdigits, ok_bind,
      hscale]
    set c := digitsNat q.significant / 10 +
      (if 5 < digitsNat q.significant % 10 ∨
          (digitsNat q.significant % 10 = 5 ∧
            (q.remainder.toNat ≠ 0 ∨ digitsNat q.significant / 10 % 2 ≠ 0))
      then 1 else 0) with hc
    have hup : c ≤ digitsNat q.significant / 10 + 1 := by
      rw [hc]
      split_ifs <;> omega
    have hcle : c ≤ 10 ^ bdecPrecision := by
      rw [pow_succ] at hdigits
      omega
    have hcpos : 0 < c := by
      have hten : 10 ≤ digitsNat q.significant :=
        le_trans (by norm_num [bdecPrecision]) hlead
      omega
    have hfinish := decFinish_roundedOrPanic negative (k + (a.s - b.s) - 1) site
      hcpos (lt_of_le_of_lt hcle pow_bdecPrecision_lt)
    exact ⟨_, hfinish.of_roundSig (by rw [roundSig_signed, hfull])
      (by rw [roundSig_signed, roundSig_workingRat_of_le hcle]),
      Or.inr (hdev.not_fits _ ha.decMag_lt hlen negative)⟩
  · have hzero := hend.resolve_left hlen
    have hle : q.significant.length ≤ bdecPrecision := by
      have := hdev.length_le
      omega
    have hlt : digitsNat q.significant < 10 ^ bdecPrecision :=
      lt_of_lt_of_le hdev.digits_lt (Nat.pow_le_pow_right (by omega) hle)
    have hwide := lt_trans hlt pow_bdecPrecision_lt
    have hpos : 0 < digitsNat q.significant :=
      lt_of_lt_of_le (by positivity) (hdev.leading hnonempty)
    have hscale : ((min q.significant.length bdecPrecision : ℕ) : ℤ) - 1 -
        (q.ratioExp + b.s - a.s) = k + (a.s - b.s) := by
      rw [hdev.ratioExp_eq, min_eq_left hle]
      ring
    rw [decKeepRounded_of_le site negative hle hwide, ok_bind, hscale,
      hdev.quotient_exact hm _ hzero]
    refine ⟨_, decFinish_roundedOrPanic _ _ _ hpos hwide, Or.inl ⟨k, _, rfl, hlt,
      ?_, fun hk => hdev.last hk hzero⟩⟩
    rw [abs_signed, abs_of_nonneg (workingRat_nonneg _ _)]

end Decimal
end Beans
