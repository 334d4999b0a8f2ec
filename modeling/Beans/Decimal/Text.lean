import Beans.Decimal.Order

/-!
# Decimals as text

`beansDecStr` writes a decimal, `decParseText` reads one back.  A text is the
list of its bytes before the terminating NUL.  Reading is specified on
spellings: a whole part, a fraction and an exponent, with underscores between
the digits.  Whatever the spelling, the reader takes the mantissa digits as one
number, counts the fractional ones and asks `decimalOf` for the decimal.

**Results.**
* `decimal_order_hash_text`: comparison is that of the exact values, equal decimals have one
  hash, and what is written is read back.
-/

namespace Beans
namespace Decimal

def asciiZero : UInt8 := 48
def asciiNine : UInt8 := 57
def asciiPlus : UInt8 := 43
def asciiMinus : UInt8 := 45
def asciiDot : UInt8 := 46
def asciiUnderscore : UInt8 := 95
def asciiLowerE : UInt8 := 101
def asciiUpperE : UInt8 := 69

def isDigit (c : UInt8) : Bool := asciiZero ≤ c && c ≤ asciiNine

def isSign (c : UInt8) : Bool := c == asciiPlus || c == asciiMinus

def isExponentMark (c : UInt8) : Bool := c == asciiLowerE || c == asciiUpperE

/-- The number a digit byte stands for. -/
def digitValue (c : UInt8) : ℕ := c.toNat - 48

/-- A leading sign is passed over. -/
def decSkipSign : List UInt8 → List UInt8
  | [] => []
  | c :: cs => if isSign c then cs else c :: cs

/-- The digits of the coefficient, least significant first. -/
def decStrDigits : ℕ → BU128 → List UInt8
  | 0, _ => []
  | fuel + 1, magnitude =>
    if buZero magnitude then []
    else
      match buDivSmall magnitude 10 with
      | none => []
      | some (quotient, remainder) =>
        (asciiZero + remainder.toUInt8) :: decStrDigits fuel quotient

/-- The digits filled up with zeros to reach beyond the point. -/
def decStrFill (d : BDec) : List UInt8 :=
  let magnitude := decMag d
  let digits :=
    if buZero magnitude then [asciiZero] else decStrDigits 39 magnitude
  digits ++ List.replicate (d.s + 1 - digits.length).toNat asciiZero

/-- The output loop: digit `i - 1` down to digit `0`, the point before the
digit at the scale. -/
def decStrWrite (digits : List UInt8) (s : Int) : ℕ → List UInt8
  | 0 => []
  | i + 1 =>
    digits.getD i asciiZero ::
      ((if (i : Int) = s ∧ i ≠ 0 then [asciiDot] else []) ++
        decStrWrite digits s i)

/-- The sign, the whole part and as many decimals as the scale says. -/
def beansDecStr (d : BDec) : List UInt8 :=
  let digits := decStrFill d
  (if decNegative d then [asciiMinus] else []) ++
    decStrWrite digits d.s digits.length

/-- The exponent digits; an exponent above 4096 is refused. -/
def decValidExponent : List UInt8 → ℕ → Bool
  | [], _ => true
  | c :: cs, ev =>
    if isDigit c then
      let ev := ev * 10 + digitValue c
      if 4096 < ev then false else decValidExponent cs ev
    else false

/-- Digits with at most one dot, and an exponent within its cap. -/
def decValidBody : List UInt8 → ℕ → Bool → Bool
  | [], digits, _ => 0 < digits
  | c :: cs, digits, dot =>
    if isDigit c then decValidBody cs (digits + 1) dot
    else if c = asciiUnderscore then decValidBody cs digits dot
    else if c = asciiDot ∧ dot = false then decValidBody cs digits true
    else if isExponentMark c ∧ 0 < digits then
      match decSkipSign cs with
      | [] => false
      | d :: ds => if isDigit d then decValidExponent (d :: ds) 0 else false
    else false

def decValidC (s : List UInt8) : Bool := decValidBody (decSkipSign s) 0 false

def rtIsSpace (c : UInt8) : Bool := c == 32 || c == 9 || c == 10 || c == 13

/-- The digit loop of `rtParseI64`: the value and whether it overflowed. -/
def rtParseDigits (cap : ℕ) : List UInt8 → ℕ → Bool → ℕ × Bool
  | [], value, overflowed => (value, overflowed)
  | c :: cs, value, overflowed =>
    if isDigit c then
      if (cap - digitValue c) / 10 < value then
        rtParseDigits cap cs value true
      else rtParseDigits cap cs (value * 10 + digitValue c) overflowed
    else (value, overflowed)

/-- A base-10 signed parse that saturates on overflow. -/
def rtParseI64 (text : List UInt8) : Option Int :=
  let p := text.dropWhile rtIsSpace
  let negative := p.head? = some asciiMinus
  let p := decSkipSign p
  match p with
  | [] => none
  | c :: _ =>
    if isDigit c then
      let cap := if negative then 2 ^ 63 else 2 ^ 63 - 1
      let (value, overflowed) := rtParseDigits cap p 0 false
      let value := if overflowed then cap else value
      some (if negative then -(value : Int) else value)
    else none

structure DecParse where
  coeff : BU128
  fractional : Int
  afterDot : Bool
  seenNonzero : Bool
  significant : ℕ

/-- One mantissa digit; `none` past the 38th significant one. -/
def decParseDigit (c : UInt8) (st : DecParse) : Option DecParse :=
  let st :=
    if st.afterDot then { st with fractional := st.fractional + 1 } else st
  if st.seenNonzero = false ∧ c = asciiZero then some st
  else if bdecPrecision < st.significant + 1 then none
  else
    match buMulSmall st.coeff 10 with
    | none => none
    | some multiplied =>
      match buAddSmall multiplied (c - asciiZero).toUInt32 with
      | none => none
      | some coeff =>
        some { st with
          coeff := coeff
          seenNonzero := true
          significant := st.significant + 1 }

/-- The mantissa loop, up to the exponent. -/
def decParseBody : List UInt8 → DecParse → Option (DecParse × Int)
  | [], st => some (st, 0)
  | c :: cs, st =>
    if c = asciiUnderscore then decParseBody cs st
    else if c = asciiDot then decParseBody cs { st with afterDot := true }
    else if isExponentMark c then
      match rtParseI64 cs with
      | none => none
      | some exponent => some (st, exponent)
    else
      match decParseDigit c st with
      | none => none
      | some st => decParseBody cs st

/-- A negative scale is multiplied out; a zero keeps a scale that fits. -/
def decParseScale (st : DecParse) (neg : Bool) (scale : Int) : Option BDec :=
  if st.seenNonzero = false then
    let scale := if scale < 0 then 0 else scale
    if bdecMaxScale < scale then none else some (decSet ⟨0, 0⟩ false scale)
  else if scale < 0 then
    let append := -scale
    if (bdecPrecision : Int) < append ∨
        (bdecPrecision : Int) < st.significant + append then none
    else
      match decPowerLoop append.toNat st.coeff with
      | none => none
      | some coeff =>
        if 0 < buCmp coeff decCoeffLimit then none
        else some (decSet coeff neg 0)
  else if bdecMaxScale < scale ∨ 0 < buCmp st.coeff decCoeffLimit then none
  else some (decSet st.coeff neg scale)

/-- A decimal, if the text is a valid one that fits. -/
def decParseText (s : List UInt8) : Option BDec :=
  if decValidC s then
    match decParseBody (decSkipSign s) ⟨⟨0, 0⟩, 0, false, false, 0⟩ with
    | none => none
    | some (st, exponent) =>
      decParseScale st (s.head? = some asciiMinus) (st.fractional - exponent)
  else none

/-- An exponent as it is spelled. -/
structure Exponent where
  mark : UInt8
  sign : Option UInt8
  digits : List UInt8
  mark_ok : isExponentMark mark = true
  sign_ok : ∀ c ∈ sign, isSign c = true
  digits_ok : ∀ c ∈ digits, isDigit c = true
  digits_ne : digits ≠ []

/-- A digit or the underscore that groups digits. -/
def isDigitPart (c : UInt8) : Bool := isDigit c || c == asciiUnderscore

/-- An unsigned decimal spelling: digits, a fraction, an exponent. -/
structure Spelling where
  first : UInt8
  whole : List UInt8
  fraction : Option (List UInt8)
  exponent : Option Exponent
  first_ok : isDigit first = true
  whole_ok : ∀ c ∈ whole, isDigitPart c = true
  fraction_ok : ∀ ds ∈ fraction, ∀ c ∈ ds, isDigitPart c = true

/-- The number a run of digits denotes, read on from `v`. -/
def digitsFold : ℕ → List UInt8 → ℕ
  | v, [] => v
  | v, c :: cs =>
    if c = asciiUnderscore then digitsFold v cs
    else digitsFold (10 * v + digitValue c) cs

/-- The digits of a run, underscores left out. -/
def digitCount (ds : List UInt8) : ℕ := ds.countP (· ≠ asciiUnderscore)

namespace Exponent

def text (e : Exponent) : List UInt8 :=
  e.mark :: (e.sign.toList ++ e.digits)

def magnitude (e : Exponent) : ℕ := digitsFold 0 e.digits

def negative (e : Exponent) : Bool := e.sign = some asciiMinus

def value (e : Exponent) : ℤ :=
  if e.negative then -(e.magnitude : ℤ) else e.magnitude

end Exponent

namespace Spelling

def fractionText (l : Spelling) : List UInt8 :=
  match l.fraction with
  | none => []
  | some ds => asciiDot :: ds

def exponentText (l : Spelling) : List UInt8 :=
  match l.exponent with
  | none => []
  | some e => e.text

def text (l : Spelling) : List UInt8 :=
  l.first :: (l.whole ++ (l.fractionText ++ l.exponentText))

/-- All mantissa digits read as one number. -/
def number (l : Spelling) : ℕ :=
  digitsFold (digitsFold 0 (l.first :: l.whole)) (l.fraction.getD [])

def fractional (l : Spelling) : ℕ := digitCount (l.fraction.getD [])

def exponentMagnitude (l : Spelling) : ℕ :=
  (l.exponent.map Exponent.magnitude).getD 0

def exponentValue (l : Spelling) : ℤ :=
  (l.exponent.map Exponent.value).getD 0

/-- The scale the spelling asks for. -/
def scale (l : Spelling) : ℤ := l.fractional - l.exponentValue

/-- The number the spelling denotes. -/
def toRat (l : Spelling) : ℚ := workingRat l.number l.scale

end Spelling

/-- A coefficient and a scale fit 38 digits and the scale range, once a
negative scale is written as trailing zeros. -/
def InRange (n : ℕ) (scale : ℤ) : Prop :=
  n * 10 ^ (-scale).toNat < 10 ^ bdecPrecision ∧ scale ≤ bdecMaxScale

open Classical in
/-- The decimal of a coefficient and a scale, where there is one. -/
noncomputable def decimalOf (negative : Bool) (n : ℕ) (scale : ℤ) :
    Option BDec :=
  if InRange n scale then
    some (decSet (BU128.ofNat (n * 10 ^ (-scale).toNat)) negative (max scale 0))
  else none

theorem isDigit_iff (c : UInt8) : isDigit c = true ↔ 48 ≤ c.toNat ∧ c.toNat ≤ 57 := by
  simp [isDigit, asciiZero, asciiNine, UInt8.le_iff_toNat_le]

variable {c : UInt8} {f v : ℕ} {d : BDec}

theorem digitValue_lt (h : isDigit c = true) : digitValue c < 10 := by
  rw [isDigit_iff] at h
  unfold digitValue
  omega

/-- A digit is none of the other bytes a spelling uses. -/
theorem isDigit_ne (h : isDigit c = true) :
    c ≠ asciiUnderscore ∧ c ≠ asciiDot ∧ isExponentMark c = false ∧
      isSign c = false ∧ rtIsSpace c = false := by
  rw [isDigit_iff] at h
  have hne : ∀ d : UInt8, d.toNat < 48 ∨ 57 < d.toNat → c ≠ d := by
    rintro d hd rfl
    omega
  have hbeq : ∀ d : UInt8, d.toNat < 48 ∨ 57 < d.toNat → (c == d) = false := by
    intro d hd
    rw [beq_eq_false_iff_ne]
    exact hne d hd
  refine ⟨hne _ (by decide), hne _ (by decide), ?_, ?_, ?_⟩
  · rw [isExponentMark, hbeq _ (by decide), hbeq _ (by decide)]
    rfl
  · rw [isSign, hbeq _ (by decide), hbeq _ (by decide)]
    rfl
  · rw [rtIsSpace, hbeq _ (by decide), hbeq _ (by decide), hbeq _ (by decide),
      hbeq _ (by decide)]
    rfl

theorem le_digitsFold :
    ∀ (v : ℕ) (ds : List UInt8), v ≤ digitsFold v ds
  | v, [] => le_rfl
  | v, c :: cs => by
      unfold digitsFold
      split_ifs
      · exact le_digitsFold v cs
      · exact le_trans (by omega) (le_digitsFold _ cs)

theorem digitsFold_append (v : ℕ) (xs ys : List UInt8) :
    digitsFold v (xs ++ ys) = digitsFold (digitsFold v xs) ys := by
  induction xs generalizing v with
  | nil => rfl
  | cons x xs ih =>
    rw [List.cons_append, digitsFold, digitsFold]
    split_ifs
    · exact ih v
    · exact ih _

/-- The parse state after mantissa digits that denote `v`. -/
def parsed (v fractional : ℕ) (afterDot : Bool) : DecParse :=
  ⟨BU128.ofNat v, fractional, afterDot, decide (v ≠ 0),
    if v = 0 then 0 else numDigits v⟩

theorem numDigits_mul_ten_add {d : ℕ} (hv : 0 < v) (hd : d < 10) :
    numDigits (10 * v + d) = numDigits v + 1 := by
  have hdiv : (10 * v + d) / 10 = v := by omega
  rw [← numDigits_div_ten (by omega), hdiv]

/-- A digit is taken in as long as the mantissa stays below 38 digits. -/
theorem decParseDigit_spec (dot : Bool)
    (hc : isDigit c = true) (hv : v < 10 ^ bdecPrecision) :
    decParseDigit c (parsed v f dot) =
      if 10 * v + digitValue c < 10 ^ bdecPrecision then
        some (parsed (10 * v + digitValue c) (f + if dot then 1 else 0) dot)
      else none := by
  have hstep : (if (parsed v f dot).afterDot then
      { parsed v f dot with fractional := (parsed v f dot).fractional + 1 }
      else parsed v f dot) = parsed v (f + if dot then 1 else 0) dot := by
    cases dot <;> rfl
  have hdigit := digitValue_lt hc
  have hvalue : digitValue c = c.toNat - 48 := rfl
  have hbyte := (isDigit_iff c).mp hc
  have hsub : (c - asciiZero).toUInt32.toNat = digitValue c := by
    have h48 : asciiZero.toNat = 48 := rfl
    rw [UInt8.toNat_toUInt32, UInt8.toNat_sub_of_le _ _ (by
      rw [UInt8.le_iff_toNat_le]; omega), h48, hvalue]
  have hzero : c = asciiZero ↔ digitValue c = 0 := by
    rw [← UInt8.toNat_inj]
    have h48 : asciiZero.toNat = 48 := rfl
    omega
  have hnext : 10 * v + digitValue c < 10 ^ bdecPrecision →
      buMulSmall (BU128.ofNat v) 10 = some (BU128.ofNat (v * 10)) ∧
        buAddSmall (BU128.ofNat (v * 10)) (c - asciiZero).toUInt32 =
          some (BU128.ofNat (10 * v + digitValue c)) := by
    intro hlt
    have h128 : 10 ^ bdecPrecision < 2 ^ 128 := by norm_num [bdecPrecision]
    have hten : (10 : UInt32).toNat = 10 := rfl
    have hcoeff := BU128.toNat_ofNat (n := v) (by omega)
    have hprod := BU128.toNat_ofNat (n := v * 10) (by omega)
    constructor
    · rw [buMulSmall_of_lt (by rw [hcoeff, hten]; omega), hcoeff, hten]
    · rw [buAddSmall_of_lt (by rw [hprod, hsub]; omega), hprod, hsub,
        Nat.mul_comm]
  unfold decParseDigit
  rw [hstep]
  generalize f + (if dot then 1 else 0) = f'
  have hseen : (parsed v f' dot).seenNonzero = false ↔ v = 0 := by
    simp [parsed]
  have hcoeff : (parsed v f' dot).coeff = BU128.ofNat v := rfl
  have hskip := and_congr hseen hzero
  dsimp only
  rw [hcoeff]
  rcases Nat.eq_zero_or_pos v with rfl | hpos
  · have hsig : (parsed 0 f' dot).significant = 0 := rfl
    have hsmall : 10 * 0 + digitValue c < 10 ^ bdecPrecision :=
      lt_trans (by omega) (by norm_num [bdecPrecision] : 10 < 10 ^ bdecPrecision)
    by_cases hd : digitValue c = 0
    · rw [if_pos (hskip.mpr ⟨rfl, hd⟩), hd, if_pos (by norm_num [bdecPrecision])]
    · have hlog : numDigits (digitValue c) = 1 := by
        rw [numDigits, Nat.log_of_lt hdigit]
      obtain ⟨hmul, hadd⟩ := hnext hsmall
      rw [if_neg (by tauto), if_neg (by rw [hsig]; decide), hmul, if_pos hsmall]
      dsimp only
      rw [hadd]
      simp [parsed, hd, hlog]
  · have hsig : (parsed v f' dot).significant = numDigits v := if_neg (by omega)
    have hmore := numDigits_mul_ten_add hpos hdigit
    have hfit := numDigits_le_iff (n := 10 * v + digitValue c)
      (k := bdecPrecision) (by decide)
    rw [if_neg (fun h => by have := hskip.mp h; omega)]
    by_cases hlt : 10 * v + digitValue c < 10 ^ bdecPrecision
    · obtain ⟨hmul, hadd⟩ := hnext hlt
      have hle := hfit.mpr hlt
      rw [if_neg (by omega), if_pos hlt, hmul]
      dsimp only
      rw [hadd]
      simp [parsed, hmore, hpos.ne']
    · have hgt := mt hfit.mp hlt
      rw [if_pos (by omega), if_neg hlt]

theorem decParseBody_digits :
    ∀ (ds rest : List UInt8) (v f : ℕ) (dot : Bool),
      (∀ c ∈ ds, isDigitPart c = true) → v < 10 ^ bdecPrecision →
      decParseBody (ds ++ rest) (parsed v f dot) =
        if digitsFold v ds < 10 ^ bdecPrecision then
          decParseBody rest (parsed (digitsFold v ds)
            (f + if dot then digitCount ds else 0) dot)
        else none
  | [], rest, v, f, dot, _, hv => by
      rw [digitsFold, if_pos hv]
      simp [digitCount]
  | c :: cs, rest, v, f, dot, hall, hv => by
      have hcs : ∀ d ∈ cs, isDigitPart d = true :=
        fun d hd => hall d (List.mem_cons_of_mem c hd)
      have hc := hall c List.mem_cons_self
      rw [List.cons_append, decParseBody]
      by_cases hunder : c = asciiUnderscore
      · rw [if_pos hunder, decParseBody_digits cs rest v f dot hcs hv,
          digitsFold, if_pos hunder]
        simp [digitCount, hunder]
      · have hdigit : isDigit c = true := by
          rw [isDigitPart, Bool.or_eq_true, beq_iff_eq] at hc
          exact hc.resolve_right hunder
        obtain ⟨-, hdot, hmark, -, -⟩ := isDigit_ne hdigit
        rw [if_neg hunder, if_neg hdot, if_neg (by simp [hmark]),
          decParseDigit_spec dot hdigit hv, digitsFold, if_neg hunder]
        by_cases hfit : 10 * v + digitValue c < 10 ^ bdecPrecision
        · rw [if_pos hfit]
          dsimp only
          rw [decParseBody_digits cs rest _ _ dot hcs hfit]
          have hcount : f + (if dot then 1 else 0) +
              (if dot then digitCount cs else 0) =
              f + if dot then digitCount (c :: cs) else 0 := by
            cases dot with
            | false => rfl
            | true =>
              simp [digitCount, hunder]
              omega
          rw [hcount]
        · have := le_digitsFold (10 * v + digitValue c) cs
          rw [if_neg hfit, if_neg (by omega)]

theorem decSet_zero_sign (negative : Bool) (scale : ℤ) :
    decSet (BU128.ofNat 0) negative scale = decSet ⟨0, 0⟩ false scale := by
  cases negative <;> rfl

/-- The scale step makes the decimal of the digits, or refuses them. -/
theorem decParseScale_spec (dot neg : Bool) (scale : ℤ)
    (hv : v < 10 ^ bdecPrecision) :
    decParseScale (parsed v f dot) neg scale = decimalOf neg v scale := by
  have hzero : (parsed v f dot).seenNonzero = false ↔ v = 0 := by
    simp [parsed]
  have hlimit := decCoeffLimit_toNat
  have h128 : 10 ^ bdecPrecision < 2 ^ 128 := by norm_num [bdecPrecision]
  have hbelow : ∀ n, n < 10 ^ bdecPrecision →
      ¬ 0 < buCmp (BU128.ofNat n) decCoeffLimit := by
    intro n hn
    rw [buCmp_eq, BU128.toNat_ofNat (by omega), hlimit]
    split_ifs <;> omega
  have hmax : (0 : ℤ) ≤ bdecMaxScale := by decide
  unfold decParseScale decimalOf
  rcases Nat.eq_zero_or_pos v with rfl | hpos
  · rw [if_pos (hzero.mpr rfl)]
    have hmaxEq : (if scale < 0 then 0 else scale) = max scale 0 := by
      split_ifs <;> omega
    dsimp only
    rw [hmaxEq]
    by_cases hs : bdecMaxScale < scale
    · rw [if_pos (by omega), if_neg (fun h => absurd h.2 (by omega))]
    · rw [if_neg (by omega),
        if_pos ⟨by rw [Nat.zero_mul]; positivity, by omega⟩, Nat.zero_mul,
        decSet_zero_sign]
  · rw [if_neg (fun h => by have := hzero.mp h; omega)]
    rcases lt_or_ge scale 0 with hneg | hnonneg
    · obtain ⟨append, rfl⟩ : ∃ append : ℕ, scale = -(append : ℤ) :=
        ⟨(-scale).toNat, by omega⟩
      have hsig : (parsed v f dot).significant = numDigits v :=
        if_neg (by omega)
      have hdigits : numDigits v + append ≤ bdecPrecision ↔
          v * 10 ^ append < 10 ^ bdecPrecision := by
        rw [← numDigits_mul_pow hpos, numDigits_le_iff (by decide)]
      have hone : 0 < numDigits v := Nat.succ_pos _
      have hin : InRange v (-(append : ℤ)) ↔
          v * 10 ^ append < 10 ^ bdecPrecision := by
        unfold InRange
        rw [neg_neg, Int.toNat_natCast]
        exact and_iff_left (by omega)
      rw [if_pos hneg]
      dsimp only
      rw [neg_neg]
      by_cases hfit : v * 10 ^ append < 10 ^ bdecPrecision
      · have hle := hdigits.mpr hfit
        have hv128 := BU128.toNat_ofNat (n := v) (by omega)
        have hcoeff : (parsed v f dot).coeff = BU128.ofNat v := rfl
        rw [if_neg (by rw [hsig]; omega), if_pos (hin.mpr hfit), hcoeff,
          Int.toNat_natCast,
          decPowerLoop_of_lt append (by rw [hv128]; omega), hv128]
        dsimp only
        rw [if_neg (hbelow _ hfit), max_eq_right (by omega)]
      · have hgt := mt hdigits.mp hfit
        rw [if_pos (by rw [hsig]; omega), if_neg (mt hin.mp hfit)]
    · have hpow : v * 10 ^ (-scale).toNat = v := by
        rw [show (-scale).toNat = 0 by omega, pow_zero, Nat.mul_one]
      have hcoeff : (parsed v f dot).coeff = BU128.ofNat v := rfl
      rw [if_neg (by omega), hcoeff]
      by_cases hs : bdecMaxScale < scale
      · rw [if_pos (Or.inl hs), if_neg (fun h => absurd h.2 (by omega))]
      · rw [if_neg (not_or.mpr ⟨hs, hbelow _ hv⟩),
          if_pos ⟨by rw [hpow]; exact hv, by omega⟩, hpow, max_eq_left hnonneg]

theorem rtParseDigits_overflowed (cap : ℕ) :
    ∀ (ds : List UInt8) (v : ℕ), (rtParseDigits cap ds v true).2 = true
  | [], _ => rfl
  | c :: cs, v => by
      unfold rtParseDigits
      split_ifs
      · exact rtParseDigits_overflowed cap cs v
      · exact rtParseDigits_overflowed cap cs _
      · rfl

theorem rtParseDigits_spec {cap : ℕ} (hcap : 9 ≤ cap) :
    ∀ (ds : List UInt8) (v : ℕ), (∀ c ∈ ds, isDigit c = true) →
      (digitsFold v ds ≤ cap →
        rtParseDigits cap ds v false = (digitsFold v ds, false)) ∧
      (v ≤ cap → cap < digitsFold v ds →
        (rtParseDigits cap ds v false).2 = true)
  | [], v, _ => ⟨fun _ => rfl, fun hv h => absurd h (not_lt.mpr hv)⟩
  | c :: cs, v, hall => by
      have hc := hall c List.mem_cons_self
      have hcs : ∀ d ∈ cs, isDigit d = true :=
        fun d hd => hall d (List.mem_cons_of_mem c hd)
      have hlt := digitValue_lt hc
      have hstep : (cap - digitValue c) / 10 < v ↔
          cap < 10 * v + digitValue c := by
        omega
      have hrest := le_digitsFold (10 * v + digitValue c) cs
      obtain ⟨ih₁, ih₂⟩ := rtParseDigits_spec hcap cs (v * 10 + digitValue c) hcs
      rw [Nat.mul_comm v] at ih₁ ih₂
      unfold rtParseDigits digitsFold
      rw [if_pos hc, if_neg (isDigit_ne hc).1, Nat.mul_comm v]
      constructor
      · intro hle
        rw [if_neg (by omega)]
        exact ih₁ hle
      · intro _ hgt
        split_ifs with h
        · exact rtParseDigits_overflowed cap cs v
        · exact ih₂ (by omega) hgt

/-- The exponent as the runtime's integer parser reads it. -/
def Exponent.saturated (e : Exponent) : ℤ :=
  if e.negative then -(min e.magnitude (2 ^ 63) : ℕ)
  else (min e.magnitude (2 ^ 63 - 1) : ℕ)

theorem isSign_ne (h : isSign c = true) :
    rtIsSpace c = false ∧ (c = asciiPlus ∨ c = asciiMinus) := by
  rw [isSign, Bool.or_eq_true, beq_iff_eq, beq_iff_eq] at h
  rcases h with rfl | rfl
  · exact ⟨rfl, Or.inl rfl⟩
  · exact ⟨rfl, Or.inr rfl⟩

/-- Reading past the sign of an exponent leaves its digits. -/
theorem decSkipSign_exponent (e : Exponent) :
    decSkipSign (e.sign.toList ++ e.digits) = e.digits := by
  cases hs : e.sign with
  | none =>
    cases hd : e.digits with
    | nil => exact absurd hd e.digits_ne
    | cons c cs =>
      have hc := e.digits_ok c (by rw [hd]; exact List.mem_cons_self)
      exact if_neg (by rw [(isDigit_ne hc).2.2.2.1]; decide)
  | some c => exact if_pos (e.sign_ok c (by rw [hs]; rfl))

/-- The exponent text starts with a minus exactly when it is negative. -/
theorem Exponent.head_tail (e : Exponent) :
    (e.sign.toList ++ e.digits).head? = some asciiMinus ↔
      e.negative = true := by
  obtain ⟨d, ds, hd⟩ := List.exists_cons_of_ne_nil e.digits_ne
  have hdigit := e.digits_ok d (by rw [hd]; exact List.mem_cons_self)
  unfold Exponent.negative
  rw [decide_eq_true_iff]
  cases hs : e.sign with
  | none =>
    rw [hd]
    refine ⟨fun h => ?_, fun h => by cases h⟩
    have hminus : d = asciiMinus := by simpa using h
    rw [hminus] at hdigit
    exact absurd hdigit (by decide)
  | some c => simp

theorem Exponent.dropWhile_space (e : Exponent) :
    (e.sign.toList ++ e.digits).dropWhile rtIsSpace =
      e.sign.toList ++ e.digits := by
  obtain ⟨d, ds, hd⟩ := List.exists_cons_of_ne_nil e.digits_ne
  have hdigit := e.digits_ok d (by rw [hd]; exact List.mem_cons_self)
  cases hs : e.sign with
  | none =>
    rw [hd]
    exact List.dropWhile_cons_of_neg (by
      rw [(isDigit_ne hdigit).2.2.2.2]; decide)
  | some c =>
    exact List.dropWhile_cons_of_neg (by
      rw [(isSign_ne (e.sign_ok c (by rw [hs]; rfl))).1]; decide)

theorem rtParseI64_exponent (e : Exponent) :
    rtParseI64 (e.sign.toList ++ e.digits) = some e.saturated := by
  obtain ⟨d, ds, hd⟩ := List.exists_cons_of_ne_nil e.digits_ne
  have hdigit := e.digits_ok d (by rw [hd]; exact List.mem_cons_self)
  have hspace := e.dropWhile_space
  have hhead := e.head_tail
  have hread : ∀ cap : ℕ, 9 ≤ cap →
      (if (rtParseDigits cap e.digits 0 false).2 then cap
        else (rtParseDigits cap e.digits 0 false).1) = min e.magnitude cap := by
    intro cap hcap
    obtain ⟨hfits, hover⟩ := rtParseDigits_spec hcap e.digits 0 e.digits_ok
    rcases le_or_gt e.magnitude cap with hle | hgt
    · rw [hfits hle, min_eq_left hle]
      rfl
    · rw [hover (Nat.zero_le _) hgt, min_eq_right hgt.le]
      rfl
  unfold rtParseI64 Exponent.saturated
  rw [hspace]
  dsimp only
  rw [decSkipSign_exponent, hd]
  dsimp only
  rw [if_pos hdigit, ← hd]
  by_cases hneg : e.negative = true
  · rw [if_pos (hhead.mpr hneg), if_pos (hhead.mpr hneg), if_pos hneg,
      hread _ (by norm_num)]
  · rw [if_neg (mt hhead.mp hneg), if_neg (mt hhead.mp hneg), if_neg hneg,
      hread _ (by norm_num)]

theorem decValidExponent_spec :
    ∀ (ds : List UInt8) (ev : ℕ), (∀ c ∈ ds, isDigit c = true) → ev ≤ 4096 →
      decValidExponent ds ev = decide (digitsFold ev ds ≤ 4096)
  | [], ev, _, hev => by simp [decValidExponent, digitsFold, hev]
  | c :: cs, ev, hall, _ => by
      have hc := hall c List.mem_cons_self
      have hcs : ∀ d ∈ cs, isDigit d = true :=
        fun d hd => hall d (List.mem_cons_of_mem c hd)
      have hle := le_digitsFold (10 * ev + digitValue c) cs
      unfold decValidExponent digitsFold
      rw [if_pos hc, if_neg (isDigit_ne hc).1, Nat.mul_comm ev]
      dsimp only
      split_ifs with hbig
      · symm
        rw [decide_eq_false_iff_not]
        omega
      · exact decValidExponent_spec cs _ hcs (by omega)

theorem decValidBody_digits :
    ∀ (ds rest : List UInt8) (n : ℕ) (dot : Bool),
      (∀ c ∈ ds, isDigitPart c = true) →
      decValidBody (ds ++ rest) n dot = decValidBody rest (n + digitCount ds) dot
  | [], rest, n, dot, _ => by simp [digitCount]
  | c :: cs, rest, n, dot, hall => by
      have hcs : ∀ d ∈ cs, isDigitPart d = true :=
        fun d hd => hall d (List.mem_cons_of_mem c hd)
      have hc := hall c List.mem_cons_self
      rw [isDigitPart, Bool.or_eq_true, beq_iff_eq] at hc
      rw [List.cons_append, decValidBody]
      by_cases hdigit : isDigit c = true
      · have hunder := (isDigit_ne hdigit).1
        rw [if_pos hdigit, decValidBody_digits cs rest _ dot hcs]
        congr 1
        simp [digitCount, hunder]
        omega
      · have hunder := hc.resolve_left hdigit
        rw [if_neg hdigit, if_pos hunder, decValidBody_digits cs rest _ dot hcs]
        congr 1
        simp [digitCount, hunder]

/-- A spelling is valid when its exponent stays within 4096. -/
theorem decValidBody_exponent (e : Exponent) {n : ℕ} (dot : Bool) (hn : 0 < n) :
    decValidBody e.text n dot = decide (e.magnitude ≤ 4096) := by
  obtain ⟨d, ds, hd⟩ := List.exists_cons_of_ne_nil e.digits_ne
  have hdigit := e.digits_ok d (by rw [hd]; exact List.mem_cons_self)
  have hmark : ∀ c, isExponentMark c = true →
      isDigit c = false ∧ c ≠ asciiUnderscore ∧ c ≠ asciiDot := by
    intro c hc
    rw [isExponentMark, Bool.or_eq_true, beq_iff_eq, beq_iff_eq] at hc
    rcases hc with rfl | rfl <;> decide
  obtain ⟨h₁, h₂, h₃⟩ := hmark e.mark e.mark_ok
  rw [Exponent.text, decValidBody, if_neg (by rw [h₁]; decide), if_neg h₂,
    if_neg (fun h => h₃ h.1), if_pos ⟨e.mark_ok, hn⟩, decSkipSign_exponent, hd]
  dsimp only
  rw [if_pos hdigit, ← hd]
  exact decValidExponent_spec e.digits 0 e.digits_ok (by omega)

namespace Spelling

variable (l : Spelling)

theorem digits_ok : ∀ c ∈ l.first :: l.whole, isDigitPart c = true := by
  intro c hc
  rcases List.mem_cons.mp hc with rfl | hc
  · rw [isDigitPart, l.first_ok, Bool.true_or]
  · exact l.whole_ok c hc

theorem text_eq :
    l.text = (l.first :: l.whole) ++ (l.fractionText ++ l.exponentText) := rfl

theorem digitCount_pos : 0 < digitCount (l.first :: l.whole) := by
  have hunder := (isDigit_ne l.first_ok).1
  simp [digitCount, hunder]

theorem decValidBody_text :
    decValidBody l.text 0 false = decide (l.exponentMagnitude ≤ 4096) := by
  have hpos := l.digitCount_pos
  rw [text_eq, decValidBody_digits _ _ _ _ l.digits_ok]
  have hexp : ∀ (n : ℕ) (dot : Bool), 0 < n →
      decValidBody l.exponentText n dot =
        decide (l.exponentMagnitude ≤ 4096) := by
    intro n dot hn
    unfold exponentText exponentMagnitude
    cases he : l.exponent with
    | none => simp [decValidBody, hn]
    | some e => exact decValidBody_exponent e dot hn
  unfold fractionText
  cases hf : l.fraction with
  | none => exact hexp _ _ (by omega)
  | some ds =>
    have hds := l.fraction_ok ds (by rw [hf]; rfl)
    rw [List.cons_append, decValidBody, if_neg (by decide), if_neg (by decide),
      if_pos ⟨rfl, rfl⟩, decValidBody_digits _ _ _ _ hds]
    exact hexp _ _ (by omega)

theorem decSkipSign_text : decSkipSign l.text = l.text :=
  if_neg (by rw [(isDigit_ne l.first_ok).2.2.2.1]; decide)

theorem decParseBody_exponent (st : DecParse) :
    decParseBody l.exponentText st =
      some (st, (l.exponent.map Exponent.saturated).getD 0) := by
  unfold exponentText
  cases l.exponent with
  | none => rfl
  | some e =>
    have hmark := e.mark_ok
    have hne : e.mark ≠ asciiUnderscore ∧ e.mark ≠ asciiDot := by
      rw [isExponentMark, Bool.or_eq_true, beq_iff_eq, beq_iff_eq] at hmark
      rcases hmark with h | h <;> rw [h] <;> decide
    dsimp only
    rw [Exponent.text, decParseBody, if_neg hne.1, if_neg hne.2,
      if_pos hmark, rtParseI64_exponent]
    rfl

theorem decParseBody_text :
    decParseBody l.text (parsed 0 0 false) =
      if l.number < 10 ^ bdecPrecision then
        some (parsed l.number l.fractional l.fraction.isSome,
          (l.exponent.map Exponent.saturated).getD 0)
      else none := by
  rw [text_eq, decParseBody_digits _ _ _ _ _ l.digits_ok (by positivity)]
  unfold fractionText number fractional
  cases hf : l.fraction with
  | none =>
    dsimp only
    rw [List.nil_append, decParseBody_exponent]
    rfl
  | some ds =>
    have hds := l.fraction_ok ds (by rw [hf]; rfl)
    have hle := le_digitsFold (digitsFold 0 (l.first :: l.whole)) ds
    simp only [Option.getD_some, Option.isSome_some]
    by_cases hwhole : digitsFold 0 (l.first :: l.whole) < 10 ^ bdecPrecision
    · rw [if_pos hwhole, List.cons_append, decParseBody,
        if_neg (by decide), if_pos rfl]
      have hdot : ({ parsed (digitsFold 0 (l.first :: l.whole))
          (0 + if false = true then digitCount (l.first :: l.whole) else 0)
          false with afterDot := true } : DecParse) =
          parsed (digitsFold 0 (l.first :: l.whole)) 0 true := rfl
      rw [hdot, decParseBody_digits _ _ _ _ _ hds hwhole,
        decParseBody_exponent, if_pos rfl, Nat.zero_add]
    · rw [if_neg hwhole, if_neg (by omega)]

/-- Below the cap nothing is saturated. -/
theorem saturated_eq (h : l.exponentMagnitude ≤ 4096) :
    (l.exponent.map Exponent.saturated).getD 0 = l.exponentValue := by
  unfold exponentMagnitude at h
  unfold exponentValue
  cases he : l.exponent with
  | none => rfl
  | some e =>
    rw [he] at h
    simp only [Option.map_some, Option.getD_some] at h ⊢
    unfold Exponent.saturated Exponent.value
    rw [min_eq_left (by omega), min_eq_left (by omega)]

/-- The reader takes every spelling whose exponent stays within 4096 to the
decimal of its digits and scale. -/
theorem decParseText_spec (neg : Bool) :
    decParseText ((if neg then [asciiMinus] else []) ++ l.text) =
      if l.exponentMagnitude ≤ 4096 then decimalOf neg l.number l.scale
      else none := by
  have hskip : decSkipSign ((if neg then [asciiMinus] else []) ++ l.text) =
      l.text := by
    cases neg with
    | false => exact l.decSkipSign_text
    | true => rfl
  have hhead : decide (((if neg then [asciiMinus] else []) ++ l.text).head? =
      some asciiMinus) = neg := by
    cases neg with
    | false =>
      rw [decide_eq_false_iff_not]
      intro h
      have hfirst : l.first = asciiMinus := by simpa [text] using h
      have hdigit := l.first_ok
      rw [hfirst] at hdigit
      exact absurd hdigit (by decide)
    | true => rfl
  unfold decParseText decValidC
  rw [hskip, l.decValidBody_text, hhead]
  by_cases hexp : l.exponentMagnitude ≤ 4096
  · have hstart : (⟨⟨0, 0⟩, 0, false, false, 0⟩ : DecParse) = parsed 0 0 false :=
      rfl
    rw [if_pos (by simpa using hexp), if_pos hexp, hstart, l.decParseBody_text]
    by_cases hfit : l.number < 10 ^ bdecPrecision
    · rw [if_pos hfit]
      dsimp only
      rw [decParseScale_spec _ _ _ hfit, l.saturated_eq hexp]
      rfl
    · have hout : ¬ InRange l.number l.scale := by
        intro h
        have := Nat.le_mul_of_pos_right l.number
          (show 0 < 10 ^ (-l.scale).toNat by positivity)
        have := h.1
        omega
      rw [if_neg hfit, decimalOf, if_neg hout]
  · rw [if_neg (by simpa using hexp), if_neg hexp]

end Spelling

/-- The number a digit string denotes, least significant digit first. -/
def reversedValue : List UInt8 → ℕ
  | [] => 0
  | c :: cs => digitValue c + 10 * reversedValue cs

theorem digitsFold_reverse :
    ∀ ds : List UInt8, (∀ c ∈ ds, isDigit c = true) →
      digitsFold 0 ds.reverse = reversedValue ds
  | [], _ => rfl
  | c :: cs, hall => by
      have hc := hall c List.mem_cons_self
      have hcs : ∀ d ∈ cs, isDigit d = true :=
        fun d hd => hall d (List.mem_cons_of_mem c hd)
      rw [List.reverse_cons, digitsFold_append, digitsFold_reverse cs hcs,
        digitsFold, if_neg (isDigit_ne hc).1, digitsFold, reversedValue,
        Nat.add_comm]

theorem reversedValue_zeros : ∀ k : ℕ,
    reversedValue (List.replicate k asciiZero) = 0
  | 0 => rfl
  | k + 1 => by
      rw [List.replicate_succ, reversedValue, reversedValue_zeros k]
      decide

theorem reversedValue_append_zeros (ds : List UInt8) (k : ℕ) :
    reversedValue (ds ++ List.replicate k asciiZero) = reversedValue ds := by
  induction ds with
  | nil => exact reversedValue_zeros k
  | cons c cs ih => rw [List.cons_append, reversedValue, ih, reversedValue]

theorem decStrDigits_spec :
    ∀ (fuel : ℕ) (m : BU128), m.toNat < 10 ^ fuel →
      reversedValue (decStrDigits fuel m) = m.toNat ∧
        ∀ c ∈ decStrDigits fuel m, isDigit c = true
  | 0, m, h => by
      have hzero : m.toNat = 0 := by simpa using h
      simp [decStrDigits, reversedValue, hzero]
  | fuel + 1, m, h => by
      unfold decStrDigits
      by_cases hzero : m.toNat = 0
      · rw [if_pos ((buZero_eq_true_iff m).mpr hzero)]
        simp [reversedValue, hzero]
      · rw [if_neg (mt (buZero_eq_true_iff m).mp hzero)]
        obtain ⟨q, r, hdiv, hq, hr⟩ :=
          buDivSmall_spec m 10 (by decide)
        have hten : (10 : UInt32).toNat = 10 := rfl
        rw [hten] at hq hr
        obtain ⟨hval, hall⟩ := decStrDigits_spec fuel q
          (by rw [hq]; exact Nat.div_lt_of_lt_mul (by rwa [pow_succ'] at h))
        have hbyte : (asciiZero + r.toUInt8).toNat = 48 + r.toNat := by
          have h48 : asciiZero.toNat = 48 := rfl
          rw [UInt8.toNat_add, h48, UInt32.toNat_toUInt8]
          omega
        rw [hdiv]
        dsimp only
        constructor
        · rw [reversedValue, hval, digitValue, hbyte, hq]
          omega
        · intro c hc
          rcases List.mem_cons.mp hc with rfl | hc
          · rw [isDigit_iff, hbyte]
            omega
          · exact hall c hc

theorem decStrFill_spec (hd : 0 ≤ d.s) :
    reversedValue (decStrFill d) = (decMag d).toNat ∧
      (∀ c ∈ decStrFill d, isDigit c = true) ∧
      d.s.toNat < (decStrFill d).length := by
  have hzeroByte : isDigit asciiZero = true := by decide
  have hbase : reversedValue (if buZero (decMag d) then [asciiZero]
        else decStrDigits 39 (decMag d)) = (decMag d).toNat ∧
      ∀ c ∈ (if buZero (decMag d) then [asciiZero]
        else decStrDigits 39 (decMag d)), isDigit c = true := by
    by_cases hzero : (decMag d).toNat = 0
    · rw [if_pos ((buZero_eq_true_iff _).mpr hzero), hzero]
      refine ⟨rfl, fun c hc => ?_⟩
      rw [List.mem_singleton.mp hc]
      exact hzeroByte
    · rw [if_neg (mt (buZero_eq_true_iff _).mp hzero)]
      exact decStrDigits_spec 39 _
        (lt_of_lt_of_le (decMag d).toNat_lt (by norm_num))
  unfold decStrFill
  dsimp only
  generalize (if buZero (decMag d) then [asciiZero]
    else decStrDigits 39 (decMag d)) = digits at *
  refine ⟨by rw [reversedValue_append_zeros, hbase.1], fun c hc => ?_, ?_⟩
  · rcases List.mem_append.mp hc with hc | hc
    · exact hbase.2 c hc
    · rw [List.eq_of_mem_replicate hc]
      exact hzeroByte
  · rw [List.length_append, List.length_replicate]
    omega

theorem decStrWrite_fraction (digits : List UInt8) (s : ℕ) :
    ∀ i : ℕ, i ≤ s → i ≤ digits.length →
      decStrWrite digits s i = (digits.take i).reverse
  | 0, _, _ => rfl
  | i + 1, hs, hlen => by
      have hi : i < digits.length := by omega
      rw [decStrWrite, if_neg (by omega), List.nil_append,
        decStrWrite_fraction digits s i (by omega) (by omega),
        List.getD_eq_getElem _ _ hi, List.take_succ_eq_append_getElem hi,
        List.reverse_append]
      rfl

/-- The whole part, the point and the fraction. -/
theorem decStrWrite_whole (digits : List UInt8) (s : ℕ) :
    ∀ k : ℕ, s + 1 + k ≤ digits.length →
      decStrWrite digits s (s + 1 + k) =
        ((digits.take (s + 1 + k)).drop s).reverse ++
          ((if s = 0 then [] else [asciiDot]) ++ (digits.take s).reverse)
  | 0, hlen => by
      have hs : s < digits.length := by omega
      have hlast : (digits.take (s + 1)).drop s = [digits[s]] := by
        rw [List.take_succ_eq_append_getElem hs,
          List.drop_left' (by rw [List.length_take]; omega)]
      have hdot : (if (s : ℤ) = s ∧ s ≠ 0 then [asciiDot] else []) =
          if s = 0 then [] else [asciiDot] := by
        by_cases h : s = 0 <;> simp [h]
      rw [Nat.add_zero, decStrWrite,
        decStrWrite_fraction digits s s le_rfl (by omega), hlast, hdot,
        List.getD_eq_getElem _ _ hs]
      rfl
  | k + 1, hlen => by
      have hk : s + 1 + k < digits.length := by omega
      rw [← Nat.add_assoc, decStrWrite, if_neg (by omega), List.nil_append,
        decStrWrite_whole digits s k (by omega), List.getD_eq_getElem _ _ hk,
        List.take_succ_eq_append_getElem hk,
        List.drop_append_of_le_length (by rw [List.length_take]; omega),
        List.reverse_append]
      rfl

/-- What is written is a sign and a spelling of the magnitude at the scale. -/
theorem beansDecStr_spec (hd : 0 ≤ d.s) :
    ∃ l : Spelling,
      beansDecStr d =
        (if decNegative d then [asciiMinus] else []) ++ l.text ∧
      l.exponent = none ∧ l.number = (decMag d).toNat ∧
      (l.fractional : ℤ) = d.s := by
  obtain ⟨hvalue, hall, hlen⟩ := decStrFill_spec hd
  obtain ⟨s, hs⟩ := Int.eq_ofNat_of_zero_le hd
  unfold beansDecStr
  dsimp only
  rw [hs, Int.toNat_natCast] at hlen
  rw [hs]
  generalize decStrFill d = digits at *
  obtain ⟨k, hk⟩ : ∃ k, digits.length = s + 1 + k :=
    ⟨digits.length - (s + 1), by omega⟩
  have hwrite := decStrWrite_whole digits s k (by omega)
  rw [← hk, List.take_length] at hwrite
  have htake : ∀ c ∈ (digits.take s).reverse, isDigit c = true := by
    intro c hc
    exact hall c (List.mem_of_mem_take (List.mem_reverse.mp hc))
  have hdrop : ∀ c ∈ (digits.drop s).reverse, isDigit c = true := by
    intro c hc
    exact hall c (List.mem_of_mem_drop (List.mem_reverse.mp hc))
  have hpart : ∀ c, isDigit c = true → isDigitPart c = true := by
    intro c hc
    rw [isDigitPart, hc, Bool.true_or]
  obtain ⟨first, whole, hwhole⟩ :=
    List.exists_cons_of_ne_nil (l := (digits.drop s).reverse) (by
      rw [← List.length_pos_iff, List.length_reverse, List.length_drop]
      omega)
  rw [hwhole] at hdrop hwrite
  have hnumber : digitsFold (digitsFold 0 (first :: whole))
      (digits.take s).reverse = (decMag d).toNat := by
    rw [← hwhole, ← digitsFold_append, ← List.reverse_append,
      List.take_append_drop, digitsFold_reverse digits hall, hvalue]
  have hcount : digitCount (digits.take s).reverse = s := by
    have hne : ∀ c ∈ (digits.take s).reverse, decide (c ≠ asciiUnderscore) = true :=
      fun c hc => decide_eq_true (isDigit_ne (htake c hc)).1
    rw [digitCount, List.countP_eq_length.mpr hne, List.length_reverse,
      List.length_take]
    omega
  refine ⟨⟨first, whole,
    if s = 0 then none else some (digits.take s).reverse, none,
    hdrop first List.mem_cons_self,
    fun c hc => hpart c (hdrop c (List.mem_cons_of_mem first hc)), ?_⟩,
    ?_, rfl, ?_, ?_⟩
  · intro ds hds c hc
    split_ifs at hds with h
    · cases hds
    · cases hds
      exact hpart c (htake c hc)
  · rw [hwrite]
    congr 1
    unfold Spelling.text Spelling.fractionText Spelling.exponentText
    by_cases h : s = 0 <;> simp [h]
  · rw [← hnumber]
    unfold Spelling.number
    by_cases h : s = 0 <;> simp [h]
  · have hfrac : digitCount
        ((if s = 0 then none else some (digits.take s).reverse).getD []) = s := by
      by_cases h : s = 0
      · simp [h, digitCount]
      · rw [if_neg h]
        exact hcount
    exact congrArg Nat.cast hfrac

/-- Reading back what was written gives the decimal itself. -/
theorem decParseText_beansDecStr (hd : d.Representable) :
    decParseText (beansDecStr d) = some d := by
  obtain ⟨l, htext, hexp, hnumber, hfrac⟩ := beansDecStr_spec hd.scale_nonneg
  have hmag : l.exponentMagnitude = 0 := by
    simp [Spelling.exponentMagnitude, hexp]
  have hscale : l.scale = d.s := by
    simp [Spelling.scale, Spelling.exponentValue, hexp, hfrac]
  have h0 := hd.scale_nonneg
  have hpow : (decMag d).toNat * 10 ^ (-d.s).toNat = (decMag d).toNat := by
    rw [show (-d.s).toNat = 0 by omega, pow_zero, Nat.mul_one]
  have hlt := hd.decMag_lt
  have h127 : (decMag d).toNat < 2 ^ 127 :=
    lt_trans hlt (by norm_num [bdecPrecision])
  have hval := BU128.toNat_ofNat (n := (decMag d).toNat) (by omega)
  rw [htext, l.decParseText_spec, if_pos (by omega), hnumber, hscale, decimalOf,
    if_pos ⟨by rw [hpow]; exact hlt, hd.scale_le⟩, hpow, max_eq_left h0,
    Option.some_inj]
  refine BDec.eq_of_coeff ?_ rfl
  rw [decSet_coeff _ _ (by rw [hval]; exact h127), hval,
    BDec.coeff_eq_sign_mul]

/--
Comparison is a total order consistent with hashing and text: it never panics
and has the sign of the exact difference, it is transitive across scales, equal
decimals hash alike, and a decimal is read back as it was written.
-/
theorem decimal_order_hash_text
    (a b c : BDec)
    (ha : a.Representable) (hb : b.Representable) (hc : c.Representable) :
    beansDecCmp a b = .ok (SignType.sign (a.toRat - b.toRat) : ℤ) ∧
    (∀ x y : ℤ, beansDecCmp a b = .ok x → beansDecCmp b c = .ok y →
      x ≤ 0 → y ≤ 0 →
      ∃ z : ℤ, beansDecCmp a c = .ok z ∧ z ≤ 0 ∧ (z = 0 ↔ x = 0 ∧ y = 0)) ∧
    (beansDecCmp a b = .ok 0 → beansDecHash a = beansDecHash b) ∧
    decParseText (beansDecStr a) = some a := by
  have hab := beansDecCmp_spec ha hb
  have hbc := beansDecCmp_spec hb hc
  have hac := beansDecCmp_spec ha hc
  have hle : ∀ x y : ℚ, (SignType.sign (x - y) : ℤ) ≤ 0 ↔ x ≤ y := by
    intro x y
    rcases lt_trichotomy x y with h | h | h
    · simp [sign_neg (sub_neg.mpr h), h.le]
    · simp [h]
    · simp [sign_pos (sub_pos.mpr h), h]
  have heq : ∀ x y : ℚ, (SignType.sign (x - y) : ℤ) = 0 ↔ x = y := by
    intro x y
    rcases lt_trichotomy x y with h | h | h
    · simp [sign_neg (sub_neg.mpr h), h.ne]
    · simp [h]
    · simp [sign_pos (sub_pos.mpr h), h.ne']
  refine ⟨hab, ?_, ?_, decParseText_beansDecStr ha⟩
  · intro x y hx hy hx0 hy0
    rw [hab, Except.ok.injEq] at hx
    rw [hbc, Except.ok.injEq] at hy
    subst hx
    subst hy
    have h₁ := (hle _ _).mp hx0
    have h₂ := (hle _ _).mp hy0
    refine ⟨_, hac, (hle _ _).mpr (h₁.trans h₂), ?_⟩
    rw [heq, heq, heq]
    constructor
    · intro h
      exact ⟨le_antisymm h₁ (by rw [h]; exact h₂),
        le_antisymm h₂ (by rw [← h]; exact h₁)⟩
    · rintro ⟨h, h'⟩
      rw [h, h']
  · intro h
    rw [hab, Except.ok.injEq] at h
    exact beansDecHash_eq ha hb ((heq _ _).mp h)

/-- `2.50` and `2.5` are one key. -/
theorem decimal_order_hash_text_halves :
    beansDecHash ⟨250, 0, 2⟩ = beansDecHash ⟨25, 0, 1⟩ :=
  (decimal_order_hash_text ⟨250, 0, 2⟩ ⟨25, 0, 1⟩ ⟨1, 0, 0⟩ (by decide)
    (by decide) (by decide)).2.2.1 (by decide +kernel)

end Decimal
end Beans
