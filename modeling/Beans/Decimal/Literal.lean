import Beans.Decimal.Text

/-!
# Decimal literals in the compiler

A numeric literal is scanned by the lexer, held to the decimal range by the
checker and made into a constant by the LLVM emitter, while the runtime reads
the same text with `decParseText`.  Each of the three reads the digits and the
exponent on its own.  Text is a list of bytes; the compiler's own integers are
64 bits wide and wrap.

**Results.**
* `decimalLiteral_oneMeaning_iff`: checker, emitter and runtime give a literal one meaning, or
  all refuse it, when its exponent is 4096 at most, and above that only where all refuse it.
* `decimalLiteral_smallPower_splits`: `1e-5000` passes the checker, and the runtime's parser
  refuses it.
-/

namespace Beans
namespace Decimal

/-- The value of a 64-bit integer expression, wrapped as the language wraps. -/
def wrap64 (x : ℤ) : ℤ := x.bmod (2 ^ 64)

inductive TokenKind where
  | int
  | float
  | lexError
deriving DecidableEq, Repr

/-- A scanned number, with the error of one that is malformed. -/
structure NumberToken where
  kind : TokenKind
  text : List UInt8
  error : Option String
deriving DecidableEq, Repr

def isHex (c : UInt8) : Bool :=
  isDigit c || (65 ≤ c && c ≤ 70) || (97 ≤ c && c ≤ 102)

def isBinary (c : UInt8) : Bool := c == 48 || c == 49

def isIdentByte (c : UInt8) : Bool :=
  (65 ≤ c && c ≤ 90) || (97 ≤ c && c ≤ 122) || c == asciiUnderscore || isDigit c

/-- The markers of the base prefixes `0x` and `0b`. -/
def isHexMark (c : UInt8) : Bool := c == 120 || c == 88

def isBinaryMark (c : UInt8) : Bool := c == 98 || c == 66

/-- A literal after its base prefix. -/
def scanBased (source : List UInt8) (digit : UInt8 → Bool) (message : String) :
    NumberToken :=
  let marker := source.take 2
  let body := (source.drop 2).takeWhile (fun c => digit c || c == asciiUnderscore)
  let rest := (source.drop 2).dropWhile (fun c => digit c || c == asciiUnderscore)
  if body.any digit then ⟨.int, marker ++ body, none⟩
  else ⟨.lexError, marker ++ body ++ rest.takeWhile isIdentByte, some message⟩

/-- A dot belongs to the number only when a digit follows it. -/
def scanFraction (rest : List UInt8) : List UInt8 :=
  if rest.head? = some asciiDot ∧ isDigit ((rest.drop 1).headD 0) then
    asciiDot :: (rest.drop 1).takeWhile isDigitPart
  else []

def scanExponentDigits (mark : UInt8) (after : List UInt8) : List UInt8 :=
  if isDigit (after.headD 0) then mark :: after.takeWhile isDigit
  else if isSign (after.headD 0) ∧ isDigit ((after.drop 1).headD 0) then
    mark :: after.headD 0 :: (after.drop 1).takeWhile isDigit
  else []

/-- So does an exponent mark, with or without a sign. -/
def scanExponent (rest : List UInt8) : List UInt8 :=
  match rest with
  | [] => []
  | mark :: after =>
    if isExponentMark mark then scanExponentDigits mark after else []

/-- The literal at the start of `source`, which begins with a digit. -/
def scanNumber (source : List UInt8) : NumberToken :=
  if source.headD 0 = asciiZero ∧ isHexMark ((source.drop 1).headD 0) then
    scanBased source isHex "hex literal needs at least one digit"
  else if source.headD 0 = asciiZero ∧ isBinaryMark ((source.drop 1).headD 0) then
    scanBased source isBinary "binary literal needs at least one digit"
  else
    let whole := source.takeWhile isDigitPart
    let rest := source.dropWhile isDigitPart
    let fraction := scanFraction rest
    let exponent := scanExponent (rest.drop fraction.length)
    ⟨if fraction = [] ∧ exponent = [] then .int else .float,
      whole ++ (fraction ++ exponent), none⟩

def withoutLeadingZeroes (value : List UInt8) : List UInt8 :=
  value.dropWhile (· == asciiZero)

/-- Digit strings of one length, compared from the most significant digit. -/
def magnitudeLe : List UInt8 → List UInt8 → Bool
  | d :: ds, e :: es => if d ≠ e then d < e else magnitudeLe ds es
  | _, _ => true

/-- Digit strings are compared by their lengths first. -/
def decimalMagnitudeAtMost (value limit : List UInt8) : Bool :=
  let magnitude := withoutLeadingZeroes value
  if magnitude.length ≠ limit.length then magnitude.length < limit.length
  else magnitudeLe magnitude limit

/-- The digits of `9223372036854775807`, its last digit apart. -/
def intLimitDigits : List UInt8 :=
  [57, 50, 50, 51, 51, 55, 50, 48, 51, 54, 56, 53, 52, 55, 55, 53, 56, 48]

/-- The exponent fits a signed word. -/
def decimalExponentFits (value : List UInt8) (negative : Bool) : Bool :=
  decimalMagnitudeAtMost value
    (intLimitDigits ++ [if negative then 56 else 55])

/-- What the checker counts while it walks over a mantissa. -/
structure LiteralMantissa where
  fractional : Int
  afterDot : Bool
  significant : Int
  sawNonzero : Bool

/-- The mantissa walk; it stops at the exponent and returns what is left. -/
def literalMantissa : List UInt8 → LiteralMantissa →
    LiteralMantissa × List UInt8
  | [], st => (st, [])
  | c :: cs, st =>
    if isExponentMark c then (st, c :: cs)
    else if c = asciiDot then literalMantissa cs { st with afterDot := true }
    else
      let saw := st.sawNonzero || c != asciiZero
      literalMantissa cs
        { st with
          fractional := if st.afterDot then st.fractional + 1 else st.fractional
          sawNonzero := saw
          significant := if saw then st.significant + 1 else st.significant }

/-- The range check on digit counts and the exponent. -/
def literalScaleFits (st : LiteralMantissa) (exponent : Int) : Bool :=
  let scale := wrap64 (st.fractional - exponent)
  if st.sawNonzero = false then scale ≤ bdecMaxScale
  else if 38 < st.significant then false
  else if scale < 0 then
    let append := wrap64 (-scale)
    append ≤ 38 && wrap64 (st.significant + append) ≤ 38
  else scale ≤ bdecMaxScale

/-- The checker's test: 38 significant digits and a scale of 16 bits. -/
def decimalLiteralFits (text : List UInt8) : Bool :=
  let source := text.filter (· != asciiUnderscore)
  let (st, tail) := literalMantissa source ⟨0, false, 0, false⟩
  let tail := tail.drop 1
  let exponentNegative : Bool := tail.head? = some asciiMinus
  let exponentDigits := withoutLeadingZeroes (decSkipSign tail)
  if 0 < exponentDigits.length ∧
      decimalExponentFits exponentDigits exponentNegative = false then false
  else if 7 < exponentDigits.length then
    !st.sawNonzero && !exponentNegative
  else
    let exponent : Int :=
      exponentDigits.foldl (fun e c => e * 10 + c.toNat - 48) 0
    literalScaleFits st (if exponentNegative then -exponent else exponent)

/-- The bytes of a text. -/
def bytes (s : String) : List UInt8 := s.toList.map (fun c => c.toNat.toUInt8)

def literalHasBasePrefix (text : List UInt8) : Bool :=
  let cleaned := text.filter (· != asciiUnderscore)
  let cleaned :=
    if cleaned.head? = some asciiMinus then cleaned.drop 1 else cleaned
  cleaned.head? == some asciiZero &&
    (isHexMark ((cleaned.drop 1).headD 0) ||
      isBinaryMark ((cleaned.drop 1).headD 0))

/-- The value of a based digit; `none` outside the base. -/
def basedDigit (base : UInt64) (c : UInt8) : Option UInt64 :=
  let digit : Option UInt64 :=
    if isDigit c then some (c.toUInt64 - 48)
    else if 65 ≤ c ∧ c ≤ 70 then some (c.toUInt64 - 65 + 10)
    else if 97 ≤ c ∧ c ≤ 102 then some (c.toUInt64 - 97 + 10)
    else none
  match digit with
  | none => none
  | some d => if base ≤ d then none else some d

def basedValue (base : UInt64) : List UInt8 → UInt64 → Option UInt64
  | [], value => some value
  | c :: cs, value =>
    match basedDigit base c with
    | none => none
    | some digit => basedValue base cs (value * base + digit)

/-- The decimal digits of a literal with a base prefix, else nothing. -/
def baseLiteralDecimalText (text : List UInt8) : List UInt8 :=
  let cleaned := text.filter (· != asciiUnderscore)
  let negative : Bool := cleaned.head? = some asciiMinus
  let cleaned := if negative then cleaned.drop 1 else cleaned
  if literalHasBasePrefix text = false then []
  else
    let base : UInt64 := if isBinaryMark ((cleaned.drop 1).headD 0) then 2 else 16
    let digits := cleaned.drop 2
    if digits = [] then []
    else
      match basedValue base digits 0 with
      | none => []
      | some value =>
        (if negative ∧ value ≠ 0 then [asciiMinus] else []) ++
          bytes (toString value.toNat)

/-- The runtime's `to_int`: the whole text has to be one integer. -/
def strToInt (text : List UInt8) : Option Int :=
  match rtParseI64 text with
  | none => none
  | some value =>
    let rest :=
      (decSkipSign (text.dropWhile rtIsSpace)).dropWhile isDigit
    if rest = [] then some value else none

/-- What the emitter gathers while it walks over a literal. -/
structure LlvmWalk where
  digits : List UInt8
  fractional : Int
  afterDot : Bool
  exponent : Int

/-- The exponent text after its marker. -/
def llvmExponent (tail : List UInt8) : Option Int :=
  let cleaned := tail.filter (· != asciiUnderscore)
  let cleaned :=
    if cleaned.head? = some asciiPlus then cleaned.drop 1 else cleaned
  if cleaned = [] then none
  else
    let unread : Int := -88888888
    let exponent := (strToInt cleaned).getD unread
    if exponent = unread then none else some exponent

def llvmWalk : List UInt8 → LlvmWalk → Option LlvmWalk
  | [], st => some st
  | c :: cs, st =>
    if c = asciiUnderscore then llvmWalk cs st
    else if c = asciiDot then
      if st.afterDot then none else llvmWalk cs { st with afterDot := true }
    else if isExponentMark c then
      match llvmExponent cs with
      | none => none
      | some exponent => some { st with exponent := exponent }
    else if isDigit c = false then none
    else
      llvmWalk cs
        { st with
          digits := st.digits ++ [c]
          fractional :=
            if st.afterDot then st.fractional + 1 else st.fractional }

/-- The fields of an emitted decimal constant. -/
structure LlvmDecimal where
  negative : Bool
  digits : List UInt8
  scale : Int
deriving DecidableEq, Repr

/-- The constant of a walked mantissa, or nothing out of range. -/
def llvmScale (st : LlvmWalk) (negative : Bool) : Option LlvmDecimal :=
  let digits := st.digits.dropWhile (· == asciiZero)
  let scale := wrap64 (st.fractional - st.exponent)
  if digits = [] then
    let zeroScale := if scale < 0 then 0 else scale
    if 65535 < zeroScale then none else some ⟨false, [asciiZero], zeroScale⟩
  else if scale < 0 then
    let append := wrap64 (0 - scale)
    if 38 < append ∨ 38 < wrap64 (digits.length + append) then none
    else
      let digits := digits ++ List.replicate append.toNat asciiZero
      if 38 < digits.length then none else some ⟨negative, digits, 0⟩
  else if 65535 < scale ∨ 38 < digits.length then none
  else some ⟨negative, digits, scale⟩

/-- The constant that the emitter makes of a literal. -/
def llvmDecimalFields (source : List UInt8) : Option LlvmDecimal :=
  let based := baseLiteralDecimalText source
  let text := if based ≠ [] then based else source
  match llvmWalk (decSkipSign text) ⟨[], 0, false, 0⟩ with
  | none => none
  | some st =>
    if st.digits = [] then none
    else llvmScale st (text.head? = some asciiMinus)

/-- The constant as the emitter writes it; the empty text reports a literal
out of range. -/
def llvmDecimalConstant (source : List UInt8) : List UInt8 :=
  match llvmDecimalFields source with
  | none => []
  | some c =>
    bytes "\x7b i128 " ++ (if c.negative then [asciiMinus] else []) ++
      c.digits ++ bytes ", i64 " ++ bytes (toString c.scale) ++
      bytes ", i64 0 \x7d"

theorem digitsFold_eq_add :
    ∀ (ds : List UInt8) (v : ℕ), (∀ c ∈ ds, isDigit c = true) →
      digitsFold v ds = v * 10 ^ ds.length + digitsFold 0 ds
  | [], v, _ => by simp [digitsFold]
  | c :: cs, v, hall => by
      have hc := hall c List.mem_cons_self
      have hcs : ∀ d ∈ cs, isDigit d = true :=
        fun d hd => hall d (List.mem_cons_of_mem c hd)
      rw [digitsFold, digitsFold, if_neg (isDigit_ne hc).1,
        if_neg (isDigit_ne hc).1, digitsFold_eq_add cs _ hcs,
        digitsFold_eq_add cs (10 * 0 + digitValue c) hcs, List.length_cons,
        pow_succ]
      ring

variable {c : UInt8} {ds value xs : List UInt8}

theorem digitsFold_cons {cs : List UInt8}
    (hall : ∀ d ∈ c :: cs, isDigit d = true) :
    digitsFold 0 (c :: cs) =
      digitValue c * 10 ^ cs.length + digitsFold 0 cs := by
  have hcs : ∀ d ∈ cs, isDigit d = true :=
    fun d hd => hall d (List.mem_cons_of_mem c hd)
  rw [digitsFold, if_neg (isDigit_ne (hall c List.mem_cons_self)).1,
    digitsFold_eq_add cs _ hcs, Nat.mul_zero, Nat.zero_add]

theorem digitsFold_lt :
    ∀ (ds : List UInt8), (∀ c ∈ ds, isDigit c = true) →
      digitsFold 0 ds < 10 ^ ds.length
  | [], _ => by simp [digitsFold]
  | c :: cs, hall => by
      have hcs : ∀ d ∈ cs, isDigit d = true :=
        fun d hd => hall d (List.mem_cons_of_mem c hd)
      have ih := digitsFold_lt cs hcs
      have hc := digitValue_lt (hall c List.mem_cons_self)
      have hle : digitValue c * 10 ^ cs.length ≤ 9 * 10 ^ cs.length :=
        Nat.mul_le_mul_right _ (by omega)
      rw [digitsFold_cons hall, List.length_cons, pow_succ]
      omega

/-- The significant digits of a number. -/
def sigDigits (n : ℕ) : ℕ := if n = 0 then 0 else numDigits n

theorem sigDigits_le_iff (n k : ℕ) : sigDigits n ≤ k ↔ n < 10 ^ k := by
  unfold sigDigits
  by_cases hn : n = 0
  · rw [if_pos hn, hn]
    exact ⟨fun _ => by positivity, fun _ => Nat.zero_le _⟩
  · rw [if_neg hn]
    rcases Nat.eq_zero_or_pos k with rfl | hk
    · have : 0 < numDigits n := Nat.succ_pos _
      rw [pow_zero]
      omega
    · exact numDigits_le_iff hk

theorem sigDigits_mono {m n : ℕ} (h : m ≤ n) : sigDigits m ≤ sigDigits n := by
  rw [sigDigits_le_iff]
  exact lt_of_le_of_lt h ((sigDigits_le_iff n _).mp le_rfl)

theorem digitValue_eq_zero_iff (hc : isDigit c = true) :
    digitValue c = 0 ↔ c = asciiZero := by
  have h48 : asciiZero.toNat = 48 := rfl
  have hbyte := (isDigit_iff c).mp hc
  rw [← UInt8.toNat_inj, digitValue, h48]
  omega

/-- Stripping leading zeros leaves the significant digits. -/
theorem dropWhile_zero_spec :
    ∀ (ds : List UInt8), (∀ c ∈ ds, isDigit c = true) →
      digitsFold 0 (ds.dropWhile (· == asciiZero)) = digitsFold 0 ds ∧
        (ds.dropWhile (· == asciiZero)).length = sigDigits (digitsFold 0 ds)
  | [], _ => by simp [digitsFold, sigDigits]
  | c :: cs, hall => by
      have hc := hall c List.mem_cons_self
      have hcs : ∀ d ∈ cs, isDigit d = true :=
        fun d hd => hall d (List.mem_cons_of_mem c hd)
      have hcons := digitsFold_cons hall
      by_cases hzero : c = asciiZero
      · rw [List.dropWhile_cons_of_pos (by simp [hzero])]
        rw [(digitValue_eq_zero_iff hc).mpr hzero, Nat.zero_mul,
          Nat.zero_add] at hcons
        rw [hcons]
        exact dropWhile_zero_spec cs hcs
      · rw [List.dropWhile_cons_of_neg (by simp [hzero])]
        refine ⟨rfl, ?_⟩
        have hpos : 0 < digitValue c :=
          Nat.pos_of_ne_zero (mt (digitValue_eq_zero_iff hc).mp hzero)
        have hlow : 10 ^ cs.length ≤ digitsFold 0 (c :: cs) := by
          rw [hcons]
          exact le_trans (Nat.le_mul_of_pos_left _ hpos) (Nat.le_add_right _ _)
        have hpow : 0 < 10 ^ cs.length := by positivity
        have hlt := digitsFold_lt (c :: cs) hall
        rw [List.length_cons] at hlt ⊢
        rw [sigDigits, if_neg (by omega), numDigits,
          Nat.log_eq_of_pow_le_of_lt_pow hlow hlt]

theorem magnitudeLe_spec :
    ∀ (xs ys : List UInt8), xs.length = ys.length →
      (∀ c ∈ xs, isDigit c = true) → (∀ c ∈ ys, isDigit c = true) →
      (magnitudeLe xs ys = true ↔ digitsFold 0 xs ≤ digitsFold 0 ys)
  | [], [], _, _, _ => by simp [magnitudeLe]
  | x :: xs, y :: ys, hlen, hx, hy => by
      have hxs : ∀ d ∈ xs, isDigit d = true :=
        fun d hd => hx d (List.mem_cons_of_mem x hd)
      have hys : ∀ d ∈ ys, isDigit d = true :=
        fun d hd => hy d (List.mem_cons_of_mem y hd)
      have hlen' : xs.length = ys.length := by simpa using hlen
      have hxlt := digitsFold_lt xs hxs
      have hylt := digitsFold_lt ys hys
      have hxb := (isDigit_iff x).mp (hx x List.mem_cons_self)
      have hyb := (isDigit_iff y).mp (hy y List.mem_cons_self)
      rw [digitsFold_cons hx, digitsFold_cons hy, magnitudeLe, ← hlen']
      rw [← hlen'] at hylt
      generalize 10 ^ xs.length = unit at *
      by_cases heq : x = y
      · rw [if_neg (not_not.mpr heq), magnitudeLe_spec xs ys hlen' hxs hys, heq]
        omega
      · rw [if_pos heq, decide_eq_true_iff, UInt8.lt_iff_toNat_lt]
        have hne : x.toNat ≠ y.toNat := fun h => heq (UInt8.toNat_inj.mp h)
        unfold digitValue
        rcases lt_or_gt_of_ne hne with hlt | hgt
        · have : (x.toNat - 48 + 1) * unit ≤ (y.toNat - 48) * unit :=
            Nat.mul_le_mul_right _ (by omega)
          rw [Nat.add_mul, Nat.one_mul] at this
          constructor
          · intro _
            omega
          · intro _
            exact hlt
        · have : (y.toNat - 48 + 1) * unit ≤ (x.toNat - 48) * unit :=
            Nat.mul_le_mul_right _ (by omega)
          rw [Nat.add_mul, Nat.one_mul] at this
          constructor
          · intro _
            omega
          · intro _
            omega

theorem decimalMagnitudeAtMost_spec {limit : List UInt8}
    (hv : ∀ c ∈ value, isDigit c = true) (hl : ∀ c ∈ limit, isDigit c = true)
    (hlimit : limit.length = sigDigits (digitsFold 0 limit)) :
    decimalMagnitudeAtMost value limit = true ↔
      digitsFold 0 value ≤ digitsFold 0 limit := by
  obtain ⟨hval, hlen⟩ := dropWhile_zero_spec value hv
  have hstripped : ∀ c ∈ withoutLeadingZeroes value, isDigit c = true :=
    fun c hc => hv c ((List.dropWhile_suffix _).subset hc)
  unfold decimalMagnitudeAtMost
  dsimp only
  by_cases hne : (withoutLeadingZeroes value).length = limit.length
  · rw [if_neg (not_not.mpr hne), magnitudeLe_spec _ _ hne hstripped hl]
    unfold withoutLeadingZeroes
    rw [hval]
  · rw [if_pos hne, decide_eq_true_iff]
    unfold withoutLeadingZeroes at hne ⊢
    rw [hlen, hlimit] at hne ⊢
    generalize digitsFold 0 value = v at *
    generalize digitsFold 0 limit = n at *
    constructor
    · intro hlt
      by_contra hgt
      have := sigDigits_mono (not_le.mp hgt).le
      omega
    · intro hle
      have := sigDigits_mono hle
      omega

theorem intLimit_spec (negative : Bool) :
    (∀ c ∈ intLimitDigits ++ [if negative then 56 else 55], isDigit c = true) ∧
      digitsFold 0 (intLimitDigits ++ [if negative then 56 else 55]) =
        (if negative then 2 ^ 63 else 2 ^ 63 - 1) := by
  cases negative <;>
    exact ⟨List.all_eq_true.mp (by decide), by decide⟩

theorem decimalExponentFits_spec (negative : Bool)
    (hv : ∀ c ∈ value, isDigit c = true) :
    decimalExponentFits value negative = true ↔
      digitsFold 0 value ≤ if negative then 2 ^ 63 else 2 ^ 63 - 1 := by
  obtain ⟨hall, hfold⟩ := intLimit_spec negative
  unfold decimalExponentFits
  rw [decimalMagnitudeAtMost_spec hv hall, hfold]
  rw [hfold]
  have hlow : ∀ n : ℕ, 10 ^ 18 ≤ n → n < 10 ^ 19 → sigDigits n = 19 := by
    intro n h₁ h₂
    have hle := (sigDigits_le_iff n 19).mpr h₂
    have hgt := mt (sigDigits_le_iff n 18).mp (not_lt.mpr h₁)
    omega
  cases negative <;> rw [hlow _ (by norm_num) (by norm_num)] <;> rfl

/-- The walk's state after mantissa digits that denote `v`. -/
def literalWalked (v fractional : ℕ) (afterDot : Bool) : LiteralMantissa :=
  ⟨fractional, afterDot, sigDigits v, decide (v ≠ 0)⟩

theorem sigDigits_step {v d : ℕ} (hd : d < 10) (hpos : 0 < 10 * v + d) :
    sigDigits (10 * v + d) = sigDigits v + 1 := by
  unfold sigDigits
  rw [if_neg (by omega)]
  rcases Nat.eq_zero_or_pos v with rfl | hv
  · rw [if_pos rfl, numDigits, Nat.log_of_lt (by omega)]
  · rw [if_neg (by omega), numDigits_mul_ten_add hv hd]

/-- A run of digits is folded into the mantissa. -/
theorem literalMantissa_digits :
    ∀ (ds rest : List UInt8) (v f : ℕ) (dot : Bool),
      (∀ c ∈ ds, isDigit c = true) →
      literalMantissa (ds ++ rest) (literalWalked v f dot) =
        literalMantissa rest (literalWalked (digitsFold v ds)
          (f + if dot then ds.length else 0) dot)
  | [], rest, v, f, dot, _ => by simp [digitsFold]
  | c :: cs, rest, v, f, dot, hall => by
      have hc := hall c List.mem_cons_self
      have hcs : ∀ d ∈ cs, isDigit d = true :=
        fun d hd => hall d (List.mem_cons_of_mem c hd)
      obtain ⟨hunder, hdot, hmark, -, -⟩ := isDigit_ne hc
      have hlt := digitValue_lt hc
      have hzero := digitValue_eq_zero_iff hc
      have hstep : ({ literalWalked v f dot with
          fractional := if (literalWalked v f dot).afterDot then
            (literalWalked v f dot).fractional + 1
            else (literalWalked v f dot).fractional
          sawNonzero := (literalWalked v f dot).sawNonzero || c != asciiZero
          significant :=
            if ((literalWalked v f dot).sawNonzero || c != asciiZero) then
              (literalWalked v f dot).significant + 1
            else (literalWalked v f dot).significant } : LiteralMantissa) =
          literalWalked (10 * v + digitValue c) (f + if dot then 1 else 0)
            dot := by
        have hfrac : (if dot then (f : ℤ) + 1 else f) =
            ((f + if dot then 1 else 0 : ℕ) : ℤ) := by
          cases dot <;> simp
        have hsaw : (decide (v ≠ 0) || c != asciiZero) =
            decide (10 * v + digitValue c ≠ 0) := by
          rw [Bool.eq_iff_iff, Bool.or_eq_true, decide_eq_true_iff, bne_iff_ne,
            decide_eq_true_iff, ne_eq c, ← hzero]
          omega
        have hsig : (if (decide (v ≠ 0) || c != asciiZero) then
            (sigDigits v : ℤ) + 1 else sigDigits v) =
            sigDigits (10 * v + digitValue c) := by
          rw [hsaw]
          by_cases hne : 10 * v + digitValue c = 0
          · have hv : v = 0 := by omega
            have hd : digitValue c = 0 := by omega
            simp [hv, hd]
          · rw [if_pos (decide_eq_true hne),
              sigDigits_step hlt (Nat.pos_of_ne_zero hne)]
            rfl
        unfold literalWalked
        dsimp only
        rw [hfrac, hsig, hsaw]
      rw [List.cons_append, literalMantissa, if_neg (by simp [hmark]),
        if_neg hdot]
      dsimp only
      rw [hstep, literalMantissa_digits cs rest _ _ dot hcs, digitsFold,
        if_neg hunder]
      congr 2
      cases dot <;> simp
      omega

/-- A run of digits without its underscores. -/
def plain (ds : List UInt8) : List UInt8 := ds.filter (· != asciiUnderscore)

theorem plain_digits (h : ∀ c ∈ ds, isDigitPart c = true) :
    ∀ c ∈ plain ds, isDigit c = true := by
  intro c hc
  obtain ⟨hmem, hne⟩ := List.mem_filter.mp hc
  have hpart := h c hmem
  rw [isDigitPart, Bool.or_eq_true, beq_iff_eq] at hpart
  exact hpart.resolve_right (by simpa using hne)

theorem plain_eq_self (h : ∀ c ∈ ds, isDigit c = true) :
    plain ds = ds := by
  refine List.filter_eq_self.mpr (fun c hc => ?_)
  simpa using (isDigit_ne (h c hc)).1

@[simp] theorem plain_append (xs ys : List UInt8) :
    plain (xs ++ ys) = plain xs ++ plain ys := List.filter_append ..

theorem digitsFold_plain (v : ℕ) (ds : List UInt8) :
    digitsFold v (plain ds) = digitsFold v ds := by
  induction ds generalizing v with
  | nil => rfl
  | cons c cs ih =>
    by_cases hunder : c = asciiUnderscore
    · rw [plain, List.filter_cons_of_neg (by simp [hunder]), digitsFold,
        if_pos hunder]
      exact ih v
    · rw [plain, List.filter_cons_of_pos (by simpa using hunder), digitsFold,
        digitsFold, if_neg hunder, if_neg hunder]
      exact ih _

theorem length_plain (ds : List UInt8) : (plain ds).length = digitCount ds := by
  rw [plain, digitCount, List.countP_eq_length_filter]
  congr 1
  refine List.filter_congr (fun c _ => ?_)
  rw [Bool.eq_iff_iff, bne_iff_ne, decide_eq_true_iff]

theorem isExponentMark_ne (h : isExponentMark c = true) :
    c ≠ asciiUnderscore ∧ c ≠ asciiDot := by
  rw [isExponentMark, Bool.or_eq_true, beq_iff_eq, beq_iff_eq] at h
  rcases h with rfl | rfl <;> decide

namespace Exponent

variable (e : Exponent)

theorem plain_tail : plain (e.sign.toList ++ e.digits) = e.sign.toList ++ e.digits := by
  rw [plain_append, plain_eq_self e.digits_ok]
  congr 1
  cases hs : e.sign with
  | none => rfl
  | some c =>
    have hc := (isSign_ne (e.sign_ok c (by rw [hs]; rfl))).2
    rcases hc with rfl | rfl <;> rfl

theorem plain_text : plain e.text = e.text := by
  have hmark := (isExponentMark_ne e.mark_ok).1
  rw [text, plain, List.filter_cons_of_pos (by simpa using hmark)]
  exact congrArg _ e.plain_tail

end Exponent

namespace Spelling

variable (l : Spelling)

def exponentNegative : Bool := (l.exponent.map Exponent.negative).getD false

/-- The mantissa digits of both parts, without underscores. -/
theorem plain_text :
    plain l.text = plain (l.first :: l.whole) ++
      (plain l.fractionText ++ l.exponentText) := by
  rw [text_eq, plain_append, plain_append]
  congr 2
  unfold exponentText
  cases l.exponent with
  | none => rfl
  | some e => exact e.plain_text

theorem plain_fractionText :
    plain l.fractionText =
      if l.fraction.isSome then asciiDot :: plain (l.fraction.getD []) else [] := by
  unfold fractionText
  cases l.fraction with
  | none => rfl
  | some ds => rfl

theorem fraction_digits : ∀ c ∈ l.fraction.getD [], isDigitPart c = true := by
  cases hf : l.fraction with
  | none => simp
  | some ds => exact l.fraction_ok ds (by rw [hf]; rfl)

theorem literalMantissa_exponentText (st : LiteralMantissa) :
    literalMantissa l.exponentText st = (st, l.exponentText) := by
  unfold exponentText
  cases l.exponent with
  | none => rfl
  | some e =>
    dsimp only
    rw [Exponent.text, literalMantissa, if_pos e.mark_ok]

theorem literalMantissa_text :
    literalMantissa (plain l.text) ⟨0, false, 0, false⟩ =
      (literalWalked l.number l.fractional l.fraction.isSome, l.exponentText) := by
  have hstart : (⟨0, false, 0, false⟩ : LiteralMantissa) =
      literalWalked 0 0 false := rfl
  rw [hstart, plain_text, literalMantissa_digits _ _ _ _ _
    (plain_digits l.digits_ok), digitsFold_plain, plain_fractionText]
  unfold number fractional
  cases hf : l.fraction with
  | none => exact l.literalMantissa_exponentText _
  | some ds =>
    have hds := l.fraction_ok ds (by rw [hf]; rfl)
    simp only [Option.isSome_some, if_true, Option.getD_some]
    rw [List.cons_append, literalMantissa, if_neg (by decide), if_pos rfl]
    have hdot : ({ literalWalked (digitsFold 0 (l.first :: l.whole))
        (0 + if false = true then (plain (l.first :: l.whole)).length else 0)
        false with afterDot := true } : LiteralMantissa) =
        literalWalked (digitsFold 0 (l.first :: l.whole)) 0 true := rfl
    rw [hdot, literalMantissa_digits _ _ _ _ _ (plain_digits hds),
      digitsFold_plain, l.literalMantissa_exponentText, if_pos rfl,
      length_plain, Nat.zero_add]

end Spelling

theorem wrap64_eq {x : ℤ} (h₀ : -2 ^ 63 ≤ x) (h₁ : x < 2 ^ 63) : wrap64 x = x := by
  unfold wrap64
  rw [Int.bmod_def]
  omega

/-- A sum that passes the largest integer comes out negative. -/
theorem wrap64_of_le {x : ℤ} (h₀ : 2 ^ 63 ≤ x) (h₁ : x < 2 ^ 64) :
    wrap64 x = x - 2 ^ 64 := by
  unfold wrap64
  rw [Int.bmod_def]
  omega

theorem inRange_zero_iff (scale : ℤ) : InRange 0 scale ↔ scale ≤ bdecMaxScale := by
  unfold InRange
  rw [Nat.zero_mul]
  exact and_iff_right (by positivity)

/-- The range of a nonzero coefficient in digit counts. -/
theorem inRange_iff {n : ℕ} (hn : 0 < n) (scale : ℤ) :
    InRange n scale ↔
      (sigDigits n : ℤ) + max (-scale) 0 ≤ 38 ∧ scale ≤ bdecMaxScale := by
  unfold InRange
  refine and_congr_left' ?_
  rw [← numDigits_le_iff (by decide), numDigits_mul_pow hn, sigDigits,
    if_neg hn.ne', bdecPrecision]
  omega

theorem literalScaleFits_spec {n f : ℕ} {exponent : ℤ} (dot : Bool)
    (hf : f < 2 ^ 62) (hsig : sigDigits n < 2 ^ 62)
    (h₀ : -10 ^ 7 < exponent) (h₁ : exponent < 10 ^ 7) :
    literalScaleFits (literalWalked n f dot) exponent = true ↔
      InRange n (f - exponent) := by
  have hscale : wrap64 ((f : ℤ) - exponent) = f - exponent :=
    wrap64_eq (by omega) (by omega)
  have hmax : bdecMaxScale = 65535 := rfl
  have hfrac : (literalWalked n f dot).fractional = f := rfl
  have hsaw : (literalWalked n f dot).sawNonzero = false ↔ n = 0 := by
    simp [literalWalked]
  have hcount : (literalWalked n f dot).significant = sigDigits n := rfl
  unfold literalScaleFits
  generalize literalWalked n f dot = st at *
  dsimp only
  rw [hfrac, hscale, hcount]
  rcases Nat.eq_zero_or_pos n with rfl | hn
  · rw [if_pos (hsaw.mpr rfl), inRange_zero_iff, decide_eq_true_iff]
  · have happend : wrap64 (-((f : ℤ) - exponent)) = -(f - exponent) :=
      wrap64_eq (by omega) (by omega)
    have hsum : wrap64 ((sigDigits n : ℤ) + -((f : ℤ) - exponent)) =
        sigDigits n + -(f - exponent) :=
      wrap64_eq (by omega) (by omega)
    rw [if_neg (fun h => by have := hsaw.mp h; omega), inRange_iff hn, happend,
      hsum]
    by_cases hbig : (38 : ℤ) < sigDigits n
    · rw [if_pos hbig]
      simp only [Bool.false_eq_true, false_iff, not_and]
      omega
    · rw [if_neg hbig]
      by_cases hneg : (f : ℤ) - exponent < 0
      · rw [if_pos hneg, Bool.and_eq_true, decide_eq_true_iff,
          decide_eq_true_iff]
        omega
      · rw [if_neg hneg, decide_eq_true_iff]
        omega

namespace Spelling

variable (l : Spelling)

/-- The exponent digits the checker reads, without leading zeros. -/
def exponentDigits : List UInt8 :=
  withoutLeadingZeroes ((l.exponent.map Exponent.digits).getD [])

theorem exponentDigits_spec :
    (∀ c ∈ l.exponentDigits, isDigit c = true) ∧
      digitsFold 0 l.exponentDigits = l.exponentMagnitude ∧
      l.exponentDigits.length = sigDigits l.exponentMagnitude := by
  unfold exponentDigits exponentMagnitude withoutLeadingZeroes
  cases l.exponent with
  | none => simp [digitsFold, sigDigits]
  | some e =>
    obtain ⟨hval, hlen⟩ := dropWhile_zero_spec e.digits e.digits_ok
    exact ⟨fun c hc => e.digits_ok c ((List.dropWhile_suffix _).subset hc),
      hval, hlen⟩

theorem exponentText_tail :
    (decide ((l.exponentText.drop 1).head? = some asciiMinus)) =
        l.exponentNegative ∧
      withoutLeadingZeroes (decSkipSign (l.exponentText.drop 1)) =
        l.exponentDigits := by
  unfold exponentText exponentNegative exponentDigits
  cases l.exponent with
  | none => exact ⟨rfl, rfl⟩
  | some e =>
    refine ⟨?_, ?_⟩
    · rw [Bool.eq_iff_iff, decide_eq_true_iff]
      exact e.head_tail
    · exact congrArg _ (decSkipSign_exponent e)

theorem exponent_foldl :
    ∀ (ds : List UInt8) (v : ℕ), (∀ c ∈ ds, isDigit c = true) →
      ds.foldl (fun (e : ℤ) c => e * 10 + c.toNat - 48) v = digitsFold v ds
  | [], v, _ => rfl
  | c :: cs, v, hall => by
      have hc := hall c List.mem_cons_self
      have hcs : ∀ d ∈ cs, isDigit d = true :=
        fun d hd => hall d (List.mem_cons_of_mem c hd)
      have hbyte := (isDigit_iff c).mp hc
      have hstep : (v : ℤ) * 10 + c.toNat - 48 = ((10 * v + digitValue c : ℕ) : ℤ) := by
        unfold digitValue
        omega
      rw [List.foldl_cons, hstep, exponent_foldl cs _ hcs, digitsFold,
        if_neg (isDigit_ne hc).1]

theorem exponentValue_eq :
    l.exponentValue =
      if l.exponentNegative then -(l.exponentMagnitude : ℤ)
      else l.exponentMagnitude := by
  unfold exponentValue exponentNegative exponentMagnitude
  cases l.exponent with
  | none => rfl
  | some e => rfl

/-- All mantissa digits, without underscores. -/
def mantissa : List UInt8 :=
  plain (l.first :: l.whole) ++ plain (l.fraction.getD [])

theorem mantissa_digits : ∀ c ∈ l.mantissa, isDigit c = true := by
  intro c hc
  rcases List.mem_append.mp hc with hc | hc
  · exact plain_digits l.digits_ok c hc
  · exact plain_digits l.fraction_digits c hc

theorem digitsFold_mantissa : digitsFold 0 l.mantissa = l.number := by
  rw [mantissa, digitsFold_append, digitsFold_plain, digitsFold_plain, number]

theorem mantissa_length_le : l.mantissa.length ≤ l.text.length := by
  have hwhole : (plain (l.first :: l.whole)).length ≤ (l.first :: l.whole).length :=
    List.length_filter_le _ _
  have hfrac : (plain (l.fraction.getD [])).length ≤ l.fractionText.length := by
    unfold fractionText
    cases l.fraction with
    | none => exact le_rfl
    | some ds =>
      exact le_trans (List.length_filter_le _ ds) (Nat.le_succ _)
  rw [text_eq, mantissa, List.length_append, List.length_append,
    List.length_append]
  omega

theorem sigDigits_number_le : sigDigits l.number ≤ l.text.length := by
  refine le_trans ?_ l.mantissa_length_le
  rw [sigDigits_le_iff, ← digitsFold_mantissa]
  exact digitsFold_lt _ l.mantissa_digits

theorem fractional_le : l.fractional ≤ l.text.length := by
  refine le_trans ?_ l.mantissa_length_le
  rw [mantissa, List.length_append, length_plain (l.fraction.getD [])]
  exact Nat.le_add_left _ _

/-- What the checker accepts: short exponents in range, and a zero under a long
positive exponent that is still an integer. -/
theorem decimalLiteralFits_spec (hlen : l.text.length < 2 ^ 62) :
    decimalLiteralFits l.text = true ↔
      (l.exponentMagnitude < 10 ^ 7 ∧ InRange l.number l.scale) ∨
      (10 ^ 7 ≤ l.exponentMagnitude ∧ l.exponentMagnitude < 2 ^ 63 ∧
        l.exponentNegative = false ∧ l.number = 0) := by
  obtain ⟨hdigits, hval, hcount⟩ := l.exponentDigits_spec
  obtain ⟨hneg, htail⟩ := l.exponentText_tail
  have hf := l.fractional_le
  have hsig := l.sigDigits_number_le
  have hfits := decimalExponentFits_spec l.exponentNegative hdigits
  have hshort := sigDigits_le_iff l.exponentMagnitude 7
  have hzero := sigDigits_le_iff l.exponentMagnitude 0
  have hexp : l.exponentDigits.foldl
      (fun (e : ℤ) c => e * 10 + c.toNat - 48) 0 = l.exponentMagnitude := by
    rw [← hval]
    exact exponent_foldl l.exponentDigits 0 hdigits
  rw [hval] at hfits
  unfold decimalLiteralFits
  rw [show l.text.filter (· != asciiUnderscore) = plain l.text from rfl]
  dsimp only
  rw [l.literalMantissa_text]
  dsimp only
  rw [hneg, htail, hcount, hexp]
  have hsaw : (literalWalked l.number l.fractional l.fraction.isSome).sawNonzero =
      decide (l.number ≠ 0) := rfl
  by_cases hout : 0 < sigDigits l.exponentMagnitude ∧
      decimalExponentFits l.exponentDigits l.exponentNegative = false
  · have hnot := hout.2
    rw [if_pos hout]
    rw [← Bool.not_eq_true, hfits] at hnot
    refine iff_of_false Bool.false_ne_true ?_
    by_cases hn : l.exponentNegative = true
    · rw [if_pos hn] at hnot
      omega
    · rw [if_neg hn] at hnot
      omega
  · rw [if_neg hout]
    by_cases hlong : 7 < sigDigits l.exponentMagnitude
    · have hfit := hfits.mp (Bool.not_eq_false _ ▸
        fun h => hout ⟨by omega, h⟩)
      rw [if_pos hlong, hsaw, Bool.and_eq_true, Bool.not_eq_true',
        Bool.not_eq_true', decide_eq_false_iff_not, not_not]
      by_cases hn : l.exponentNegative = true
      · rw [hn]
        refine iff_of_false (fun h => Bool.noConfusion h.2) ?_
        rintro (h | h)
        · omega
        · exact Bool.noConfusion h.2.2.1
      · rw [if_neg hn] at hfit
        rw [Bool.not_eq_true] at hn
        rw [hn]
        constructor
        · intro h
          exact Or.inr ⟨by omega, by omega, rfl, h.1⟩
        · rintro (h | h)
          · omega
          · exact ⟨h.2.2.2, rfl⟩
    · have hvalue : (if l.exponentNegative then -(l.exponentMagnitude : ℤ)
          else l.exponentMagnitude) = l.exponentValue := l.exponentValue_eq.symm
      have hbound : l.exponentMagnitude < 10 ^ 7 := hshort.mp (by omega)
      rw [if_neg hlong, hvalue, literalScaleFits_spec _ (by omega) (by omega)
        (by rw [exponentValue_eq]; split_ifs <;> omega)
        (by rw [exponentValue_eq]; split_ifs <;> omega)]
      constructor
      · intro h
        exact Or.inl ⟨hbound, h⟩
      · rintro (h | h)
        · exact h.2
        · omega

end Spelling

namespace Exponent

/-- The exponent with a plus sign dropped. -/
def unplus (e : Exponent) : Exponent where
  mark := e.mark
  sign := if e.sign = some asciiPlus then none else e.sign
  digits := e.digits
  mark_ok := e.mark_ok
  sign_ok := by
    intro c hc
    split_ifs at hc
    · cases hc
    · exact e.sign_ok c hc
  digits_ok := e.digits_ok
  digits_ne := e.digits_ne

theorem unplus_sign (e : Exponent) :
    e.unplus.sign = if e.sign = some asciiPlus then none else e.sign := rfl

theorem unplus_saturated (e : Exponent) : e.unplus.saturated = e.saturated := by
  have hneg : e.unplus.negative = e.negative := by
    unfold negative
    rw [unplus_sign]
    by_cases h : e.sign = some asciiPlus
    · rw [if_pos h, h]
      decide
    · rw [if_neg h]
  unfold saturated
  rw [hneg]
  rfl

theorem strToInt_tail (e : Exponent) :
    strToInt (e.sign.toList ++ e.digits) = some e.saturated := by
  have hrest : e.digits.dropWhile isDigit = [] :=
    List.dropWhile_eq_nil_iff.mpr e.digits_ok
  unfold strToInt
  rw [rtParseI64_exponent, e.dropWhile_space, decSkipSign_exponent, hrest]
  exact if_pos rfl

theorem llvmExponent_tail (e : Exponent) :
    llvmExponent (e.sign.toList ++ e.digits) =
      if e.saturated = -88888888 then none else some e.saturated := by
  have hplus : (if (e.sign.toList ++ e.digits).head? = some asciiPlus then
      (e.sign.toList ++ e.digits).drop 1 else e.sign.toList ++ e.digits) =
      e.unplus.sign.toList ++ e.unplus.digits := by
    obtain ⟨d, ds, hd⟩ := List.exists_cons_of_ne_nil e.digits_ne
    have hdigit := e.digits_ok d (by rw [hd]; exact List.mem_cons_self)
    have hne : d ≠ asciiPlus := by
      rintro rfl
      exact absurd hdigit (by decide)
    rw [unplus_sign, show e.unplus.digits = e.digits from rfl]
    cases hs : e.sign with
    | none => simp [hd, hne]
    | some c => by_cases hc : c = asciiPlus <;> simp [hc]
  have hnonempty : e.unplus.sign.toList ++ e.unplus.digits ≠ [] :=
    fun h => e.digits_ne (List.append_eq_nil_iff.mp h).2
  unfold llvmExponent
  rw [show (e.sign.toList ++ e.digits).filter (· != asciiUnderscore) =
    e.sign.toList ++ e.digits from e.plain_tail]
  dsimp only
  rw [hplus, if_neg hnonempty, e.unplus.strToInt_tail, unplus_saturated,
    Option.getD_some]

end Exponent

theorem llvmWalk_digits :
    ∀ (ds rest : List UInt8) (digits : List UInt8) (f : ℕ) (dot : Bool),
      (∀ c ∈ ds, isDigitPart c = true) →
      llvmWalk (ds ++ rest) ⟨digits, f, dot, 0⟩ =
        llvmWalk rest ⟨digits ++ plain ds,
          ((f + if dot then digitCount ds else 0 : ℕ) : ℤ), dot, 0⟩
  | [], rest, digits, f, dot, _ => by simp [plain, digitCount]
  | c :: cs, rest, digits, f, dot, hall => by
      have hcs : ∀ d ∈ cs, isDigitPart d = true :=
        fun d hd => hall d (List.mem_cons_of_mem c hd)
      have hc := hall c List.mem_cons_self
      rw [List.cons_append, llvmWalk]
      by_cases hunder : c = asciiUnderscore
      · rw [if_pos hunder, llvmWalk_digits cs rest digits f dot hcs]
        simp [plain, digitCount, hunder]
      · have hdigit : isDigit c = true := by
          rw [isDigitPart, Bool.or_eq_true, beq_iff_eq] at hc
          exact hc.resolve_right hunder
        obtain ⟨-, hdot, hmark, -, -⟩ := isDigit_ne hdigit
        rw [if_neg hunder, if_neg hdot, if_neg (by simp [hmark]),
          if_neg (by simp [hdigit])]
        have hfrac : (if dot then (f : ℤ) + 1 else f) =
            ((f + if dot then 1 else 0 : ℕ) : ℤ) := by
          cases dot <;> simp
        dsimp only
        rw [hfrac, llvmWalk_digits cs rest _ _ dot hcs]
        have hcount : f + (if dot then 1 else 0) +
            (if dot then digitCount cs else 0) =
            f + if dot then digitCount (c :: cs) else 0 := by
          cases dot with
          | false => rfl
          | true =>
            simp [digitCount, hunder]
            omega
        rw [hcount]
        simp [plain, hunder]

namespace Spelling

variable (l : Spelling)

/-- The exponent as the emitter and the runtime parse it. -/
def exponentRead : ℤ := (l.exponent.map Exponent.saturated).getD 0

theorem llvmWalk_exponentText (digits : List UInt8) (f : ℤ) (dot : Bool) :
    llvmWalk l.exponentText ⟨digits, f, dot, 0⟩ =
      if l.exponentRead = -88888888 then none
      else some ⟨digits, f, dot, l.exponentRead⟩ := by
  unfold exponentText exponentRead
  cases l.exponent with
  | none => rfl
  | some e =>
    obtain ⟨hunder, hdot⟩ := isExponentMark_ne e.mark_ok
    dsimp only
    rw [Exponent.text, llvmWalk, if_neg hunder, if_neg hdot, if_pos e.mark_ok,
      e.llvmExponent_tail, Option.map_some, Option.getD_some]
    by_cases h : e.saturated = -88888888
    · rw [if_pos h, if_pos h]
    · rw [if_neg h, if_neg h]

theorem llvmWalk_text :
    llvmWalk l.text ⟨[], 0, false, 0⟩ =
      if l.exponentRead = -88888888 then none
      else some ⟨l.mantissa, l.fractional, l.fraction.isSome, l.exponentRead⟩ := by
  have hwhole := llvmWalk_digits (l.first :: l.whole)
    (l.fractionText ++ l.exponentText) [] 0 false l.digits_ok
  rw [List.nil_append] at hwhole
  rw [text_eq]
  refine hwhole.trans ?_
  unfold fractionText mantissa fractional
  cases hf : l.fraction with
  | none =>
    dsimp only
    rw [List.nil_append, llvmWalk_exponentText]
    simp [plain, digitCount]
  | some ds =>
    have hds := l.fraction_ok ds (by rw [hf]; rfl)
    dsimp only
    rw [List.cons_append, llvmWalk, if_neg (by decide), if_pos rfl,
      if_neg Bool.false_ne_true]
    refine (llvmWalk_digits ds l.exponentText _ 0 true hds).trans ?_
    rw [llvmWalk_exponentText]
    simp

variable {c : UInt8}

/-- The bytes of a spelling without underscores. -/
theorem mem_plain_text (hc : c ∈ plain l.text) :
    isDigit c = true ∨ c = asciiDot ∨ isExponentMark c = true ∨
      isSign c = true := by
  rw [plain_text] at hc
  rcases List.mem_append.mp hc with hc | hc
  · exact Or.inl (plain_digits l.digits_ok c hc)
  rcases List.mem_append.mp hc with hc | hc
  · rw [plain_fractionText] at hc
    split_ifs at hc
    · rcases List.mem_cons.mp hc with hc | hc
      · exact Or.inr (Or.inl hc)
      · exact Or.inl (plain_digits l.fraction_digits c hc)
    · cases hc
  · unfold exponentText at hc
    cases he : l.exponent with
    | none => rw [he] at hc; cases hc
    | some e =>
      rw [he] at hc
      rcases List.mem_cons.mp hc with hc | hc
      · exact Or.inr (Or.inr (Or.inl (by rw [hc]; exact e.mark_ok)))
      · rcases List.mem_append.mp hc with hc | hc
        · exact Or.inr (Or.inr (Or.inr
            (e.sign_ok c (Option.mem_toList.mp hc))))
        · exact Or.inl (e.digits_ok c hc)

/-- No byte of a spelling marks a base. -/
theorem not_mark (hc : c ∈ plain l.text) :
    isHexMark c = false ∧ isBinaryMark c = false := by
  have hmark : ∀ m : UInt8, ¬(isDigit m = true ∨ m = asciiDot ∨
      isExponentMark m = true ∨ isSign m = true) → c ≠ m := by
    rintro m hm rfl
    exact hm (l.mem_plain_text hc)
  have h₁ := hmark 120 (by decide)
  have h₂ := hmark 88 (by decide)
  have h₃ := hmark 98 (by decide)
  have h₄ := hmark 66 (by decide)
  simp [isHexMark, isBinaryMark, h₁, h₂, h₃, h₄]

theorem baseLiteralDecimalText_text : baseLiteralDecimalText l.text = [] := by
  have hcons : plain l.text = l.first :: (plain l.text).drop 1 := by
    rw [text_eq, List.cons_append, plain, List.filter_cons_of_pos]
    · rfl
    · exact bne_iff_ne.mpr (isDigit_ne l.first_ok).1
  have hminus : ¬(plain l.text).head? = some asciiMinus := by
    rw [hcons, List.head?_cons, Option.some_inj]
    intro h
    exact absurd l.first_ok (by rw [h]; decide)
  have hsecond : isHexMark (((plain l.text).drop 1).headD 0) = false ∧
      isBinaryMark (((plain l.text).drop 1).headD 0) = false := by
    cases hrest : (plain l.text).drop 1 with
    | nil => decide
    | cons c cs =>
      refine l.not_mark (List.mem_of_mem_drop (i := 1) ?_)
      rw [hrest]
      exact List.mem_cons_self
  have hstart : literalHasBasePrefix l.text = false := by
    unfold literalHasBasePrefix
    rw [show l.text.filter (· != asciiUnderscore) = plain l.text from rfl]
    dsimp only
    rw [if_neg hminus, hsecond.1, hsecond.2, Bool.or_false, Bool.and_false]
  unfold baseLiteralDecimalText
  rw [hstart]
  exact if_pos rfl

/-- The scale the emitter computes before it wraps. -/
def scaleRead : ℤ := l.fractional - l.exponentRead

theorem exponentRead_spec :
    l.exponentRead = if l.exponentNegative then
      -((min l.exponentMagnitude (2 ^ 63) : ℕ) : ℤ)
      else ((min l.exponentMagnitude (2 ^ 63 - 1) : ℕ) : ℤ) := by
  unfold exponentRead exponentNegative exponentMagnitude
  cases l.exponent with
  | none => rfl
  | some e => rfl

/-- The emitter's walk of a literal, ready for its range check. -/
def walked : LlvmWalk :=
  ⟨l.mantissa, l.fractional, l.fraction.isSome, l.exponentRead⟩

/-- The mantissa without leading zeros. -/
def significand : List UInt8 := l.mantissa.dropWhile (· == asciiZero)

theorem significand_spec :
    (∀ c ∈ l.significand, isDigit c = true) ∧
      digitsFold 0 l.significand = l.number ∧
      l.significand.length = sigDigits l.number := by
  obtain ⟨hval, hlen⟩ := dropWhile_zero_spec l.mantissa l.mantissa_digits
  rw [digitsFold_mantissa] at hval hlen
  exact ⟨fun c hc =>
    l.mantissa_digits c ((List.dropWhile_suffix _).subset hc), hval, hlen⟩

theorem significand_eq_nil_iff : l.significand = [] ↔ l.number = 0 := by
  have hlen := l.significand_spec.2.2
  have hzero := sigDigits_le_iff l.number 0
  rw [← List.length_eq_zero_iff, hlen]
  omega

theorem llvmScale_zero (negative : Bool) (hn : l.number = 0) :
    llvmScale l.walked negative =
      if wrap64 l.scaleRead ≤ 65535 then
        some ⟨false, [asciiZero], max (wrap64 l.scaleRead) 0⟩
      else none := by
  have hzero : (if wrap64 l.scaleRead < 0 then 0 else wrap64 l.scaleRead) =
      max (wrap64 l.scaleRead) 0 := by
    split_ifs <;> omega
  unfold llvmScale
  rw [show l.walked.digits.dropWhile (· == asciiZero) = l.significand from rfl,
    show l.walked.fractional - l.walked.exponent = l.scaleRead from rfl]
  dsimp only
  rw [if_pos (l.significand_eq_nil_iff.mpr hn), hzero]
  by_cases hfit : wrap64 l.scaleRead ≤ 65535
  · rw [if_pos hfit, if_neg (by omega)]
  · rw [if_neg hfit, if_pos (by omega)]

/-- Without a wrap the emitter's range check is the range itself. -/
theorem llvmScale_plain (negative : Bool) (hn : 0 < l.number)
    (hsig : sigDigits l.number < 2 ^ 62)
    (h₀ : -2 ^ 63 < l.scaleRead) (h₁ : l.scaleRead < 2 ^ 63) :
    (InRange l.number l.scaleRead →
      llvmScale l.walked negative =
        some ⟨negative,
          l.significand ++ List.replicate (-l.scaleRead).toNat asciiZero,
          max l.scaleRead 0⟩) ∧
    (¬ InRange l.number l.scaleRead → llvmScale l.walked negative = none) := by
  have hlen := l.significand_spec.2.2
  have hmax : bdecMaxScale = 65535 := rfl
  have hscale : wrap64 l.scaleRead = l.scaleRead :=
    wrap64_eq (by omega) (by omega)
  have happend : wrap64 (0 - l.scaleRead) = -l.scaleRead := by
    rw [zero_sub]
    exact wrap64_eq (by omega) (by omega)
  rw [inRange_iff hn, hmax]
  unfold llvmScale
  rw [show l.walked.digits.dropWhile (· == asciiZero) = l.significand from rfl,
    show l.walked.fractional - l.walked.exponent = l.scaleRead from rfl]
  dsimp only
  rw [if_neg (mt l.significand_eq_nil_iff.mp hn.ne'), hscale, happend, hlen]
  by_cases hneg : l.scaleRead < 0
  · rw [if_pos hneg]
    by_cases hlong : (38 : ℤ) < -l.scaleRead
    · rw [if_pos (Or.inl hlong)]
      exact ⟨fun h => by omega, fun _ => rfl⟩
    · have hsum : wrap64 ((sigDigits l.number : ℤ) + -l.scaleRead) =
          sigDigits l.number + -l.scaleRead :=
        wrap64_eq (by omega) (by omega)
      rw [hsum, List.length_append, List.length_replicate, hlen,
        max_eq_right hneg.le]
      by_cases hfit : (38 : ℤ) < sigDigits l.number + -l.scaleRead
      · rw [if_pos (Or.inr hfit)]
        exact ⟨fun h => by omega, fun _ => rfl⟩
      · rw [if_neg (by omega), if_neg (by omega)]
        exact ⟨fun _ => rfl, fun h => absurd ⟨by omega, by omega⟩ h⟩
  · have hnone : (-l.scaleRead).toNat = 0 := by omega
    rw [if_neg hneg, hnone, List.replicate_zero, List.append_nil,
      max_eq_left (by omega : (0 : ℤ) ≤ l.scaleRead)]
    by_cases hfit : 65535 < l.scaleRead ∨ 38 < sigDigits l.number
    · rw [if_pos hfit]
      exact ⟨fun h => by omega, fun _ => rfl⟩
    · rw [if_neg hfit]
      exact ⟨fun _ => rfl, fun h => absurd ⟨by omega, by omega⟩ h⟩

/-- A scale past the integers wraps to a negative one, and only the most
negative integer is its own negation. -/
theorem llvmScale_wrapped (negative : Bool) (hn : 0 < l.number)
    (hsig : sigDigits l.number < 2 ^ 62)
    (h₀ : 2 ^ 63 ≤ l.scaleRead) (h₁ : l.scaleRead < 2 ^ 63 + 2 ^ 62) :
    (llvmScale l.walked negative).isSome = true ↔
      l.scaleRead = 2 ^ 63 ∧ l.number < 10 ^ 38 := by
  have hlen := l.significand_spec.2.2
  have hdigits := sigDigits_le_iff l.number 38
  have hscale : wrap64 l.scaleRead = l.scaleRead - 2 ^ 64 :=
    wrap64_of_le (by omega) (by omega)
  unfold llvmScale
  rw [show l.walked.digits.dropWhile (· == asciiZero) = l.significand from rfl,
    show l.walked.fractional - l.walked.exponent = l.scaleRead from rfl]
  dsimp only
  rw [if_neg (mt l.significand_eq_nil_iff.mp hn.ne'), hscale,
    if_pos (by omega), hlen, zero_sub, neg_sub, List.length_append,
    List.length_replicate, hlen]
  rcases eq_or_lt_of_le h₀ with hedge | hpast
  · have happend : wrap64 (2 ^ 64 - l.scaleRead) = -2 ^ 63 := by
      rw [← hedge]
      decide
    have hsum : wrap64 ((sigDigits l.number : ℤ) + -2 ^ 63) =
        sigDigits l.number + -2 ^ 63 :=
      wrap64_eq (by omega) (by omega)
    rw [happend, hsum, if_neg (by omega)]
    split_ifs with h
    · simp only [Option.isSome_none, Bool.false_eq_true, false_iff, not_and]
      omega
    · simp only [Option.isSome_some, true_iff]
      omega
  · have happend : wrap64 (2 ^ 64 - l.scaleRead) = 2 ^ 64 - l.scaleRead :=
      wrap64_eq (by omega) (by omega)
    rw [happend, if_pos (Or.inl (by omega))]
    simp only [Option.isSome_none, Bool.false_eq_true, false_iff, not_and]
    omega

/-- The emitter on a literal is its range check on the walked mantissa. -/
theorem llvmDecimalFields_text :
    llvmDecimalFields l.text =
      if l.exponentRead = -88888888 then none
      else llvmScale l.walked false := by
  have hfirst : ¬ l.text.head? = some asciiMinus := by
    rw [text_eq, List.cons_append, List.head?_cons, Option.some_inj]
    intro h
    exact absurd l.first_ok (by rw [h]; decide)
  have hdigits : l.mantissa ≠ [] := by
    intro h
    have hpos := l.digitCount_pos
    rw [← length_plain] at hpos
    rw [mantissa] at h
    rw [(List.append_eq_nil_iff.mp h).1] at hpos
    exact absurd hpos (by decide)
  unfold llvmDecimalFields
  rw [l.baseLiteralDecimalText_text]
  dsimp only
  rw [if_neg (by simp), l.decSkipSign_text, l.llvmWalk_text,
    decide_eq_false hfirst]
  by_cases hread : l.exponentRead = -88888888
  · rw [if_pos hread, if_pos hread]
  · rw [if_neg hread, if_neg hread]
    dsimp only
    rw [if_neg hdigits]
    rfl

/-- What the emitter accepts, the wrapped scales included. -/
theorem llvmDecimalFields_isSome (hlen : l.text.length < 2 ^ 62) :
    (llvmDecimalFields l.text).isSome = true ↔
      if l.number = 0 then wrap64 l.scaleRead ≤ 65535
      else if l.scaleRead < 2 ^ 63 then InRange l.number l.scaleRead
      else l.scaleRead = 2 ^ 63 ∧ l.number < 10 ^ 38 := by
  have hf := l.fractional_le
  have hsig := l.sigDigits_number_le
  have hmax : bdecMaxScale = 65535 := rfl
  have hread := l.exponentRead_spec
  have hraw : l.scaleRead = l.fractional - l.exponentRead := rfl
  have hlow : -2 ^ 63 < l.scaleRead := by
    split_ifs at hread <;> omega
  have hhigh : l.scaleRead < 2 ^ 63 + 2 ^ 62 := by
    split_ifs at hread <;> omega
  rw [llvmDecimalFields_text]
  by_cases hunread : l.exponentRead = -88888888
  · have hscale : l.scaleRead = l.fractional + 88888888 := by omega
    have hwrap : wrap64 l.scaleRead = l.scaleRead :=
      wrap64_eq (by omega) (by omega)
    rw [if_pos hunread]
    simp only [Option.isSome_none, Bool.false_eq_true, false_iff]
    split_ifs
    · omega
    · intro h
      have := h.2
      omega
    · omega
  · rw [if_neg hunread]
    by_cases hn : l.number = 0
    · rw [if_pos hn, l.llvmScale_zero false hn]
      split_ifs with h <;> simp [h]
    · have hpos : 0 < l.number := Nat.pos_of_ne_zero hn
      rw [if_neg hn]
      by_cases hplain : l.scaleRead < 2 ^ 63
      · obtain ⟨hin, hout⟩ :=
          l.llvmScale_plain false hpos (by omega) hlow hplain
        rw [if_pos hplain]
        by_cases hfit : InRange l.number l.scaleRead
        · rw [hin hfit]
          exact iff_of_true rfl hfit
        · rw [hout hfit]
          exact iff_of_false Bool.false_ne_true hfit
      · rw [if_neg hplain]
        exact l.llvmScale_wrapped false hpos (by omega) (by omega) hhigh

/-- Exponents up to 4096 read alike everywhere; the scale is the one the
spelling asks for. -/
theorem scaleRead_eq (h : l.exponentMagnitude ≤ 4096) :
    l.scaleRead = l.scale := by
  rw [scaleRead, scale, exponentRead, l.saturated_eq h]

theorem scale_eq :
    l.scale = if l.exponentNegative then
        (l.fractional : ℤ) + l.exponentMagnitude
      else (l.fractional : ℤ) - l.exponentMagnitude := by
  rw [scale, exponentValue_eq]
  split_ifs <;> omega

end Spelling

theorem llvmDecimalConstant_ne_nil_iff (text : List UInt8) :
    llvmDecimalConstant text ≠ [] ↔ (llvmDecimalFields text).isSome = true := by
  unfold llvmDecimalConstant
  cases llvmDecimalFields text with
  | none => simp
  | some c =>
    simp [bytes]

theorem head_of_headD {c : UInt8 → Bool} (h : c (xs.headD 0) = true)
    (h₀ : c 0 = false) : ∃ x rest, xs = x :: rest ∧ c x = true := by
  cases xs with
  | nil => rw [List.headD_nil, h₀] at h; exact absurd h Bool.false_ne_true
  | cons x rest => exact ⟨x, rest, rfl, h⟩

theorem takeWhile_all (p : UInt8 → Bool) (xs : List UInt8) :
    ∀ c ∈ xs.takeWhile p, p c = true :=
  fun _ hc => List.mem_takeWhile_imp hc

theorem scanFraction_spec (rest : List UInt8) :
    ∃ fraction : Option (List UInt8),
      (∀ ds ∈ fraction, ∀ c ∈ ds, isDigitPart c = true) ∧
      scanFraction rest =
        match fraction with
        | none => []
        | some ds => asciiDot :: ds := by
  unfold scanFraction
  split_ifs
  · refine ⟨some ((rest.drop 1).takeWhile isDigitPart), ?_, rfl⟩
    rintro ds hds
    rw [Option.mem_some_iff] at hds
    rw [← hds]
    exact takeWhile_all _ _
  · exact ⟨none, fun _ h => absurd h (Option.not_mem_none _), rfl⟩

theorem takeWhile_ne_nil (h : isDigit (xs.headD 0) = true) :
    xs.takeWhile isDigit ≠ [] := by
  obtain ⟨x, rest, rfl, hx⟩ := head_of_headD h rfl
  rw [List.takeWhile_cons_of_pos hx]
  exact List.cons_ne_nil _ _

theorem scanExponent_spec (rest : List UInt8) :
    ∃ exponent : Option Exponent,
      scanExponent rest =
        match exponent with
        | none => []
        | some e => e.text := by
  unfold scanExponent
  cases rest with
  | nil => exact ⟨none, rfl⟩
  | cons mark after =>
    dsimp only
    split_ifs with hmark
    · unfold scanExponentDigits
      split_ifs with hdigit hsign
      · exact ⟨some ⟨mark, none, after.takeWhile isDigit, hmark,
          fun _ h => absurd h (Option.not_mem_none _), takeWhile_all _ _,
          takeWhile_ne_nil hdigit⟩, rfl⟩
      · refine ⟨some ⟨mark, some (after.headD 0),
          (after.drop 1).takeWhile isDigit, hmark, ?_, takeWhile_all _ _,
          takeWhile_ne_nil hsign.2⟩, rfl⟩
        intro c hc
        rw [Option.mem_some_iff] at hc
        rw [← hc]
        exact hsign.1
      · exact ⟨none, rfl⟩
    · exact ⟨none, rfl⟩

/-- A literal starts with a base prefix. -/
def BasePrefix (source : List UInt8) : Prop :=
  source.headD 0 = asciiZero ∧
    (isHexMark ((source.drop 1).headD 0) = true ∨
      isBinaryMark ((source.drop 1).headD 0) = true)

/-- Where a literal starts with a digit and no base prefix, the lexer produces
a spelling. -/
theorem scanNumber_spelling {source : List UInt8}
    (hdigit : isDigit (source.headD 0) = true) (hbase : ¬ BasePrefix source) :
    ∃ l : Spelling, (scanNumber source).text = l.text := by
  obtain ⟨first, after, rfl, hfirst⟩ := head_of_headD hdigit rfl
  have hpart : isDigitPart first = true := by
    rw [isDigitPart, hfirst, Bool.true_or]
  obtain ⟨fraction, hfraction, hfractionText⟩ :=
    scanFraction_spec ((first :: after).dropWhile isDigitPart)
  obtain ⟨exponent, hexponentText⟩ := scanExponent_spec
    (((first :: after).dropWhile isDigitPart).drop
      (scanFraction ((first :: after).dropWhile isDigitPart)).length)
  refine ⟨⟨first, after.takeWhile isDigitPart, fraction, exponent, hfirst,
    takeWhile_all _ _, hfraction⟩, ?_⟩
  unfold scanNumber
  rw [if_neg fun h => hbase ⟨h.1, Or.inl h.2⟩,
    if_neg fun h => hbase ⟨h.1, Or.inr h.2⟩]
  dsimp only
  rw [hexponentText, hfractionText, List.takeWhile_cons_of_pos hpart]
  rfl

/-- The coefficient of an emitted constant. -/
def LlvmDecimal.coefficient (c : LlvmDecimal) : ℤ :=
  if c.negative then -(digitsFold 0 c.digits : ℤ) else digitsFold 0 c.digits

/-- Checker, emitter and runtime accept the same text, and give it the same
coefficient and scale, which denote `value`. -/
structure OneMeaning (text : List UInt8) (value : ℚ) : Prop where
  emitter : decimalLiteralFits text = true ↔ llvmDecimalConstant text ≠ []
  runtime : decimalLiteralFits text = true ↔ (decParseText text).isSome = true
  meaning : decimalLiteralFits text = true →
    ∃ c d, llvmDecimalFields text = some c ∧ decParseText text = some d ∧
      d.coeff = c.coefficient ∧ d.s = c.scale ∧ d.toRat = value

namespace Spelling

variable (l : Spelling)

/-- A literal whose exponent exceeds 4096 and which checker and emitter both
refuse. -/
def RefusedAlike : Prop :=
  if l.number = 0 then
    if l.exponentNegative then
      65535 < l.fractional + l.exponentMagnitude ∧
        l.fractional + l.exponentMagnitude < 2 ^ 63
    else
      l.exponentMagnitude < 10 ^ 7 ∧
        l.exponentMagnitude + 65535 < l.fractional
  else
    ¬ InRange l.number l.scale ∧
      ¬ (l.exponentNegative = true ∧
        l.fractional + min l.exponentMagnitude (2 ^ 63) = 2 ^ 63 ∧
        l.number < 10 ^ 38)

theorem digitsFold_zeros (v : ℕ) :
    ∀ k : ℕ, digitsFold v (List.replicate k asciiZero) = v * 10 ^ k
  | 0 => by simp [digitsFold]
  | k + 1 => by
      have hzero : digitValue asciiZero = 0 := by decide
      rw [List.replicate_succ, digitsFold, if_neg (by decide),
        digitsFold_zeros _ k, hzero, pow_succ]
      ring

/-- Within the 4096 cap the emitter's constant and the runtime's decimal have
the coefficient and the scale of the spelling. -/
theorem meaning_of_inRange (hlen : l.text.length < 2 ^ 62)
    (hexp : l.exponentMagnitude ≤ 4096) (hfit : InRange l.number l.scale) :
    ∃ c d, llvmDecimalFields l.text = some c ∧
      decParseText l.text = some d ∧
      d.coeff = c.coefficient ∧ d.s = c.scale ∧ d.toRat = l.toRat := by
  have hf := l.fractional_le
  have hsig := l.sigDigits_number_le
  have hmax : bdecMaxScale = 65535 := rfl
  have hscale := l.scaleRead_eq hexp
  have hscaleEq := l.scale_eq
  have hle := hfit.2
  have hlow : -2 ^ 63 < l.scale := by
    split_ifs at hscaleEq <;> omega
  have hunread : ¬ l.exponentRead = -88888888 := by
    intro h
    rw [scaleRead, h] at hscale
    omega
  have h127 : l.number * 10 ^ (-l.scale).toNat < 2 ^ 127 :=
    lt_trans hfit.1 (by norm_num [bdecPrecision])
  have hof : (BU128.ofNat (l.number * 10 ^ (-l.scale).toNat)).toNat =
      l.number * 10 ^ (-l.scale).toNat :=
    BU128.toNat_ofNat (by omega)
  have hcoeff : (decSet (BU128.ofNat (l.number * 10 ^ (-l.scale).toNat)) false
      (max l.scale 0)).coeff = (l.number * 10 ^ (-l.scale).toNat : ℕ) := by
    rw [decSet_coeff _ _ (by rw [hof]; exact h127), hof]
    simp
  have hparse : decParseText l.text =
      some (decSet (BU128.ofNat (l.number * 10 ^ (-l.scale).toNat)) false
        (max l.scale 0)) := by
    have h := l.decParseText_spec false
    rw [if_neg Bool.false_ne_true, List.nil_append, if_pos hexp, decimalOf,
      if_pos hfit] at h
    exact h
  have hvalue : (decSet (BU128.ofNat (l.number * 10 ^ (-l.scale).toNat)) false
      (max l.scale 0)).toRat = l.toRat := by
    rw [BDec.toRat, hcoeff, decSet_s, toRat,
      ← workingRat_mul_pow l.number (-l.scale).toNat l.scale,
      show l.scale + ((-l.scale).toNat : ℤ) = max l.scale 0 by omega, workingRat]
    push_cast
    rfl
  rcases Nat.eq_zero_or_pos l.number with hn | hn
  · have hwrap : wrap64 l.scaleRead = l.scale := by
      rw [hscale]
      exact wrap64_eq (by omega) (by omega)
    refine ⟨⟨false, [asciiZero], max l.scale 0⟩, _, ?_, hparse, ?_, rfl, hvalue⟩
    · rw [llvmDecimalFields_text, if_neg hunread, l.llvmScale_zero false hn,
        hwrap, if_pos (by omega)]
    · rw [hcoeff, hn, Nat.zero_mul]
      rfl
  · have hemit := (l.llvmScale_plain false hn (by omega) (by omega)
      (by omega)).1 (by rw [hscale]; exact hfit)
    rw [hscale] at hemit
    refine ⟨⟨false, l.significand ++ List.replicate (-l.scale).toNat asciiZero,
      max l.scale 0⟩, _, ?_, hparse, ?_, rfl, hvalue⟩
    · rw [llvmDecimalFields_text, if_neg hunread, hemit]
    · rw [hcoeff, LlvmDecimal.coefficient, if_neg Bool.false_ne_true,
        digitsFold_append, l.significand_spec.2.1, digitsFold_zeros]

theorem scaleRead_spec :
    l.scaleRead = if l.exponentNegative then
        (l.fractional : ℤ) + ((min l.exponentMagnitude (2 ^ 63) : ℕ) : ℤ)
      else
        (l.fractional : ℤ) -
          ((min l.exponentMagnitude (2 ^ 63 - 1) : ℕ) : ℤ) := by
  rw [scaleRead, exponentRead_spec]
  split_ifs <;> omega

/-- What checker and emitter both refuse, in digits and exponent. -/
theorem refusedAlike_spec (hlen : l.text.length < 2 ^ 62) :
    (¬ ((l.exponentMagnitude < 10 ^ 7 ∧ InRange l.number l.scale) ∨
        (10 ^ 7 ≤ l.exponentMagnitude ∧ l.exponentMagnitude < 2 ^ 63 ∧
          l.exponentNegative = false ∧ l.number = 0)) ∧
      ¬ (if l.number = 0 then wrap64 l.scaleRead ≤ 65535
        else if l.scaleRead < 2 ^ 63 then InRange l.number l.scaleRead
        else l.scaleRead = 2 ^ 63 ∧ l.number < 10 ^ 38)) ↔
      l.RefusedAlike := by
  have hf := l.fractional_le
  have hmax : bdecMaxScale = 65535 := rfl
  have hscale := l.scale_eq
  have hread := l.scaleRead_spec
  unfold RefusedAlike
  rcases Nat.eq_zero_or_pos l.number with hn | hn
  · have hwrap : wrap64 l.scaleRead =
        if l.scaleRead < 2 ^ 63 then l.scaleRead else l.scaleRead - 2 ^ 64 := by
      have hlow : -2 ^ 63 < l.scaleRead ∧ l.scaleRead < 2 ^ 64 := by
        split_ifs at hread <;> omega
      by_cases hlt : l.scaleRead < 2 ^ 63
      · rw [if_pos hlt, wrap64_eq (by omega) hlt]
      · rw [if_neg hlt, wrap64_of_le (by omega) hlow.2]
    rw [if_pos hn, if_pos hn, hn, inRange_zero_iff, hwrap, hmax]
    by_cases hneg : l.exponentNegative = true
    · rw [if_pos hneg] at hscale hread ⊢
      rw [hneg]
      split_ifs <;> simp only [false_and, and_false, or_false] <;> omega
    · rw [if_neg hneg] at hscale hread ⊢
      rw [Bool.not_eq_true] at hneg
      rw [hneg]
      simp only [and_true]
      split_ifs <;> omega
  · have hcoeff := sigDigits_le_iff l.number 38
    rw [if_neg hn.ne', if_neg hn.ne', inRange_iff hn, inRange_iff hn, hmax,
      ← hcoeff]
    by_cases hneg : l.exponentNegative = true
    · rw [if_pos hneg] at hscale hread
      rw [hneg]
      simp only [true_and]
      split_ifs <;> omega
    · rw [if_neg hneg] at hscale hread
      rw [Bool.not_eq_true] at hneg
      rw [hneg]
      simp only [Bool.false_eq_true, false_and, not_false_eq_true, and_true]
      rw [if_pos (by omega)]
      omega

/-- A literal means one thing exactly when its exponent stays within the
runtime's cap or everyone refuses it. -/
theorem oneMeaning_holds_iff (hlen : l.text.length < 2 ^ 62) :
    OneMeaning l.text l.toRat ↔
      l.exponentMagnitude ≤ 4096 ∨ l.RefusedAlike := by
  have hfits := l.decimalLiteralFits_spec hlen
  have hemit := l.llvmDecimalFields_isSome hlen
  have hparse := l.decParseText_spec false
  have hf := l.fractional_le
  have hmax : bdecMaxScale = 65535 := rfl
  have hscaleEq := l.scale_eq
  rw [if_neg Bool.false_ne_true, List.nil_append] at hparse
  rw [← llvmDecimalConstant_ne_nil_iff] at hemit
  by_cases hexp : l.exponentMagnitude ≤ 4096
  · have hread := l.scaleRead_eq hexp
    have hlow : -2 ^ 63 < l.scale ∧ l.scale < 2 ^ 63 := by
      split_ifs at hscaleEq <;> omega
    have hwrap : wrap64 l.scale = l.scale := wrap64_eq (by omega) (by omega)
    have hfit : decimalLiteralFits l.text = true ↔ InRange l.number l.scale := by
      rw [hfits]
      exact ⟨fun h => h.elim And.right (fun h => by omega),
        fun h => Or.inl ⟨by omega, h⟩⟩
    refine iff_of_true ⟨?_, ?_, ?_⟩ (Or.inl hexp)
    · rw [hfit, hemit, hread]
      split_ifs with hn
      · rw [hn, inRange_zero_iff, hwrap, hmax]
      · exact Iff.rfl
      · omega
    · rw [hfit, hparse, if_pos hexp, decimalOf]
      split_ifs with h <;> simp [h]
    · intro h
      exact l.meaning_of_inRange hlen hexp (hfit.mp h)
  · have hrefused : OneMeaning l.text l.toRat ↔
        ¬ decimalLiteralFits l.text = true ∧
          ¬ llvmDecimalConstant l.text ≠ [] := by
      rw [if_neg hexp] at hparse
      constructor
      · intro h
        have hfit : ¬ decimalLiteralFits l.text = true := by
          rw [h.runtime, hparse]
          exact Bool.false_ne_true
        exact ⟨hfit, fun hc => hfit (h.emitter.mpr hc)⟩
      · rintro ⟨hfit, hconst⟩
        exact ⟨iff_of_false hfit hconst,
          iff_of_false hfit (by rw [hparse]; exact Bool.false_ne_true),
          fun h => absurd h hfit⟩
    rw [hrefused, hfits, hemit, or_iff_right hexp]
    exact l.refusedAlike_spec hlen

end Spelling

/--
A literal the lexer produces means one thing to checker, emitter and runtime
exactly when its exponent stays within the 4096 of the runtime's parser, or
checker and emitter refuse the literal as well.
-/
theorem decimalLiteral_oneMeaning_iff
    (source : List UInt8)
    (hdigit : isDigit (source.headD 0) = true)
    (hbase : ¬ BasePrefix source)
    (hlen : (scanNumber source).text.length < 2 ^ 62) :
    ∃ l : Spelling, (scanNumber source).text = l.text ∧
      (OneMeaning (scanNumber source).text l.toRat ↔
        l.exponentMagnitude ≤ 4096 ∨ l.RefusedAlike) := by
  obtain ⟨l, hl⟩ := scanNumber_spelling hdigit hbase
  rw [hl] at hlen ⊢
  exact ⟨l, rfl, l.oneMeaning_holds_iff hlen⟩

/-- The literal at the start of `1.50;`. -/
theorem decimalLiteral_oneMeaning_iff_price :
    ∃ l : Spelling, (scanNumber [49, 46, 53, 48, 59]).text = l.text ∧
      (OneMeaning (scanNumber [49, 46, 53, 48, 59]).text l.toRat ↔
        l.exponentMagnitude ≤ 4096 ∨ l.RefusedAlike) :=
  decimalLiteral_oneMeaning_iff [49, 46, 53, 48, 59] (by decide)
    (by unfold BasePrefix; decide) (by decide)

/-- `1e-5000` passes the checker and gets a constant, and the runtime's parser
refuses it. -/
theorem decimalLiteral_smallPower_splits :
    (scanNumber [49, 101, 45, 53, 48, 48, 48]).text =
        [49, 101, 45, 53, 48, 48, 48] ∧
      ∀ value : ℚ, ¬ OneMeaning [49, 101, 45, 53, 48, 48, 48] value := by
  have hfits : decimalLiteralFits [49, 101, 45, 53, 48, 48, 48] = true := by
    decide +kernel
  have hparse : decParseText [49, 101, 45, 53, 48, 48, 48] = none := by
    decide +kernel
  refine ⟨by decide, fun value h => ?_⟩
  have hread := h.runtime.mp hfits
  rw [hparse] at hread
  exact Bool.false_ne_true hread

end Decimal
end Beans
