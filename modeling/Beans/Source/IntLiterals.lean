import Beans.Foundation.Horner
import Beans.Hir.Types
import Beans.Source.WholeScan

/-!
# Integer literals

The range check compares the digits of a literal with those of the bounds and never
computes its value.  The interpreter reads a literal into a word, the emitter
rewrites it as decimal text.

An integer token of the lexer is a run of digits and underscores with a digit in it,
in base ten or behind a prefix for base sixteen or two.
-/

namespace Beans
namespace Source

open Hir (canonicalHirName)

/-- The width of an integer type, or none for another type. -/
def integerLiteralBits (name : Text) : ℕ :=
  let canonical := canonicalHirName name
  if canonical = ascii "i8" ∨ canonical = ascii "u8" then 8
  else if canonical = ascii "i16" ∨ canonical = ascii "u16" then 16
  else if canonical = ascii "i32" ∨ canonical = ascii "u32" then 32
  else if canonical = ascii "int" ∨ canonical = ascii "u64" then 64
  else 0

def integerLiteralSigned (name : Text) : Bool :=
  let canonical := canonicalHirName name
  canonical == ascii "int" || canonical == ascii "i8" || canonical == ascii "i16" ||
    canonical == ascii "i32"

def withoutLeadingZeroes (value : Text) : Text :=
  value.dropWhile (· == 48)

/-- The comparison of `decimal_magnitude_at_most`, digit by digit. -/
def digitsAtMost : Text → Text → Bool
  | digit :: magnitude, edge :: limit =>
    if digit ≠ edge then decide (digit < edge) else digitsAtMost magnitude limit
  | _, _ => true

def decimalMagnitudeAtMost (value limit : Text) : Bool :=
  let magnitude := withoutLeadingZeroes value
  if magnitude.length ≠ limit.length then decide (magnitude.length < limit.length)
  else digitsAtMost magnitude limit

/-- The digits are the given one and zeroes. -/
def powerOfTwoEdge (value : Text) (edge : ℕ) : Bool :=
  match value with
  | [] => false
  | first :: rest => hexDigitValue first.toNat == edge && rest.all fun byte => hexDigitValue byte.toNat == 0

/-- The greatest magnitude of a type, in digits. -/
def integerDecimalLimit (bits : ℕ) (signed negative : Bool) : Text :=
  if bits = 8 then
    if signed then ascii (if negative then "128" else "127") else ascii "255"
  else if bits = 16 then
    if signed then ascii (if negative then "32768" else "32767") else ascii "65535"
  else if bits = 32 then
    if signed then ascii (if negative then "2147483648" else "2147483647")
    else ascii "4294967295"
  else if signed then
    ascii (if negative then "9223372036854775808" else "9223372036854775807")
  else ascii "18446744073709551615"

/-- `text.replace("_", "")`. -/
def withoutUnderscores (text : Text) : Text :=
  text.filter (· != 95)

def startsHex (text : Text) : Bool :=
  (ascii "0x").isPrefixOf text || (ascii "0X").isPrefixOf text

def startsBinary (text : Text) : Bool :=
  (ascii "0b").isPrefixOf text || (ascii "0B").isPrefixOf text

/-- The base of a spelling without underscores, and its digits. -/
def baseAndDigits (text : Text) : ℕ × Text :=
  if startsHex text then (16, text.drop 2)
  else if startsBinary text then (2, text.drop 2)
  else (10, text)

/-- The check of a binary literal. -/
def binaryFits (bits : ℕ) (signed negative : Bool) (digits : Text) : Bool :=
  if !signed then decide (digits.length ≤ bits)
  else if digits.length < bits then true
  else if digits.length > bits || !negative then false
  else powerOfTwoEdge digits 1

/-- The check of a hexadecimal literal. -/
def hexFits (width : ℕ) (signed negative : Bool) (digits : Text) : Bool :=
  if digits.length < width then true
  else if digits.length > width then false
  else if !signed then true
  else
    let first := hexDigitValue (digits.headD 0).toNat
    if !negative then decide (first ≤ 7)
    else if first < 8 then true
    else first == 8 && powerOfTwoEdge digits 8

/-- The checker's test of a literal, base by base. -/
def integerLiteralFits (text typeName : Text) (negative : Bool) : Bool :=
  let bits := integerLiteralBits typeName
  let signed := integerLiteralSigned typeName
  if bits = 0 then true
  else
    let (base, digits) := baseAndDigits (withoutUnderscores text)
    let digits := withoutLeadingZeroes digits
    if digits.length = 0 then true
    else if negative && !signed then false
    else if base = 10 then
      decimalMagnitudeAtMost digits (integerDecimalLimit bits signed negative)
    else if base = 2 then binaryFits bits signed negative digits
    else hexFits (bits / 4) signed negative digits

def treeMaskUnsigned (value : UInt64) (bits : ℕ) : UInt64 :=
  if bits ≥ 64 then value else value &&& ((1 <<< UInt64.ofNat bits) - 1)

/-- The bits of a width, read as a signed number. -/
def treeSignedFromBits (value : UInt64) (bits : ℕ) : Int64 :=
  let narrowed := treeMaskUnsigned value bits
  if bits ≥ 64 then
    if narrowed ≤ 9223372036854775807 then narrowed.toInt64 else -1 - (~~~narrowed).toInt64
  else
    let sign : UInt64 := 1 <<< UInt64.ofNat (bits - 1)
    if narrowed &&& sign ≠ 0 then
      let mask : UInt64 := (1 <<< UInt64.ofNat bits) - 1
      let extended := narrowed ||| ~~~mask;
      -1 - (~~~extended).toInt64
    else narrowed.toInt64

/-- A digit of `tree_parse_unsigned`. -/
def unsignedDigit (byte : UInt8) : UInt64 :=
  if 48 ≤ byte ∧ byte ≤ 57 then (byte - 48).toUInt64
  else if 97 ≤ byte ∧ byte ≤ 102 then (byte - 87).toUInt64
  else if 65 ≤ byte ∧ byte ≤ 70 then (byte - 55).toUInt64
  else 0

/-- The digits are folded into a word, which wraps. -/
def treeParseUnsigned (source : Text) : UInt64 :=
  let (base, digits) := baseAndDigits (withoutUnderscores source)
  digits.foldl (fun value byte => value * UInt64.ofNat base + unsignedDigit byte) 0

/-- The digits that `rt_parse_i64` accumulates below `cap`, and what follows them; none
after an overflow. -/
def parseDigits (cap : ℕ) : Text → Option ℕ → Option ℕ × Text
  | [], value => (value, [])
  | byte :: rest, value =>
    if 48 ≤ byte ∧ byte ≤ 57 then
      let digit := byte.toNat - 48
      parseDigits cap rest (value.bind fun value =>
        if value > (cap - digit) / 10 then none else some (value * 10 + digit))
    else (value, byte :: rest)

/-- `text.to_int()`: the nearest integer of a word, or an error. -/
def toInt (text : Text) : Option Int64 :=
  let text := text.dropWhile fun byte => byte == 32 || byte == 9 || byte == 10 || byte == 13
  let negative := text.head? = some 45
  let text := if text.head? = some 43 ∨ text.head? = some 45 then text.drop 1 else text
  match text with
  | [] => none
  | first :: rest =>
    if first < 48 ∨ first > 57 then none
    else
      let cap := if negative then 9223372036854775808 else 9223372036854775807
      let (value, after) := parseDigits cap (first :: rest) (some 0)
      if after ≠ [] then none
      else
        let magnitude : ℤ := value.getD cap
        some (Int64.ofInt (if negative then -magnitude else magnitude))

/-- What the interpreter loads for a literal. -/
def treeParseInt (source : Text) : Int64 :=
  let clean := withoutUnderscores source
  if startsHex clean || startsBinary clean then treeSignedFromBits (treeParseUnsigned clean) 64
  else if clean.head? = some 45 ∧ (startsHex (clean.drop 1) ∨ startsBinary (clean.drop 1)) then
    treeSignedFromBits (0 - treeParseUnsigned (clean.drop 1)) 64
  else
    let negative : Bool := clean.head? = some 45
    let magnitude := if negative then clean.drop 1 else clean
    if ¬ integerLiteralFits magnitude (ascii "int") negative then
      let bits := treeParseUnsigned magnitude
      if negative then treeSignedFromBits (0 - bits) 64 else treeSignedFromBits bits 64
    else
      match toInt clean with
      | some value => value
      | none => treeSignedFromBits (treeParseUnsigned clean) 64

def toLower (text : Text) : Text :=
  text.map fun byte => if 65 ≤ byte ∧ byte ≤ 90 then byte + 32 else byte

/-- The base a marker stands for. -/
def markerBase (marker : UInt8) : Option ℕ :=
  if marker = 120 ∨ marker = 88 then some 16
  else if marker = 98 ∨ marker = 66 then some 2
  else if marker = 111 ∨ marker = 79 then some 8
  else none

/-- The word the digits of a base accumulate to, unless one is none of that base. -/
def accumulate (base : ℕ) : Text → Int64 → Option Int64
  | [], value => some value
  | byte :: rest, value =>
    if hexDigitValue byte.toNat ≥ base then none
    else accumulate base rest (value * Int64.ofNat base + Int64.ofNat (hexDigitValue byte.toNat))

/-- What the emitter writes for a literal, in decimal. -/
def llvmIntegerConstant (text : Text) : Text :=
  let cleaned := withoutUnderscores text
  let negative : Bool := cleaned.head? = some 45
  match if negative then cleaned.drop 1 else cleaned with
  | 48 :: marker :: digits =>
    match markerBase marker with
    | none => cleaned
    | some base =>
      if !negative && base == 16 && toLower digits == ascii "ffffffffffffffff" then ascii "-1"
      else if negative && base == 16 && toLower digits == ascii "8000000000000000" then
        ascii "-9223372036854775808"
      else
        match accumulate base digits 0 with
        | none => cleaned
        | some value => Text.ofInt (if negative then 0 - value else value).toInt
  | _ => cleaned

/-- Digits of a base and underscores, and a digit among them. -/
structure BaseDigits (base : ℕ) (digits : Text) : Prop where
  all : ∀ c ∈ digits, hexDigitValue c.toNat < base ∨ c = 95
  some : ∃ c ∈ digits, hexDigitValue c.toNat < base

/-- A spelling with its base and its digits. -/
inductive IntSpelling : ℕ → Text → Text → Prop
  | decimal (digits : Text) : BaseDigits 10 digits → IntSpelling 10 digits digits
  | hex (marker : UInt8) (digits : Text) : marker = 120 ∨ marker = 88 →
      BaseDigits 16 digits → IntSpelling 16 (48 :: marker :: digits) digits
  | binary (marker : UInt8) (digits : Text) : marker = 98 ∨ marker = 66 →
      BaseDigits 2 digits → IntSpelling 2 (48 :: marker :: digits) digits

/-- The byte of a digit and its value. -/
theorem hexDigitValue_spec (value : ℕ) :
    (48 ≤ value ∧ value ≤ 57 ∧ hexDigitValue value = value - 48) ∨
      (65 ≤ value ∧ value ≤ 70 ∧ hexDigitValue value = value - 55) ∨
      (97 ≤ value ∧ value ≤ 102 ∧ hexDigitValue value = value - 87) ∨
      (¬ (48 ≤ value ∧ value ≤ 57) ∧ ¬ (65 ≤ value ∧ value ≤ 70) ∧
        ¬ (97 ≤ value ∧ value ≤ 102) ∧ hexDigitValue value = 16) := by
  rw [hexDigitValue]
  split_ifs with hdigit hupper hlower
  · exact .inl ⟨hdigit.1, hdigit.2, rfl⟩
  · exact .inr (.inl ⟨hupper.1, hupper.2, by omega⟩)
  · exact .inr (.inr (.inl ⟨hlower.1, hlower.2, by omega⟩))
  · exact .inr (.inr (.inr ⟨hdigit, hupper, hlower, rfl⟩))

theorem isDigit_iff (c : UInt8) :
    isDigit c.toNat = true ↔ hexDigitValue c.toNat < 10 := by
  have hspec := hexDigitValue_spec c.toNat
  rw [isDigit, Bool.and_eq_true, decide_eq_true_iff, decide_eq_true_iff]
  omega

theorem isHex_iff (c : UInt8) :
    isHex c.toNat = true ↔ hexDigitValue c.toNat < 16 := by
  have hspec := hexDigitValue_spec c.toNat
  simp only [isHex, isDigit, Bool.or_eq_true, Bool.and_eq_true, decide_eq_true_iff]
  omega

theorem isBinary_iff (c : UInt8) :
    (c.toNat == 48 || c.toNat == 49) = true ↔ hexDigitValue c.toNat < 2 := by
  have hspec := hexDigitValue_spec c.toNat
  rw [Bool.or_eq_true, beq_iff_eq, beq_iff_eq]
  omega

namespace Lexer

/-- What `scan_digits` has stepped over so far. -/
structure DigitRun (digit : ℕ → Bool) (lx : Lexer) (s : Lexer × Bool) : Prop where
  source : s.1.source = lx.source
  le : lx.pos ≤ s.1.pos
  all : ∀ c ∈ slice lx.source lx.pos s.1.pos, digit c.toNat = true ∨ c = 95
  some : s.2 = true → ∃ c ∈ slice lx.source lx.pos s.1.pos, digit c.toNat = true

variable {digit : ℕ → Bool} {lx : Lexer}

theorem digitStep_run (hdigit : digit 0 = false) {s s' : Lexer × Bool}
    (hs : DigitRun digit lx s) (h : digitStep digit s = some s') :
    DigitRun digit lx s' := by
  obtain ⟨hlt, -⟩ := digitStep_some hdigit h
  have hin : s.1.pos < lx.source.length := hs.source ▸ hlt
  have hbyte : s.1.peek = (lx.source[s.1.pos]).toNat := by
    rw [peek_eq hlt]
    simp only [hs.source]
  have hslice : slice lx.source lx.pos (s.1.pos + 1) =
      slice lx.source lx.pos s.1.pos ++ [lx.source[s.1.pos]] := by
    rw [← slice_append hs.le (Nat.le_succ _), slice_one hin]
  rw [digitStep] at h
  split_ifs at h with hcond
  cases h
  refine ⟨by rw [advance_source, hs.source], ?_, ?_, ?_⟩
  · rw [advance_pos hlt]
    exact hs.le.trans (Nat.le_succ _)
  · intro c hc
    rw [advance_pos hlt, hslice] at hc
    rcases List.mem_append.mp hc with hc | hc
    · exact hs.all c hc
    · rw [List.mem_singleton.mp hc, ← hbyte]
      rcases hcond with hd | hunderscore
      · exact .inl hd
      · exact .inr (UInt8.toNat_inj.mp (hbyte.symm.trans hunderscore))
  · intro hflag
    rw [advance_pos hlt, hslice]
    rcases (Bool.or_eq_true _ _).mp hflag with hbefore | hnow
    · obtain ⟨c, hc, hd⟩ := hs.some hbefore
      exact ⟨c, List.mem_append_left _ hc, hd⟩
    · exact ⟨_, List.mem_append_right _ List.mem_cons_self, hbyte ▸ hnow⟩

theorem scanDigits_run (hdigit : digit 0 = false) (lx : Lexer) :
    DigitRun digit lx (scanDigits digit lx) := by
  have hstart : DigitRun digit lx (lx, false) := by
    refine ⟨rfl, le_refl _, fun c hc => ?_, by simp⟩
    rw [slice_self] at hc
    exact absurd hc List.not_mem_nil
  exact Loop.run_invariant (fun _ _ => digitStep_run hdigit) hstart _

/-- A turn that appends a token, and how it is spelled if it is an integer. -/
def Spells (out : List Token) (r : Lexer × List Token) : Prop :=
  ∃ tok, r.2 = out ++ [tok] ∧
    (tok.kind = .int → ∃ base digits, IntSpelling base tok.text digits)

theorem spells_other {kind : Kind} (hkind : kind ≠ .int) (lx : Lexer) (out : List Token)
    (start line col : ℕ) :
    Spells out (lx.add out kind start line col) :=
  ⟨_, rfl, fun h => absurd h hkind⟩

variable {out : List Token}

theorem scanBased_spells {base : ℕ} {message : Text} (hdigit : digit 0 = false)
    (hbase : ∀ c : UInt8, digit c.toNat = true ↔ hexDigitValue c.toNat < base)
    (hspelling : ∀ digits, BaseDigits base digits → ∀ marker : UInt8,
      lx.peekNext = marker.toNat → IntSpelling base (48 :: marker :: digits) digits)
    (hzero : lx.peek = 48)
    (hnext : lx.peekNext ≠ 0) :
    Spells out (scanBased digit message lx out lx.pos lx.line lx.col) := by
  have hlt := lt_of_peekNext hnext
  have hin : lx.pos < lx.source.length := by omega
  have hpos : lx.advance.advance.pos = lx.pos + 2 := by
    rw [advance_pos (by rw [advance_source, advance_pos hin]; exact hlt), advance_pos hin]
  have hrun := scanDigits_run hdigit lx.advance.advance
  have hsource : lx.advance.advance.source = lx.source := by
    rw [advance_source, advance_source]
  simp only [scanBased]
  by_cases hflag : (scanDigits digit lx.advance.advance).2 = true
  · rw [if_pos hflag]
    refine ⟨_, rfl, fun _ => ?_⟩
    dsimp only
    have hle := hrun.le
    rw [hpos] at hle
    have hall := hrun.all
    have hsome := hrun.some hflag
    rw [hsource, hpos] at hall hsome
    have hfirst : lx.source[lx.pos] = 48 := by
      rw [peek_eq hin] at hzero
      exact UInt8.toNat_inj.mp hzero
    have hmarker : lx.peekNext = (lx.source[lx.pos + 1]).toNat := by
      rw [peekNext, if_neg (by omega), byteAt_eq hlt]
    refine ⟨base, slice lx.source (lx.pos + 2) (scanDigits digit lx.advance.advance).1.pos, ?_⟩
    rw [hrun.source, hsource, slice_cons (by omega) hin, slice_cons (by omega) hlt, hfirst]
    refine hspelling _ ⟨fun c hc => (hall c hc).imp_left (hbase c).mp, ?_⟩ _ hmarker
    obtain ⟨c, hc, hd⟩ := hsome
    exact ⟨c, hc, (hbase c).mp hd⟩
  · rw [if_neg hflag]
    exact spells_other (by simp) _ _ _ _ _

theorem scanFraction_none (h : lx.scanFraction.2 = false) :
    lx.scanFraction.1 = lx := by
  rw [scanFraction] at h ⊢
  split_ifs at h ⊢
  rfl

theorem scanExponent_none (h : lx.scanExponent.2 = false) :
    lx.scanExponent.1 = lx := by
  simp only [scanExponent] at h ⊢
  split_ifs at h ⊢
  · rfl
  · rfl

theorem scanNumber_spells (hlt : lx.pos < lx.source.length) (hdigit : isDigit lx.peek = true) :
    Spells out (lx.scanNumber out lx.pos lx.line lx.col) := by
  rw [scanNumber]
  split_ifs with hhex hbinary
  · refine scanBased_spells (by decide) isHex_iff (fun digits hdigits marker hmarker => ?_) hhex.1
      (by omega)
    rw [hmarker] at hhex
    exact .hex marker digits (hhex.2.imp UInt8.toNat_inj.mp UInt8.toNat_inj.mp) hdigits
  · refine scanBased_spells (by decide) isBinary_iff (fun digits hdigits marker hmarker => ?_)
      hbinary.1 (by omega)
    rw [hmarker] at hbinary
    exact .binary marker digits (hbinary.2.imp UInt8.toNat_inj.mp UInt8.toNat_inj.mp) hdigits
  · refine ⟨_, rfl, fun hkind => ⟨10, _, .decimal _ ?_⟩⟩
    dsimp only at hkind ⊢
    have hplain : (lx.advanceWhile isDigitOrUnderscore).scanFraction.2 = false ∧
        (lx.advanceWhile isDigitOrUnderscore).scanFraction.1.scanExponent.2 = false := by
      rw [← Bool.or_eq_false_iff]
      by_contra hfloat
      rw [Bool.not_eq_false] at hfloat
      rw [if_pos hfloat] at hkind
      simp at hkind
    rw [scanExponent_none hplain.2, scanFraction_none hplain.1]
    have hmoves := advanceWhile_moves (p := isDigitOrUnderscore) (by decide) lx
    rw [hmoves.source, advanceWhile_slice (p := isDigitOrUnderscore) (by decide) lx]
    refine ⟨fun c hc => ?_, lx.source[lx.pos], ?_, ?_⟩
    · have htest := List.mem_takeWhile_imp (p := fun c : UInt8 => isDigitOrUnderscore c.toNat) hc
      rcases (Bool.or_eq_true _ _).mp htest with hd | hunderscore
      · exact .inl ((isDigit_iff c).mp hd)
      · exact .inr (UInt8.toNat_inj.mp (eq_of_beq hunderscore))
    · rw [List.drop_eq_getElem_cons hlt, List.takeWhile_cons, if_pos]
      · exact List.mem_cons_self
      · rw [← peek_eq hlt, isDigitOrUnderscore, hdigit, Bool.true_or]
    · rw [← isDigit_iff, ← peek_eq hlt]
      exact hdigit

theorem scanIdent_spells (out : List Token) (start line col : ℕ) :
    Spells out (lx.scanIdent out start line col) := by
  refine spells_other ?_ _ _ _ _ _
  rw [keywordKind]
  split_ifs
  · simp
  · simp

theorem scanString_spells (out : List Token) (start line col : ℕ) :
    Spells out (lx.scanString out start line col) := by
  simp only [scanString]
  split_ifs
  · exact spells_other (by simp) _ _ _ _ _
  · exact spells_other (by simp) _ _ _ _ _

theorem scanRawString_spells (out : List Token) (start line col : ℕ) :
    Spells out (lx.scanRawString out start line col) := by
  simp only [scanRawString]
  split_ifs
  · exact spells_other (by simp) _ _ _ _ _
  · exact spells_other (by simp) _ _ _ _ _

theorem punctuation_spells (out : List Token) (start line col : ℕ) :
    Spells out (lx.punctuation out start line col) := by
  simp only [punctuation]
  split_ifs
  · exact spells_other (by simp) _ _ _ _ _
  · exact spells_other (by simp) _ _ _ _ _
  · exact spells_other (by simp) _ _ _ _ _

/-- Every integer so far is spelled as one. -/
def IntsSpelled (toks : List Token) : Prop :=
  ∀ tok ∈ toks, tok.kind = .int → ∃ base digits, IntSpelling base tok.text digits

theorem Spells.ints {r : Lexer × List Token} (h : Spells out r) (hout : IntsSpelled out) :
    IntsSpelled r.2 := by
  obtain ⟨tok, heq, htok⟩ := h
  rw [heq]
  exact mem_append_one hout htok

theorem scanStep_ints {s s' : Lexer × List Token} (h : scanStep s = some s')
    (hs : IntsSpelled s.2) :
    IntsSpelled s'.2 := by
  simp only [scanStep] at h
  split at h
  · cases h
  rename_i hend
  have hlt := not_atEnd_iff.mp hend
  split at h
  · cases h
    exact hs
  split at h
  · split at h
    · cases h
      exact mem_append_one hs (by simp)
    · cases h
      exact hs
  split at h
  · cases h
    exact hs
  split at h
  · cases h
    exact hs
  split at h
  · cases h
    exact (scanRawString_spells _ _ _ _).ints hs
  split at h
  · cases h
    exact (scanIdent_spells _ _ _ _).ints hs
  split at h
  · rename_i hdigit
    cases h
    exact (scanNumber_spells hlt hdigit).ints hs
  split at h
  · cases h
    exact (scanString_spells _ _ _ _).ints hs
  · cases h
    exact (punctuation_spells _ _ _ _).ints hs

/-- Every integer token of a source is spelled as one. -/
theorem int_token_spelled {source : Text} {tok : Token} (htok : tok ∈ (scan (init source)).2)
    (hkind : tok.kind = .int) :
    ∃ base digits, IntSpelling base tok.text digits := by
  have hrun : IntsSpelled (scanRun source).2 :=
    Loop.run_invariant (P := fun s : Lexer × List Token => IntsSpelled s.2)
      (fun _ _ hs hstep => scanStep_ints hstep hs) (by nofun) _
  have hended : IntsSpelled (endedRun source).2 := by
    simp only [endedRun]
    split_ifs
    · exact mem_append_one hrun (by simp)
    · exact hrun
  rw [scan_eq] at htok
  exact mem_append_one hended (by simp) tok htok hkind

end Lexer

end Source
end Beans
