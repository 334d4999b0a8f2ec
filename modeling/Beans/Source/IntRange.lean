import Beans.Source.IntLiterals

/-!
# The range check is exact

The comparisons of the three bases all decide whether the value of the digits is at
most the largest magnitude of the type.
-/

namespace Beans
namespace Source

open Hir (canonicalHirName)

inductive IntType where
  | i8 | i16 | i32 | i64 | u8 | u16 | u32 | u64
deriving DecidableEq

namespace IntType

/-- The names of the type in a source. -/
def names : IntType → List Text
  | i8 => [ascii "i8"]
  | i16 => [ascii "i16"]
  | i32 => [ascii "i32"]
  | i64 => [ascii "i64", ascii "int"]
  | u8 => [ascii "u8", ascii "byte"]
  | u16 => [ascii "u16"]
  | u32 => [ascii "u32"]
  | u64 => [ascii "u64"]

/-- The quarter of the number of bits. -/
def width : IntType → ℕ
  | i8 | u8 => 2
  | i16 | u16 => 4
  | i32 | u32 => 8
  | i64 | u64 => 16

def signed : IntType → Bool
  | i8 | i16 | i32 | i64 => true
  | u8 | u16 | u32 | u64 => false

/-- The integers of the type. -/
def InRange (type : IntType) (value : ℤ) : Prop :=
  if type.signed then -2 ^ (4 * type.width - 1) ≤ value ∧ value < 2 ^ (4 * type.width - 1)
  else 0 ≤ value ∧ value < 2 ^ (4 * type.width)

/-- The largest magnitude with a sign. -/
def limit (type : IntType) (negative : Bool) : ℕ :=
  if type.signed then
    if negative then 2 ^ (4 * type.width - 1) else 2 ^ (4 * type.width - 1) - 1
  else 2 ^ (4 * type.width) - 1

theorem width_pos (type : IntType) : 0 < type.width := by
  cases type
  all_goals decide

theorem bits_of_name {type : IntType} {name : Text} (h : name ∈ type.names) :
    integerLiteralBits name = 4 * type.width ∧ integerLiteralSigned name = type.signed := by
  have hall : ∀ type : IntType, ∀ name ∈ type.names,
      integerLiteralBits name = 4 * type.width ∧ integerLiteralSigned name = type.signed := by
    intro type
    cases type
    all_goals decide
  exact hall type name h

end IntType

/-- The value of a literal with its sign. -/
def signedValue (negative : Bool) (magnitude : ℕ) : ℤ :=
  if negative then -magnitude else magnitude

variable {negative : Bool} {base : ℕ} {digits limit text : Text}

theorem inRange_iff {type : IntType} {magnitude : ℕ} (hpos : 0 < magnitude) :
    type.InRange (signedValue negative magnitude) ↔
      (negative = true → type.signed = true) ∧ magnitude ≤ type.limit negative := by
  have hbits : 0 < 2 ^ (4 * type.width - 1) := by positivity
  have hbits' : 0 < 2 ^ (4 * type.width) := by positivity
  have hcast : ((2 ^ (4 * type.width - 1) : ℕ) : ℤ) = 2 ^ (4 * type.width - 1) := by push_cast; rfl
  have hcast' : ((2 ^ (4 * type.width) : ℕ) : ℤ) = 2 ^ (4 * type.width) := by push_cast; rfl
  rw [IntType.InRange, IntType.limit, signedValue, ← hcast, ← hcast']
  generalize 2 ^ (4 * type.width - 1) = half at hbits ⊢
  generalize 2 ^ (4 * type.width) = full at hbits' ⊢
  cases type.signed
  all_goals cases negative
  all_goals simp only [if_true, if_false, Bool.false_eq_true, false_implies, true_implies, true_and,
    false_and, iff_false, implies_true]
  all_goals omega

/-- The values of digits. -/
def digitValues (digits : Text) : List ℕ :=
  digits.map fun c => hexDigitValue c.toNat

theorem digitValues_withoutLeadingZeroes (digits : Text) :
    digitValues (withoutLeadingZeroes digits) = (digitValues digits).dropWhile (· == 0) := by
  have hzero : ∀ c : UInt8, (hexDigitValue c.toNat == 0) = (c == 48) := by
    intro c
    have hspec := hexDigitValue_spec c.toNat
    rw [Bool.eq_iff_iff, beq_iff_eq, beq_iff_eq, ← UInt8.toNat_inj]
    change _ ↔ c.toNat = 48
    omega
  rw [digitValues, digitValues, withoutLeadingZeroes, List.dropWhile_map]
  congr 1
  refine congrArg (fun p => List.dropWhile p digits) (funext fun c => ?_)
  exact (hzero c).symm

/-- The digits of a literal without underscores and without zeros in front. -/
structure Cleaned (base : ℕ) (digits : Text) : Prop where
  lt : ∀ d ∈ digitValues digits, d < base
  trimmed : Horner.Trimmed (digitValues digits)

theorem length_digitValues (digits : Text) :
    (digitValues digits).length = digits.length :=
  List.length_map _

theorem cleaned_withoutLeadingZeroes (h : ∀ d ∈ digitValues digits, d < base) :
    Cleaned base (withoutLeadingZeroes digits) where
  lt d hd := by
    rw [digitValues_withoutLeadingZeroes] at hd
    exact h d (List.dropWhile_sublist _ |>.mem hd)
  trimmed := by
    rw [digitValues_withoutLeadingZeroes]
    exact Horner.trimmed_dropZeros _

theorem digitsAtMost_eq {magnitude : Text} (h : ∀ d ∈ digitValues magnitude, d < 10)
    (h' : ∀ d ∈ digitValues limit, d < 10) :
    digitsAtMost magnitude limit = Horner.atMost (digitValues magnitude) (digitValues limit) := by
  have hall : ∀ c : UInt8, hexDigitValue c.toNat < 10 → c.toNat = 48 + hexDigitValue c.toNat := by
    intro c hlt
    have hspec := hexDigitValue_spec c.toNat
    omega
  induction magnitude generalizing limit with
  | nil => rw [digitsAtMost.eq_def]; rfl
  | cons digit magnitude ih =>
    cases limit with
    | nil => rfl
    | cons edge limit =>
      rw [digitValues, List.map_cons, List.forall_mem_cons] at h h'
      have hdigit := hall digit h.1
      have hedge := hall edge h'.1
      rw [digitsAtMost, ih h.2 h'.2]
      change _ = (if hexDigitValue digit.toNat ≠ hexDigitValue edge.toNat then
        decide (hexDigitValue digit.toNat < hexDigitValue edge.toNat) else _)
      have heq : (digit ≠ edge) ↔ hexDigitValue digit.toNat ≠ hexDigitValue edge.toNat := by
        rw [Ne, ← UInt8.toNat_inj]
        omega
      have hlt : (digit < edge) ↔ hexDigitValue digit.toNat < hexDigitValue edge.toNat := by
        rw [UInt8.lt_iff_toNat_lt]
        omega
      simp only [heq, hlt]
      rfl

theorem decimalMagnitudeAtMost_iff {value : Text} (h : ∀ d ∈ digitValues value, d < 10)
    (hlimit : Cleaned 10 limit) :
    decimalMagnitudeAtMost value limit = true ↔
      Horner.value 10 (digitValues value) ≤ Horner.value 10 (digitValues limit) := by
  have hmagnitude := cleaned_withoutLeadingZeroes h
  have hvalue : Horner.value 10 (digitValues (withoutLeadingZeroes value)) =
      Horner.value 10 (digitValues value) := by
    rw [digitValues_withoutLeadingZeroes, Horner.value_dropZeros]
  rw [← hvalue, decimalMagnitudeAtMost]
  generalize withoutLeadingZeroes value = magnitude at hmagnitude ⊢
  have hlength := length_digitValues magnitude
  have hlength' := length_digitValues limit
  by_cases hne : magnitude.length ≠ limit.length
  · rw [if_pos hne, decide_eq_true_iff]
    constructor
    · intro hlt
      exact (Horner.value_lt_of_length_lt (by norm_num) hmagnitude.lt hlimit.trimmed
        (by omega)).le
    · intro hle
      by_contra hnot
      have hlt := Horner.value_lt_of_length_lt (by norm_num) hlimit.lt hmagnitude.trimmed
        (show (digitValues limit).length < (digitValues magnitude).length by omega)
      omega
  · rw [if_neg hne, digitsAtMost_eq hmagnitude.lt hlimit.lt]
    exact Horner.atMost_iff (by norm_num) hmagnitude.lt hlimit.lt (by omega)

/-- The texts of the limits are numerals of the limits. -/
theorem integerDecimalLimit_spec (type : IntType) (negative : Bool) :
    Cleaned 10 (integerDecimalLimit (4 * type.width) type.signed negative) ∧
      Horner.value 10 (digitValues (integerDecimalLimit (4 * type.width) type.signed negative)) =
        type.limit negative := by
  cases type
  all_goals cases negative
  all_goals
    refine ⟨⟨by decide +kernel, ?_⟩, by decide +kernel⟩
    intro d hd
    rw [← Option.some.inj hd]
    decide

theorem powerOfTwoEdge_iff (hbase : 1 < base) (h : ∀ d ∈ digitValues digits, d < base) {n : ℕ}
    (hlength : digits.length = n + 1) (edge : ℕ) :
    powerOfTwoEdge digits edge = true ↔
      Horner.value base (digitValues digits) = edge * base ^ n := by
  cases digits with
  | nil => exact absurd hlength nofun
  | cons first rest =>
    have hn : (digitValues rest).length = n := by
      rw [length_digitValues]
      exact Nat.succ.inj hlength
    rw [digitValues, List.map_cons, List.forall_mem_cons] at h
    have hvalue := @Horner.value_eq_iff base (digitValues rest) hbase (hexDigitValue first.toNat)
      h.2 edge
    rw [hn] at hvalue
    change _ ↔ Horner.value base (hexDigitValue first.toNat :: digitValues rest) = _
    rw [hvalue, powerOfTwoEdge, Bool.and_eq_true, beq_iff_eq, List.all_eq_true, digitValues,
      List.forall_mem_map]
    simp only [beq_iff_eq]

/-- The same for digits of one bit. -/
theorem binaryFits_iff {type : IntType} (h : Cleaned 2 digits) :
    binaryFits (4 * type.width) type.signed negative digits = true ↔
      Horner.value 2 (digitValues digits) ≤ type.limit negative := by
  obtain ⟨n, hn⟩ : ∃ n, 4 * type.width = n + 1 :=
    ⟨4 * type.width - 1, by have := type.width_pos; omega⟩
  have hlength := length_digitValues digits
  have hfull := Horner.value_lt_pow_iff (by norm_num) h.lt h.trimmed (n + 1)
  have hhalf := Horner.value_lt_pow_iff (by norm_num) h.lt h.trimmed n
  have hpow : (2 : ℕ) ^ (n + 1) = 2 * 2 ^ n := pow_succ' 2 n
  have hpos : 0 < (2 : ℕ) ^ n := Nat.pow_pos (by norm_num)
  rw [binaryFits, IntType.limit, hn, Nat.add_sub_cancel]
  rw [hlength] at hfull hhalf
  by_cases hsigned : type.signed = true
  · rw [hsigned, if_neg (by decide), if_pos rfl]
    by_cases hshort : digits.length < n + 1
    · rw [if_pos hshort]
      have := hhalf.mpr (by omega)
      refine ⟨fun _ => ?_, fun _ => rfl⟩
      split_ifs <;> omega
    rw [if_neg hshort]
    by_cases hlong : digits.length > n + 1
    · rw [if_pos (by rw [decide_eq_true hlong]; rfl)]
      have hbig : ¬ Horner.value 2 (digitValues digits) < 2 ^ (n + 1) := by
        rw [hfull]
        omega
      refine ⟨fun hfalse => absurd hfalse (by decide), fun hle => ?_⟩
      split_ifs at hle <;> omega
    have hbig : ¬ Horner.value 2 (digitValues digits) < 2 ^ n := by
      rw [hhalf]
      omega
    cases negative with
    | false =>
      rw [if_pos (by rw [Bool.or_eq_true]; exact .inr rfl), if_neg (by decide)]
      refine ⟨fun hfalse => absurd hfalse (by decide), fun hle => ?_⟩
      omega
    | true =>
      have hedge := powerOfTwoEdge_iff (by norm_num) h.lt
        (show digits.length = n + 1 by omega) 1
      rw [if_neg (by rw [decide_eq_false hlong]; decide), hedge, if_pos rfl, one_mul]
      omega
  · rw [Bool.not_eq_true] at hsigned
    rw [hsigned, if_pos (by decide : (!false) = true), if_neg (by decide), decide_eq_true_iff, ← hfull]
    omega

/-- Fewer digits than the width fit, more do not, and of as many the first one decides. -/
theorem hexFits_iff {type : IntType} (h : Cleaned 16 digits) :
    hexFits type.width type.signed negative digits = true ↔
      Horner.value 16 (digitValues digits) ≤ type.limit negative := by
  obtain ⟨n, hn⟩ : ∃ n, type.width = n + 1 :=
    ⟨type.width - 1, by have := type.width_pos; omega⟩
  have hlength := length_digitValues digits
  have hfull := Horner.value_lt_pow_iff (by norm_num) h.lt h.trimmed (n + 1)
  have hshorter := Horner.value_lt_pow_iff (by norm_num) h.lt h.trimmed n
  have hpow : (16 : ℕ) ^ (n + 1) = 16 * 16 ^ n := pow_succ' 16 n
  have hpos : 0 < (16 : ℕ) ^ n := Nat.pow_pos (by norm_num)
  have hbits : (2 : ℕ) ^ (4 * (n + 1)) = 16 * 16 ^ n := by
    rw [pow_mul, ← hpow]
    norm_num
  have hhalf : (2 : ℕ) ^ (4 * (n + 1) - 1) = 8 * 16 ^ n := by
    have hdouble : (2 : ℕ) ^ (4 * (n + 1)) = 2 * 2 ^ (4 * (n + 1) - 1) := by
      rw [← pow_succ']
      congr 1
    omega
  rw [hexFits, IntType.limit, hn, hbits, hhalf]
  rw [hlength] at hfull hshorter
  by_cases hshort : digits.length < n + 1
  · rw [if_pos hshort]
    have := hshorter.mpr (by omega)
    refine ⟨fun _ => ?_, fun _ => rfl⟩
    split_ifs <;> omega
  rw [if_neg hshort]
  by_cases hlong : digits.length > n + 1
  · rw [if_pos hlong]
    have hbig : ¬ Horner.value 16 (digitValues digits) < 16 ^ (n + 1) := by
      rw [hfull]
      omega
    refine ⟨fun hfalse => absurd hfalse (by decide), fun hle => ?_⟩
    split_ifs at hle <;> omega
  rw [if_neg hlong]
  have hlt := hfull.mpr (by omega)
  by_cases hsigned : type.signed = true
  · rw [hsigned, if_neg (by decide), if_pos rfl]
    cases digits with
    | nil => exact absurd hshort (by simp)
    | cons first rest =>
      have hedge := powerOfTwoEdge_iff (by norm_num) h.lt
        (show (first :: rest).length = n + 1 by omega) 8
      have hrest := Horner.value_lt (by norm_num)
        (List.forall_mem_cons.mp (show ∀ d ∈ hexDigitValue first.toNat :: digitValues rest, d < 16
          from h.lt)).2
      have hvalue : Horner.value 16 (digitValues (first :: rest)) =
          Horner.value 16 (digitValues rest) + 16 ^ n * hexDigitValue first.toNat := by
        have hn' : (digitValues rest).length = n := by
          rw [length_digitValues]
          have : (first :: rest).length = rest.length + 1 := rfl
          omega
        rw [← hn']
        exact Horner.value_cons _ _
      have hn' : (digitValues rest).length = n := by
        rw [length_digitValues]
        have : (first :: rest).length = rest.length + 1 := rfl
        omega
      rw [hn'] at hrest
      -- the value lies between two multiples of the highest place
      have hplace : ∀ k, hexDigitValue first.toNat < k ↔
          Horner.value 16 (digitValues (first :: rest)) < 16 ^ n * k := by
        intro k
        rw [hvalue]
        constructor
        · intro hk
          have hmul : 16 ^ n * hexDigitValue first.toNat + 16 ^ n ≤ 16 ^ n * k := by
            rw [← Nat.mul_succ]
            exact Nat.mul_le_mul_left _ hk
          omega
        · intro hk
          by_contra hnot
          have hmul : 16 ^ n * k ≤ 16 ^ n * hexDigitValue first.toNat :=
            Nat.mul_le_mul_left _ (not_lt.mp hnot)
          omega
      have height := hplace 8
      cases negative with
      | false =>
        rw [if_pos (by decide : (!false) = true), if_neg (by decide), decide_eq_true_iff]
        change hexDigitValue first.toNat ≤ 7 ↔ _
        omega
      | true =>
        rw [if_neg (by decide), if_pos rfl]
        change (if hexDigitValue first.toNat < 8 then true
          else hexDigitValue first.toNat == 8 && powerOfTwoEdge (first :: rest) 8) = true ↔ _
        by_cases hsmall : hexDigitValue first.toNat < 8
        · rw [if_pos hsmall]
          exact ⟨fun _ => by omega, fun _ => rfl⟩
        · rw [if_neg hsmall, Bool.and_eq_true, beq_iff_eq, hedge]
          have hnine := hplace 9
          constructor
          · rintro ⟨-, heq⟩
            omega
          · intro hle
            exact ⟨by omega, by omega⟩
  · rw [Bool.not_eq_true] at hsigned
    rw [hsigned, if_pos (by decide : (!false) = true), if_neg (by decide)]
    exact ⟨fun _ => by omega, fun _ => rfl⟩

/-- The value of the digits of a spelling. -/
def magnitude (base : ℕ) (digits : Text) : ℕ :=
  Horner.value base (digitValues (withoutUnderscores digits))

/-- Two bytes of digits below eleven are no prefix. -/
theorem not_starts (h : ∀ c ∈ text, hexDigitValue c.toNat < 10) :
    startsHex text = false ∧ startsBinary text = false := by
  cases text with
  | nil => exact ⟨rfl, rfl⟩
  | cons first rest =>
    cases rest with
    | nil =>
      have hopening : ∀ c : UInt8, [48, c].isPrefixOf [first] = false :=
        fun c => Bool.and_false _
      exact ⟨Bool.or_eq_false_iff.mpr ⟨hopening 120, hopening 88⟩,
        Bool.or_eq_false_iff.mpr ⟨hopening 98, hopening 66⟩⟩
    | cons marker rest =>
      have hdigit := h marker (List.mem_cons_of_mem _ List.mem_cons_self)
      have hmarker : ∀ c : UInt8, ¬ hexDigitValue c.toNat < 10 → marker ≠ c := by
        rintro c hc rfl
        exact hc hdigit
      have hx := hmarker 120 (by decide)
      have hX := hmarker 88 (by decide)
      have hb := hmarker 98 (by decide)
      have hB := hmarker 66 (by decide)
      have hopening : ∀ c : UInt8, marker ≠ c → [48, c].isPrefixOf (first :: marker :: rest) = false := by
        intro c hc
        change ((48 : UInt8) == first && (c == marker && _)) = false
        rw [beq_eq_false_iff_ne.mpr hc.symm, Bool.false_and, Bool.and_false]
      exact ⟨Bool.or_eq_false_iff.mpr ⟨hopening 120 hx, hopening 88 hX⟩,
        Bool.or_eq_false_iff.mpr ⟨hopening 98 hb, hopening 66 hB⟩⟩

/-- A spelling without underscores. -/
structure Clean (base : ℕ) (text digits : Text) : Prop where
  split : baseAndDigits text = (base, digits)
  lt : ∀ c ∈ digits, hexDigitValue c.toNat < base
  ne_nil : digits ≠ []
  prefixed : base = 10 ∧ text = digits ∨
    ∃ marker, text = 48 :: marker :: digits ∧
      (base = 16 ∧ (marker = 120 ∨ marker = 88) ∨ base = 2 ∧ (marker = 98 ∨ marker = 66))

theorem BaseDigits.clean (h : BaseDigits base digits) (hbase : base ≤ 16) :
    (∀ c ∈ withoutUnderscores digits, hexDigitValue c.toNat < base) ∧
      withoutUnderscores digits ≠ [] := by
  constructor
  · intro c hc
    obtain ⟨hin, hne⟩ := List.mem_filter.mp hc
    rcases h.all c hin with hlt | rfl
    · exact hlt
    · exact absurd hne (by decide)
  · obtain ⟨c, hin, hlt⟩ := h.some
    refine List.ne_nil_of_mem (List.mem_filter.mpr ⟨hin, ?_⟩)
    rw [bne_iff_ne]
    rintro rfl
    have : hexDigitValue (95 : UInt8).toNat = 16 := by decide
    omega

theorem startsHex_cons (marker : UInt8) (digits : Text) :
    startsHex (48 :: marker :: digits) = (marker == 120 || marker == 88) := by
  change ((true && (120 == marker && true)) || (true && (88 == marker && true))) = _
  rw [Bool.true_and, Bool.and_true, Bool.true_and, Bool.and_true, @BEq.comm UInt8 _ _ 120,
    @BEq.comm UInt8 _ _ 88]

theorem startsBinary_cons (marker : UInt8) (digits : Text) :
    startsBinary (48 :: marker :: digits) = (marker == 98 || marker == 66) := by
  change ((true && (98 == marker && true)) || (true && (66 == marker && true))) = _
  rw [Bool.true_and, Bool.and_true, Bool.true_and, Bool.and_true, @BEq.comm UInt8 _ _ 98,
    @BEq.comm UInt8 _ _ 66]

theorem IntSpelling.clean {base : ℕ} {text digits : Text} (h : IntSpelling base text digits) :
    Clean base (withoutUnderscores text) (withoutUnderscores digits) := by
  have hmarker : ∀ marker : UInt8, marker ≠ 95 → withoutUnderscores (48 :: marker :: digits) =
      48 :: marker :: withoutUnderscores digits := by
    intro marker hne
    rw [withoutUnderscores, List.filter_cons, List.filter_cons, if_pos (by decide),
      if_pos (bne_iff_ne.mpr hne)]
    rfl
  cases h with
  | decimal digits hdigits =>
    obtain ⟨hlt, hne⟩ := hdigits.clean (by norm_num)
    obtain ⟨hhex, hbinary⟩ := not_starts hlt
    refine ⟨?_, hlt, hne, .inl ⟨rfl, rfl⟩⟩
    rw [baseAndDigits, hhex, hbinary, if_neg Bool.false_ne_true, if_neg Bool.false_ne_true]
  | hex marker digits hmark hdigits =>
    obtain ⟨hlt, hne⟩ := hdigits.clean (by norm_num)
    rw [hmarker marker (by rcases hmark with rfl | rfl <;> decide)]
    refine ⟨?_, hlt, hne, .inr ⟨marker, rfl, .inl ⟨rfl, hmark⟩⟩⟩
    rw [baseAndDigits, startsHex_cons, if_pos (by rcases hmark with rfl | rfl <;> rfl)]
    rfl
  | binary marker digits hmark hdigits =>
    obtain ⟨hlt, hne⟩ := hdigits.clean (by norm_num)
    rw [hmarker marker (by rcases hmark with rfl | rfl <;> decide)]
    refine ⟨?_, hlt, hne, .inr ⟨marker, rfl, .inr ⟨rfl, hmark⟩⟩⟩
    rw [baseAndDigits, startsHex_cons, startsBinary_cons,
      if_neg (by rcases hmark with rfl | rfl <;> decide),
      if_pos (by rcases hmark with rfl | rfl <;> rfl)]
    rfl

theorem Clean.base_cases (h : Clean base text digits) :
    base = 10 ∨ base = 16 ∨ base = 2 := by
  rcases h.prefixed with ⟨hbase, -⟩ | ⟨_, -, ⟨hbase, -⟩ | ⟨hbase, -⟩⟩
  · exact .inl hbase
  · exact .inr (.inl hbase)
  · exact .inr (.inr hbase)

/-- The check answers whether the value is in the range of the type. -/
theorem integerLiteralFits_iff {typeName : Text} {type : IntType}
    (h : Clean base (withoutUnderscores text) digits) (htype : typeName ∈ type.names)
    (negative : Bool) :
    integerLiteralFits text typeName negative = true ↔
      type.InRange (signedValue negative (Horner.value base (digitValues digits))) := by
  obtain ⟨hbits, hsigned⟩ := IntType.bits_of_name htype
  have hwidth := type.width_pos
  have hbase := h.base_cases
  have hone : 1 < base := by omega
  have hlt : ∀ d ∈ digitValues digits, d < base := List.forall_mem_map.mpr h.lt
  have hclean := cleaned_withoutLeadingZeroes hlt
  have hvalue : Horner.value base (digitValues digits) =
      Horner.value base (digitValues (withoutLeadingZeroes digits)) := by
    rw [digitValues_withoutLeadingZeroes, Horner.value_dropZeros]
  rw [hvalue, integerLiteralFits]
  dsimp only
  rw [h.split, hbits, hsigned, if_neg (by omega)]
  dsimp only
  generalize withoutLeadingZeroes digits = trimmed at hclean ⊢
  by_cases hempty : trimmed.length = 0
  · rw [if_pos hempty, List.length_eq_zero_iff.mp hempty]
    refine ⟨fun _ => ?_, fun _ => rfl⟩
    have hzero : signedValue negative (Horner.value base (digitValues [])) = 0 := by
      cases negative
      · rfl
      · rfl
    rw [hzero, IntType.InRange]
    split_ifs
    · exact ⟨by simp, by positivity⟩
    · exact ⟨le_refl 0, by positivity⟩
  rw [if_neg hempty]
  have hpos : 0 < Horner.value base (digitValues trimmed) := by
    cases trimmed with
    | nil => exact absurd rfl hempty
    | cons first rest =>
      have hfirst : 0 < hexDigitValue first.toNat := hclean.trimmed _ rfl
      exact (Nat.pow_pos (by omega)).trans_le (Horner.le_value hfirst)
  rw [inRange_iff hpos]
  by_cases hminus : (negative && !type.signed) = true
  · rw [if_pos hminus]
    rw [Bool.and_eq_true, Bool.not_eq_true'] at hminus
    refine ⟨fun hfalse => absurd hfalse (by decide), fun hboth => ?_⟩
    have hyes := hboth.1 hminus.1
    rw [hminus.2] at hyes
    exact absurd hyes (by decide)
  rw [if_neg hminus]
  have hsign : negative = true → type.signed = true := by
    intro hneg
    by_contra hnot
    rw [Bool.not_eq_true] at hnot
    exact hminus (by rw [hneg, hnot]; rfl)
  rcases hbase with rfl | rfl | rfl
  · obtain ⟨hlimit, hlimitValue⟩ := integerDecimalLimit_spec type negative
    rw [if_pos rfl, decimalMagnitudeAtMost_iff hclean.lt hlimit, hlimitValue]
    exact ⟨fun hle => ⟨hsign, hle⟩, fun hboth => hboth.2⟩
  · rw [if_neg (by decide), if_neg (by decide), show 4 * type.width / 4 = type.width by omega,
      hexFits_iff hclean]
    exact ⟨fun hle => ⟨hsign, hle⟩, fun hboth => hboth.2⟩
  · rw [if_neg (by decide), if_pos rfl, binaryFits_iff hclean]
    exact ⟨fun hle => ⟨hsign, hle⟩, fun hboth => hboth.2⟩

end Source
end Beans
