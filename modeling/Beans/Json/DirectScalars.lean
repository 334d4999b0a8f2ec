import Beans.Json.CompactText
import Beans.Json.DirectBuffer
import Beans.Json.PlainSpan

/-!
# Numbers and strings written directly

Integers are written two digits at a time, strings run by run.  Both write the
compact text of what they are given; a string that is not well-formed stops the
writer.
-/

namespace Beans
namespace Json

open Direct

def digitPairs : Text :=
  ascii ("00010203040506070809101112131415161718192021222324" ++
    "25262728293031323334353637383940414243444546474849" ++
    "50515253545556575859606162636465666768697071727374" ++
    "75767778798081828384858687888990919293949596979899")

def digitPair (number : UInt64) : Text :=
  (digitPairs.drop (number.toNat * 2)).take 2

/-- Takes pairs of digits off a number, the last ones first. -/
def pairedDigits : ℕ → UInt64 → Text → UInt64 × Text
  | 0, value, digits => (value, digits)
  | rounds + 1, value, digits =>
    if 100 ≤ value then pairedDigits rounds (value / 100) (digitPair (value % 100) ++ digits)
    else (value, digits)

/-- Digits are written in pairs. -/
def directUint (number : UInt64) : Writer :=
  let (value, digits) := pairedDigits 10 number []
  raw (if 10 ≤ value then digitPair value ++ digits
    else (0x30 + value).toUInt8 :: digits)

/-- The magnitude of a negative number is its two's complement. -/
def directSint (number : Int64) : Writer :=
  if 0 ≤ number then directUint number.toUInt64
  else andThen (char 0x2D) (directUint (~~~number.toUInt64 + 1))

def hexText : Text :=
  ascii "0123456789ABCDEF"

/-- The escape of a byte below 0x80. -/
def escapeByte (c : UInt8) : Text :=
  if c = 0x22 then [0x5C, 0x22]
  else if c = 0x5C then [0x5C, 0x5C]
  else if c = 0x08 then [0x5C, 0x62]
  else if c = 0x09 then [0x5C, 0x74]
  else if c = 0x0A then [0x5C, 0x6E]
  else if c = 0x0C then [0x5C, 0x66]
  else if c = 0x0D then [0x5C, 0x72]
  else
    [0x5C, 0x75, 0x30, 0x30, hexText.getD (c >>> 4).toNat 0, hexText.getD (c &&& 15).toNat 0]

/-- The bytes a leading byte asks for. -/
def leadLength (c : UInt8) : Option ℕ :=
  if 0xC2 ≤ c && c ≤ 0xDF then some 2
  else if 0xE0 ≤ c && c ≤ 0xEF then some 3
  else if 0xF0 ≤ c && c ≤ 0xF4 then some 4
  else none

def isContinuation (c : UInt8) : Bool :=
  c &&& 0xC0 == 0x80

/-- The checks of the bytes of a sequence. -/
def sequenceFails (need : ℕ) (c c1 c2 c3 : UInt8) : Bool :=
  !isContinuation c1 ||
    if need = 3 then
      !isContinuation c2 || (c == 0xE0 && c1 < 0xA0) || (c == 0xED && 0x9F < c1)
    else if need = 4 then
      !isContinuation c2 || !isContinuation c3 || (c == 0xF0 && c1 < 0x90) ||
        (c == 0xF4 && 0x8F < c1)
    else false

/-- The length of the sequence a string starts with, if it is a valid one. -/
def sequence? (src : Text) : Option ℕ :=
  let c := src.getD 0 0
  match leadLength c with
  | none => none
  | some need =>
    if src.length < need ∨ sequenceFails need c (src.getD 1 0) (src.getD 2 0) (src.getD 3 0)
    then none
    else some need

/-- The characters of a string.  Each round takes at least a byte. -/
def directChars (scan : Scan) : ℕ → Text → Writer
  | 0, _ => stop .shape
  | rounds + 1, src =>
    if src.length = 0 then done
    else
      let span := plainSpan scan src
      andThen (if span ≠ 0 then raw (src.take span) else done)
        (match src.drop span with
        | [] => done
        | c :: rest =>
          if c < 0x80 then andThen (raw (escapeByte c)) (directChars scan rounds rest)
          else
            match sequence? (c :: rest) with
            | none => stop .invalid
            | some need =>
              andThen (raw ((c :: rest).take need))
                (directChars scan rounds ((c :: rest).drop need)))

def directString (scan : Scan) (text : Text) : Writer :=
  andThen (char 0x22) (andThen (directChars scan (text.length + 1) text) (char 0x22))

theorem ofNat_pair (n : ℕ) (h : 100 ≤ n) :
    Text.ofNat n =
      Text.ofNat (n / 100) ++ [(48 + n / 10 % 10).toUInt8, (48 + n % 10).toUInt8] := by
  rw [Text.ofNat_of_ne_zero (by omega), Text.ofNat_of_ne_zero (by omega),
    Nat.digits_def' (by decide) (by omega), Nat.digits_def' (by decide) (by omega : 0 < n / 10),
    Nat.div_div_eq_div_mul]
  simp

theorem ofNat_of_lt (n : ℕ) (h : n < 10) : Text.ofNat n = [(48 + n).toUInt8] := by
  interval_cases n <;> decide

theorem ofNat_two (n : ℕ) (h : 10 ≤ n) (h' : n < 100) :
    Text.ofNat n = [(48 + n / 10).toUInt8, (48 + n % 10).toUInt8] := by
  rw [Text.ofNat_of_ne_zero (by omega), Nat.digits_def' (by decide) (by omega),
    Nat.digits_of_lt 10 (n / 10) (by omega) (by omega)]
  simp

theorem digitPair_eq (number : UInt64) (h : number.toNat < 100) :
    digitPair number =
      [(48 + number.toNat / 10).toUInt8, (48 + number.toNat % 10).toUInt8] := by
  rw [digitPair]
  generalize number.toNat = n at h
  have hall : ∀ n < 100, (digitPairs.drop (n * 2)).take 2 =
      [(48 + n / 10).toUInt8, (48 + n % 10).toUInt8] := by decide +kernel
  exact hall n h

variable {rounds : ℕ} {b c : UInt8} {src : Text}

theorem pairedDigits_spec {value : UInt64}
    (h : value.toNat < 100 ^ (rounds + 1))
    (digits : Text) :
    (pairedDigits rounds value digits).1.toNat < 100 ∧
      Text.ofNat (pairedDigits rounds value digits).1.toNat ++
          (pairedDigits rounds value digits).2 =
        Text.ofNat value.toNat ++ digits := by
  induction rounds generalizing value digits with
  | zero =>
    rw [Nat.zero_add, pow_one] at h
    exact ⟨h, rfl⟩
  | succ rounds ih =>
    have hhundred : (100 : UInt64).toNat = 100 := rfl
    rw [pairedDigits]
    split_ifs with hlarge
    · rw [UInt64.le_iff_toNat_le, hhundred] at hlarge
      have hquotient : (value / 100).toNat = value.toNat / 100 := UInt64.toNat_div ..
      have hremainder : (value % 100).toNat = value.toNat % 100 := UInt64.toNat_mod ..
      rw [pow_succ] at h
      obtain ⟨hsmall, hdigits⟩ := @ih (value / 100)
        (by rw [hquotient]; exact Nat.div_lt_of_lt_mul (by rwa [mul_comm] at h)) _
      refine ⟨hsmall, hdigits.trans ?_⟩
      rw [hquotient, digitPair_eq _ (by rw [hremainder]; omega), hremainder,
        ofNat_pair _ hlarge, List.append_assoc,
        show value.toNat % 100 / 10 = value.toNat / 10 % 10 by omega,
        show value.toNat % 100 % 10 = value.toNat % 10 by omega]
    · rw [UInt64.le_iff_toNat_le, hhundred, not_le] at hlarge
      exact ⟨hlarge, rfl⟩

theorem writes_uint (number : UInt64) :
    Writes (directUint number) (some (Text.ofNat number.toNat)) := by
  have hbound : number.toNat < 100 ^ (10 + 1) := number.toNat_lt.trans (by decide)
  obtain ⟨hsmall, hdigits⟩ := pairedDigits_spec hbound []
  rw [List.append_nil] at hdigits
  rw [directUint]
  have hten : (10 : UInt64).toNat = 10 := rfl
  have hlast : (if 10 ≤ (pairedDigits 10 number []).1 then
      digitPair (pairedDigits 10 number []).1 ++ (pairedDigits 10 number []).2
      else (0x30 + (pairedDigits 10 number []).1).toUInt8 :: (pairedDigits 10 number []).2) =
        Text.ofNat number.toNat := by
    rw [← hdigits]
    generalize (pairedDigits 10 number []).1 = value at hsmall ⊢
    split_ifs with hlarge
    · rw [UInt64.le_iff_toNat_le, hten] at hlarge
      rw [digitPair_eq value hsmall, ofNat_two value.toNat hlarge hsmall]
    · rw [UInt64.le_iff_toNat_le, hten, not_le] at hlarge
      have hdigit : (0x30 + value).toUInt8 = (48 + value.toNat).toUInt8 := by
        rw [← UInt8.toNat_inj, UInt64.toNat_toUInt8, UInt64.toNat_add, UInt8.toNat_ofNat']
        have : (0x30 : UInt64).toNat = 48 := rfl
        omega
      rw [ofNat_of_lt value.toNat hlarge, hdigit]
      rfl
  rw [← hlast]
  exact writes_raw _

theorem writes_sint (number : Int64) :
    Writes (directSint number) (some (Text.ofInt number.toInt)) := by
  have hint : number.toInt =
      if 2 * number.toUInt64.toNat < 2 ^ 64 then (number.toUInt64.toNat : ℤ)
      else (number.toUInt64.toNat : ℤ) - (2 ^ 64 : ℕ) :=
    BitVec.toInt_eq_toNat_cond number.toBitVec
  have hword := number.toUInt64.toNat_lt
  rw [directSint, Text.ofInt]
  by_cases hsign : 0 ≤ number
  · have hnonnegative : 0 ≤ number.toInt := Int64.le_iff_toInt_le.mp hsign
    have habs : number.toInt.natAbs = number.toUInt64.toNat := by
      split_ifs at hint <;> omega
    rw [if_pos hsign, if_neg (by omega), habs]
    exact writes_uint _
  · have hnegative : number.toInt < 0 := by
      rw [Int64.le_iff_toInt_le] at hsign
      exact not_le.mp hsign
    have habs : (~~~number.toUInt64 + 1).toNat = number.toInt.natAbs := by
      rw [UInt64.toNat_add, UInt64.toNat_not, UInt64.toNat_one]
      have hsize : UInt64.size = 2 ^ 64 := rfl
      split_ifs at hint <;> omega
    rw [if_neg hsign, if_pos hnegative, ← habs]
    exact (writes_char _).andThen (writes_uint _)

/-- The characters of a string, escaped. -/
def bodyText (text : Text) : Option Text :=
  (Utf8.decode? text).map fun chars => chars.flatMap escapeChar

theorem stringText_eq (text : Text) :
    stringText text = (bodyText text).map fun body => 0x22 :: (body ++ [0x22]) := by
  rw [stringText, bodyText, Option.map_map]
  rfl

theorem bodyText_nil : bodyText [] = some [] := by
  rw [bodyText, Utf8.decode?_nil]
  rfl

theorem bodyText_append (c : Char) (rest : Text) :
    bodyText (String.utf8EncodeChar c ++ rest) =
      (bodyText rest).map fun body => escapeChar c ++ body := by
  rw [bodyText, Utf8.decode?_append, bodyText, Option.map_map, Option.map_map]
  rfl

/-- The text of a byte below 0x80. -/
def byteText (c : UInt8) : Text :=
  if isPlain c then [c] else escapeByte c

theorem escapeChar_byte {c : Char}
    (h : c.val.toNat = b.toNat)
    (hb : b.toNat < 0x80)
    (hencode : String.utf8EncodeChar c = [b]) :
    escapeChar c = byteText b := by
  have hall : ∀ b : UInt8, b.toNat < 0x80 →
      byteText b =
        if b.toNat = 0x22 then [0x5C, 0x22]
        else if b.toNat = 0x5C then [0x5C, 0x5C]
        else if b.toNat = 0x08 then [0x5C, 0x62]
        else if b.toNat = 0x09 then [0x5C, 0x74]
        else if b.toNat = 0x0A then [0x5C, 0x6E]
        else if b.toNat = 0x0C then [0x5C, 0x66]
        else if b.toNat = 0x0D then [0x5C, 0x72]
        else if b.toNat < 0x20 then
          [0x5C, 0x75, 0x30, 0x30, hexDigit (b.toNat / 16), hexDigit (b.toNat % 16)]
        else [b] := forall_byte (by decide +kernel)
  rw [hall b hb, escapeChar, h, hencode]

theorem bodyText_byte (hb : b.toNat < 0x80) (rest : Text) :
    bodyText (b :: rest) = (bodyText rest).map fun body => byteText b ++ body := by
  obtain ⟨c, hc⟩ := Utf8.exists_char (n := b.toNat) (Or.inl (by omega))
  have hencode : String.utf8EncodeChar c = [b] := by
    rw [Utf8.encode_of_le (by omega), hc, UInt8.ofNat_toNat]
  have happend := bodyText_append c rest
  rwa [hencode, List.singleton_append, escapeChar_byte hc hb hencode] at happend

theorem bodyText_plain {run : Text} (h : run.all isPlain = true) (rest : Text) :
    bodyText (run ++ rest) = (bodyText rest).map fun body => run ++ body := by
  induction run with
  | nil => simp
  | cons b run ih =>
    rw [List.all_cons, Bool.and_eq_true] at h
    have hlow : b.toNat < 0x80 := ((isPlain_iff b).mp h.1).2.1
    rw [List.cons_append, bodyText_byte hlow, ih h.2, Option.map_map, byteText, if_pos h.1]
    rfl

/-- A sequence of several bytes is copied. -/
theorem bodyText_character {bytes : Text}
    (h : Utf8.Character bytes)
    (hhigh : ∀ b ∈ bytes.head?, 0x80 ≤ b.toNat)
    (rest : Text) :
    bodyText (bytes ++ rest) = (bodyText rest).map fun body => bytes ++ body := by
  obtain ⟨c, rfl⟩ := h.exists_char
  have hvalue : 0x7F < c.val.toNat := by
    by_contra hlow
    have hencode := Utf8.encode_of_le (not_lt.mp hlow)
    have hfirst := hhigh (UInt8.ofNat c.val.toNat) (by rw [hencode]; rfl)
    rw [UInt8.toNat_ofNat'] at hfirst
    omega
  rw [bodyText_append, escapeChar_of_plain (by omega) (by omega) (by omega)]

theorem bodyText_eq_none {text : Text}
    (hne : text ≠ [])
    (h : ∀ bytes, Utf8.Character bytes → ¬ bytes <+: text) :
    bodyText text = none := by
  rw [bodyText, Utf8.decode?_eq_none hne fun c => h _ (Utf8.character_encode c)]
  rfl

theorem isContinuation_iff (b : UInt8) : isContinuation b = true ↔ Utf8.Continues b := by
  unfold Utf8.Continues
  revert b
  exact forall_byte (by decide +kernel)

theorem leadLength_eq (b : UInt8) :
    leadLength b =
      if 0xC2 ≤ b.toNat ∧ b.toNat ≤ 0xDF then some 2
      else if 0xE0 ≤ b.toNat ∧ b.toNat ≤ 0xEF then some 3
      else if 0xF0 ≤ b.toNat ∧ b.toNat ≤ 0xF4 then some 4
      else none := by
  simp only [leadLength, UInt8.le_iff_toNat_le, Bool.and_eq_true, decide_eq_true_eq]
  rfl

/-- What the checks of a sequence ask of its bytes. -/
def SequenceSound (need : ℕ) (c c1 c2 c3 : UInt8) : Prop :=
  Utf8.Continues c1 ∧
    (need = 3 → Utf8.Continues c2 ∧ (c.toNat = 0xE0 → 0xA0 ≤ c1.toNat) ∧
      (c.toNat = 0xED → c1.toNat ≤ 0x9F)) ∧
    (need = 4 → Utf8.Continues c2 ∧ Utf8.Continues c3 ∧ (c.toNat = 0xF0 → 0x90 ≤ c1.toNat) ∧
      (c.toNat = 0xF4 → c1.toNat ≤ 0x8F))

theorem sequenceFails_iff {need : ℕ} {c1 c2 c3 : UInt8} :
    sequenceFails need c c1 c2 c3 = false ↔ SequenceSound need c c1 c2 c3 := by
  have hbyte : ∀ a b : UInt8, (a == b) = true ↔ a.toNat = b.toNat := fun a b => by
    rw [beq_iff_eq, ← UInt8.toNat_inj]
  have hrange : ∀ a b c d : UInt8, (a == b && decide (c < d)) = false ↔
      (a.toNat = b.toNat → d.toNat ≤ c.toNat) := fun a b c d => by
    rw [← Bool.not_eq_true, Bool.and_eq_true, hbyte, decide_eq_true_iff, UInt8.lt_iff_toNat_lt,
      not_and, not_lt]
  have hcontinues : ∀ b : UInt8, (!isContinuation b) = false ↔ Utf8.Continues b := fun b => by
    rw [Bool.not_eq_false', isContinuation_iff]
  unfold sequenceFails SequenceSound
  rw [Bool.or_eq_false_iff, hcontinues]
  refine and_congr_right fun _ => ?_
  split_ifs with hthree hfour
  · subst hthree
    rw [Bool.or_eq_false_iff, Bool.or_eq_false_iff, hcontinues, hrange, hrange]
    simp only [forall_const, Nat.reduceEqDiff, IsEmpty.forall_iff, and_true, and_assoc]
    rfl
  · subst hfour
    rw [Bool.or_eq_false_iff, Bool.or_eq_false_iff, Bool.or_eq_false_iff, hcontinues, hcontinues,
      hrange, hrange]
    simp only [forall_const, Nat.reduceEqDiff, IsEmpty.forall_iff, true_and, and_assoc]
    rfl
  · simp [hthree, hfour]

theorem sequence?_iff {need : ℕ} :
    sequence? src = some need ↔
      leadLength (src.getD 0 0) = some need ∧ need ≤ src.length ∧
        SequenceSound need (src.getD 0 0) (src.getD 1 0) (src.getD 2 0) (src.getD 3 0) := by
  unfold sequence?
  cases hlead : leadLength (src.getD 0 0) with
  | none => simp only [hlead, reduceCtorEq, false_and]
  | some length =>
    simp only [hlead, Option.some.injEq]
    split_ifs with hfails
    · refine iff_of_false (by simp) ?_
      rintro ⟨rfl, hlength, hsound⟩
      rw [← sequenceFails_iff] at hsound
      rcases hfails with hshort | hfails
      · omega
      · rw [hsound] at hfails
        exact absurd hfails (by simp)
    · rw [not_or, not_lt, Bool.not_eq_true, sequenceFails_iff] at hfails
      constructor
      · rintro ⟨rfl⟩
        exact ⟨rfl, hfails⟩
      · rintro ⟨rfl, -⟩
        rfl

/-- An accepted sequence is one character. -/
theorem sequence_some {need : ℕ} (h : sequence? src = some need) :
    Utf8.Character (src.take need) ∧ need ≤ src.length ∧ 0 < need := by
  obtain ⟨hlead, hlength, hsecond, hthree, hfour⟩ := sequence?_iff.mp h
  rw [leadLength_eq] at hlead
  split_ifs at hlead with htwo hthird hfourth
  · cases hlead
    rcases src with _ | ⟨a, _ | ⟨b, rest⟩⟩
    · simp at hlength
    · simp at hlength
    · exact ⟨.two htwo hsecond, hlength, by decide⟩
  · cases hlead
    obtain ⟨hc, hlow, hsurrogate⟩ := hthree rfl
    rcases src with _ | ⟨a, _ | ⟨b, _ | ⟨c, rest⟩⟩⟩
    · simp at hlength
    · simp at hlength
    · simp at hlength
    · exact ⟨.three hthird hsecond hc hlow hsurrogate, hlength, by decide⟩
  · cases hlead
    obtain ⟨hc, hd, hlow, hhigh⟩ := hfour rfl
    rcases src with _ | ⟨a, _ | ⟨b, _ | ⟨c, _ | ⟨d, rest⟩⟩⟩⟩
    · simp at hlength
    · simp at hlength
    · simp at hlength
    · simp at hlength
    · exact ⟨.four hfourth hsecond hc hd hlow hhigh, hlength, by decide⟩

/-- Nothing starts with a character where no sequence is accepted. -/
theorem sequence_none {rest : Text}
    (hc : 0x80 ≤ c.toNat)
    (h : sequence? (c :: rest) = none) :
    ∀ bytes, Utf8.Character bytes → ¬ bytes <+: c :: rest := by
  have hrefused : ∀ need, ¬ (leadLength c = some need ∧ need ≤ (c :: rest).length ∧
      SequenceSound need c (rest.getD 0 0) (rest.getD 1 0) (rest.getD 2 0)) := fun need hall => by
    rw [(@sequence?_iff (c :: rest) need).mpr hall] at h
    exact absurd h (by simp)
  rintro bytes hbytes ⟨tail, htail⟩
  cases hbytes with
  | one ha =>
    obtain ⟨rfl, -⟩ := List.cons_eq_cons.mp htail
    omega
  | two ha hb =>
    obtain ⟨rfl, rfl⟩ := List.cons_eq_cons.mp htail
    refine hrefused 2 ⟨by rw [leadLength_eq, if_pos ha], by simp, hb, ?_, ?_⟩
    · exact fun hthree => absurd hthree (by decide)
    · exact fun hfour => absurd hfour (by decide)
  | three ha hb hd hlow hsurrogate =>
    obtain ⟨rfl, rfl⟩ := List.cons_eq_cons.mp htail
    refine hrefused 3 ⟨by rw [leadLength_eq, if_neg (by omega), if_pos ha], by simp, hb,
      fun _ => ⟨hd, hlow, hsurrogate⟩, fun hfour => absurd hfour (by decide)⟩
  | four ha hb hd he hlow hhigh =>
    obtain ⟨rfl, rfl⟩ := List.cons_eq_cons.mp htail
    refine hrefused 4 ⟨by rw [leadLength_eq, if_neg (by omega), if_neg (by omega), if_pos ha],
      by simp, hb, fun hthree => absurd hthree (by decide), fun _ => ⟨hd, he, hlow, hhigh⟩⟩

/-- A run ends where the string does, or at a byte that is not plain. -/
theorem byteSpan_split (src : Text) :
    (src.take (byteSpan src)).all isPlain = true ∧
      ∀ c ∈ (src.drop (byteSpan src)).head?, isPlain c = false := by
  induction src with
  | nil => simp
  | cons b src ih =>
    rw [byteSpan]
    split_ifs with hplain
    · rw [List.take_succ_cons, List.drop_succ_cons, List.all_cons, hplain, Bool.true_and]
      exact ih
    · simpa using hplain

/-- The characters of a string are escaped one by one or copied as spans. -/
theorem writes_chars (scan : Scan) (h : src.length < rounds) :
    Writes (directChars scan rounds src) (bodyText src) := by
  induction rounds generalizing src with
  | zero => exact absurd h (by omega)
  | succ rounds ih =>
    rw [directChars]
    split_ifs with hempty
    · rw [List.length_eq_zero_iff.mp hempty, bodyText_nil]
      exact writes_done
    · obtain ⟨hplain, hbreak⟩ := byteSpan_split src
      have hrun : Writes (if byteSpan src ≠ 0 then raw (src.take (byteSpan src)) else done)
          (some (src.take (byteSpan src))) := by
        split_ifs with hnone
        · exact writes_raw _
        · rw [not_not] at hnone
          rw [hnone, List.take_zero]
          exact writes_done
      have hbody : bodyText src = (some (src.take (byteSpan src))).bind fun run =>
          (bodyText (src.drop (byteSpan src))).map fun body => run ++ body := by
        rw [Option.bind_some, ← bodyText_plain hplain, List.take_append_drop]
      have hshort : (src.drop (byteSpan src)).length ≤ src.length := by
        rw [List.length_drop]
        omega
      simp only [plainSpan_eq]
      rw [hbody]
      refine hrun.andThen ?_
      generalize src.drop (byteSpan src) = left at hbreak hshort
      cases left with
      | nil =>
        rw [bodyText_nil]
        exact writes_done
      | cons c rest =>
        rw [List.length_cons] at hshort
        have hnotPlain : isPlain c = false := hbreak c rfl
        simp only
        split_ifs with hlow
        · -- an escape
          rw [UInt8.lt_iff_toNat_lt] at hlow
          rw [bodyText_byte hlow, byteText, if_neg (by simp [hnotPlain])]
          exact (writes_raw _).andThen (ih (by omega))
        · rw [UInt8.lt_iff_toNat_lt, not_lt] at hlow
          cases hsequence : sequence? (c :: rest) with
          | none =>
            rw [bodyText_eq_none (by simp) (sequence_none hlow hsequence)]
            exact writes_stop (by decide)
          | some need =>
            obtain ⟨hcharacter, hlength, hpos⟩ := sequence_some hsequence
            have hcopy := bodyText_character hcharacter (by
              obtain ⟨count, rfl⟩ := Nat.exists_eq_succ_of_ne_zero hpos.ne'
              simpa using hlow) ((c :: rest).drop need)
            rw [List.take_append_drop] at hcopy
            rw [hcopy]
            refine (writes_raw _).andThen (ih ?_)
            rw [List.length_drop, List.length_cons]
            omega

theorem writes_string (scan : Scan) (text : Text) :
    Writes (directString scan text) (stringText text) := by
  have hbody := writes_chars scan (Nat.lt_succ_self text.length)
  have hall := (writes_char 0x22).andThen (hbody.andThen (writes_char 0x22))
  have htext : stringText text =
      (some [0x22]).bind fun a => ((bodyText text).bind fun b =>
        (some [0x22]).map fun c => b ++ c).map fun b => a ++ b := by
    rw [stringText_eq]
    cases bodyText text <;> rfl
  rw [htext]
  exact hall

end Json
end Beans
