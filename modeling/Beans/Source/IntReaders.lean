import Beans.Source.IntRange

/-!
# Both readers load the same bits

The interpreter and the emitter take different ways through a literal, and both end
in the value of its digits up to a multiple of two to the 64.

**Results.**
* `int_literal_exact`: for every spelling and every integer type, the checker accepts exactly
  the values in range, and both engines load them.
-/

namespace Beans
namespace Source

theorem toInt_toInt64 (value : UInt64) :
    value.toInt64.toInt ≡ value.toNat [ZMOD 2 ^ 64] := by
  have hbmod : value.toInt64.toInt = (value.toNat : ℤ).bmod (2 ^ 64) :=
    BitVec.toInt_eq_toNat_bmod value.toBitVec
  rw [hbmod]
  exact Int.bmod_emod

theorem toInt_ofInt (value : ℤ) :
    (Int64.ofInt value).toInt ≡ value [ZMOD 2 ^ 64] := by
  rw [Int64.toInt_ofInt]
  exact Int.bmod_emod

theorem toInt_ofNat (value : ℕ) :
    (Int64.ofNat value).toInt ≡ value [ZMOD 2 ^ 64] := by
  rw [Int64.toInt_ofNat']
  exact Int.bmod_emod

theorem toNat_sub (value : UInt64) :
    ((0 - value).toNat : ℤ) ≡ -value.toNat [ZMOD 2 ^ 64] := by
  have hlt := value.toNat_lt
  rw [UInt64.toNat_sub]
  rw [Int.modEq_iff_dvd]
  push_cast
  omega

theorem treeSignedFromBits_word (value : UInt64) :
    (treeSignedFromBits value 64).toInt ≡ value.toNat [ZMOD 2 ^ 64] := by
  rw [treeSignedFromBits, treeMaskUnsigned]
  dsimp only
  rw [if_pos (le_refl 64), if_pos (le_refl 64)]
  split_ifs
  · exact toInt_toInt64 value
  · have hnot := toInt_toInt64 (~~~value)
    have hlt := value.toNat_lt
    rw [UInt64.toNat_not, show UInt64.size = 18446744073709551616 from rfl] at hnot
    rw [Int64.toInt_sub]
    refine Int.bmod_emod.trans ?_
    refine ((Int.ModEq.refl _).sub hnot).trans ?_
    rw [Int.modEq_iff_dvd]
    change _ ∣ _ - ((-1 : ℤ) - _)
    omega

variable {byte marker : UInt8} {base value : ℕ} {digits text : Text} {negative : Bool}

theorem unsignedDigit_word (h : hexDigitValue byte.toNat < 16) :
    (unsignedDigit byte).toNat = hexDigitValue byte.toNat := by
  have hspec := hexDigitValue_spec byte.toNat
  have hle : ∀ c : UInt8, c ≤ byte ↔ c.toNat ≤ byte.toNat := fun c => UInt8.le_iff_toNat_le
  have hge : ∀ c : UInt8, byte ≤ c ↔ byte.toNat ≤ c.toNat := fun c => UInt8.le_iff_toNat_le
  have hsub : ∀ c : UInt8, c.toNat ≤ byte.toNat →
      (byte - c).toUInt64.toNat = byte.toNat - c.toNat := by
    intro c hc
    rw [UInt8.toNat_toUInt64, UInt8.toNat_sub_of_le _ _ ((hle c).mpr hc)]
  simp only [unsignedDigit, hle, hge, UInt8.reduceToNat]
  split_ifs with hdigit hlower hupper
  · exact (hsub 48 hdigit.1).trans (by change byte.toNat - 48 = _; omega)
  · exact (hsub 87 (by change 87 ≤ _; omega)).trans (by change byte.toNat - 87 = _; omega)
  · exact (hsub 55 (by change 55 ≤ _; omega)).trans (by change byte.toNat - 55 = _; omega)
  · omega

/-- What accumulates from zero denotes the value. -/
theorem foldl_digits {α : Type*} (read : α → ℤ) {step : α → UInt8 → α}
    (hstep : ∀ a, ∀ byte ∈ digits,
      read (step a byte) ≡ read a * base + hexDigitValue byte.toNat [ZMOD 2 ^ 64])
    {start : α}
    (hstart : read start = 0) :
    read (digits.foldl step start) ≡ Horner.value base (digitValues digits) [ZMOD 2 ^ 64] := by
  have hrun := Horner.foldl_map (fun byte : UInt8 => hexDigitValue byte.toNat) read hstep start
  rwa [hstart, zero_mul, zero_add] at hrun

theorem treeParseUnsigned_word (h : Clean base (withoutUnderscores text) digits) :
    ((treeParseUnsigned text).toNat : ℤ) ≡ Horner.value base (digitValues digits) [ZMOD 2 ^ 64] := by
  have hbase := h.base_cases
  rw [treeParseUnsigned, h.split]
  refine foldl_digits (fun value : UInt64 => (value.toNat : ℤ)) (fun value byte hbyte => ?_) rfl
  have hdigit := h.lt byte hbyte
  have hword : (UInt64.ofNat base).toNat = base := by
    rw [UInt64.toNat_ofNat']
    exact Nat.mod_eq_of_lt (by omega)
  rw [UInt64.toNat_add, UInt64.toNat_mul, hword, unsignedDigit_word (by omega)]
  push_cast
  exact (Int.mod_modEq _ _).trans ((Int.mod_modEq _ _).add_right _)

theorem hexDigitValue_of_lt (h : hexDigitValue byte.toNat < 10) :
    (48 ≤ byte ∧ byte ≤ 57) ∧ byte.toNat - 48 = hexDigitValue byte.toNat := by
  have hspec := hexDigitValue_spec byte.toNat
  rw [UInt8.le_iff_toNat_le, UInt8.le_iff_toNat_le]
  change (48 ≤ byte.toNat ∧ byte.toNat ≤ 57) ∧ _
  omega

/-- Below the cap nothing overflows. -/
theorem parseDigits_eq {cap : ℕ} (h : ∀ c ∈ digits, hexDigitValue c.toNat < 10)
    (hcap : value * 10 ^ digits.length + Horner.value 10 (digitValues digits) ≤ cap) :
    parseDigits cap digits (some value) =
      (some (value * 10 ^ digits.length + Horner.value 10 (digitValues digits)), []) := by
  induction digits generalizing value with
  | nil =>
    rw [parseDigits, List.length_nil, pow_zero, mul_one]
    rfl
  | cons byte rest ih =>
    obtain ⟨hbyte, hrest⟩ := List.forall_mem_cons.mp h
    obtain ⟨hrange, hdigit⟩ := hexDigitValue_of_lt hbyte
    have hvalue : value * 10 ^ (byte :: rest).length +
          Horner.value 10 (digitValues (byte :: rest)) =
        (value * 10 + hexDigitValue byte.toNat) * 10 ^ rest.length +
          Horner.value 10 (digitValues rest) := by
      rw [digitValues, List.map_cons, Horner.value_cons, List.length_map, List.length_cons,
        digitValues]
      ring
    rw [hvalue] at hcap ⊢
    have hstep : value * 10 + hexDigitValue byte.toNat ≤ cap := by
      have hpos : 0 < 10 ^ rest.length := Nat.pow_pos (by norm_num)
      have hle := Nat.le_mul_of_pos_right (value * 10 + hexDigitValue byte.toNat) hpos
      omega
    rw [parseDigits, if_pos hrange]
    dsimp only [Option.bind_some]
    rw [hdigit, if_neg (by omega)]
    exact ih hrest hcap

/-- The spelling with a sign. -/
def signed (negative : Bool) (text : Text) : Text :=
  if negative then 45 :: text else text

/-- Digits in range are read exactly, the least value included. -/
theorem toInt_signed (h : ∀ c ∈ digits, hexDigitValue c.toNat < 10) (hne : digits ≠ [])
    (hcap : Horner.value 10 (digitValues digits) ≤
      if negative then 9223372036854775808 else 9223372036854775807) :
    toInt (signed negative digits) =
      some (Int64.ofInt (signedValue negative (Horner.value 10 (digitValues digits)))) := by
  cases digits with
  | nil => exact absurd rfl hne
  | cons first rest =>
    have hfirst := (hexDigitValue_of_lt (h first List.mem_cons_self)).1
    have hother : ∀ c : UInt8, ¬ (48 ≤ c ∧ c ≤ 57) → first ≠ c := by
      rintro c hc rfl
      exact hc hfirst
    have hblank : (first == 32 || first == 9 || first == 10 || first == 13) = false := by
      rw [beq_false_of_ne (hother 32 (by decide)), beq_false_of_ne (hother 9 (by decide)),
        beq_false_of_ne (hother 10 (by decide)), beq_false_of_ne (hother 13 (by decide))]
      rfl
    have hplus := hother 43 (by decide)
    have hminus := hother 45 (by decide)
    have hdigit : ¬ (first < 48 ∨ first > 57) := by
      rw [not_or, UInt8.not_lt]
      exact ⟨hfirst.1, UInt8.not_lt.mpr hfirst.2⟩
    have hparse : ∀ cap, Horner.value 10 (digitValues (first :: rest)) ≤ cap →
        parseDigits cap (first :: rest) (some 0) =
          (some (Horner.value 10 (digitValues (first :: rest))), []) := by
      intro cap hle
      have hzero : 0 * 10 ^ (first :: rest).length +
          Horner.value 10 (digitValues (first :: rest)) =
          Horner.value 10 (digitValues (first :: rest)) := by
        rw [zero_mul, zero_add]
      have hrun := parseDigits_eq h (hzero.le.trans hle)
      rwa [hzero] at hrun
    cases negative with
    | false =>
      simp only [toInt, signed, List.dropWhile_cons, hblank, List.head?_cons, hplus, hminus,
        Option.some.injEq, or_self, Bool.false_eq_true, if_false, hdigit]
      rw [hparse 9223372036854775807 hcap, if_neg (not_not.mpr rfl)]
      rfl
    | true =>
      have htrim : (45 :: first :: rest).dropWhile (fun byte : UInt8 =>
          byte == 32 || byte == 9 || byte == 10 || byte == 13) = 45 :: first :: rest := rfl
      simp only [toInt, signed, if_true, htrim, List.head?_cons, List.drop_succ_cons,
        List.drop_zero, or_true, hdigit, if_false]
      rw [hparse 9223372036854775808 hcap, if_neg (not_not.mpr rfl)]
      rfl

theorem withoutUnderscores_idem (text : Text) :
    withoutUnderscores (withoutUnderscores text) = withoutUnderscores text := by
  rw [withoutUnderscores, withoutUnderscores, List.filter_filter]
  exact List.filter_congr fun c _ => Bool.and_self _

theorem withoutUnderscores_signed (negative : Bool) (text : Text) :
    withoutUnderscores (signed negative text) = signed negative (withoutUnderscores text) := by
  cases negative with
  | false => rfl
  | true =>
    rw [signed, if_pos rfl, signed, if_pos rfl, withoutUnderscores, List.filter_cons_of_pos rfl]
    rfl

/-- The word of a sign before bits. -/
theorem signedBits_word {bits : UInt64} (h : (bits.toNat : ℤ) ≡ value [ZMOD 2 ^ 64]) :
    (treeSignedFromBits (0 - bits) 64).toInt ≡ -value [ZMOD 2 ^ 64] ∧
      (treeSignedFromBits bits 64).toInt ≡ value [ZMOD 2 ^ 64] :=
  ⟨(treeSignedFromBits_word _).trans ((toNat_sub bits).trans h.neg),
    (treeSignedFromBits_word _).trans h⟩

theorem starts_minus (text : Text) :
    startsHex (45 :: text) = false ∧ startsBinary (45 :: text) = false :=
  ⟨rfl, rfl⟩

theorem Clean.starts (h : Clean base text digits) :
    (startsHex text || startsBinary text) = !decide (base = 10) := by
  rcases h.prefixed with ⟨hbase, rfl⟩ | ⟨marker, rfl, hmarker⟩
  · obtain ⟨hhex, hbinary⟩ := not_starts fun c hc => hbase ▸ h.lt c hc
    rw [hhex, hbinary, hbase]
    rfl
  · rw [startsHex_cons, startsBinary_cons]
    rcases hmarker with ⟨rfl, rfl | rfl⟩ | ⟨rfl, rfl | rfl⟩
    all_goals rfl

/-- The largest magnitudes that are read as they are. -/
theorem le_of_inRange_i64 (h : IntType.i64.InRange (signedValue negative value)) :
    value ≤ if negative then 9223372036854775808 else 9223372036854775807 := by
  have hrange : (-9223372036854775808 : ℤ) ≤ signedValue negative value ∧
      signedValue negative value < 9223372036854775808 := h
  rw [signedValue] at hrange
  split_ifs at hrange ⊢
  · omega
  · omega

/-- The interpreter loads the value of the digits with its sign. -/
theorem treeParseInt_word (h : Clean base (withoutUnderscores text) digits) (negative : Bool) :
    (treeParseInt (signed negative text)).toInt ≡
      signedValue negative (Horner.value base (digitValues digits)) [ZMOD 2 ^ 64] := by
  have hclean : Clean base (withoutUnderscores (withoutUnderscores text)) digits := by
    rwa [withoutUnderscores_idem]
  have hbits := signedBits_word (treeParseUnsigned_word hclean)
  have hstarts := h.starts
  rw [treeParseInt, withoutUnderscores_signed]
  dsimp only
  generalize withoutUnderscores text = clean at h hclean hbits hstarts ⊢
  by_cases hten : base = 10
  · rw [decide_eq_true hten, Bool.not_true] at hstarts
    rcases h.prefixed with ⟨-, rfl⟩ | ⟨marker, -, hmarker⟩
    swap
    · rcases hmarker with ⟨hsixteen, -⟩ | ⟨htwo, -⟩
      · exact absurd (hten.symm.trans hsixteen) (by decide)
      · exact absurd (hten.symm.trans htwo) (by decide)
    subst hten
    have hint : ascii "int" ∈ IntType.i64.names := List.mem_cons_of_mem _ List.mem_cons_self
    have hfits := integerLiteralFits_iff hclean hint negative
    have hread := fun hin => toInt_signed h.lt h.ne_nil (le_of_inRange_i64 (hfits.mp hin))
    obtain ⟨hhex, hbinary⟩ := Bool.or_eq_false_iff.mp hstarts
    have hhead : clean.head? ≠ some 45 := by
      intro hminus
      have hmem : (45 : UInt8) ∈ clean := List.mem_of_mem_head? hminus
      exact absurd (h.lt 45 hmem) (by decide)
    cases negative with
    | false =>
      rw [signed, if_neg Bool.false_ne_true, hhex, hbinary, if_neg (by decide),
        if_neg fun hminus => hhead hminus.1, decide_eq_false hhead]
      rw [if_neg Bool.false_ne_true, if_neg Bool.false_ne_true]
      by_cases hfit : integerLiteralFits clean (ascii "int") false = true
      · have hvalue : toInt clean = _ := hread hfit
        rw [if_neg (not_not.mpr hfit), hvalue]
        exact toInt_ofInt _
      · rw [if_pos hfit]
        exact hbits.2
    | true =>
      rw [signed, if_pos rfl, (starts_minus clean).1, (starts_minus clean).2,
        if_neg (by decide), List.drop_succ_cons, List.drop_zero, hhex, hbinary,
        if_neg (by simp), List.head?_cons, decide_eq_true rfl, if_pos rfl, if_pos rfl]
      by_cases hfit : integerLiteralFits clean (ascii "int") true = true
      · have hvalue : toInt (45 :: clean) = _ := hread hfit
        rw [if_neg (not_not.mpr hfit), hvalue]
        exact toInt_ofInt _
      · rw [if_pos hfit]
        exact hbits.1
  · rw [decide_eq_false hten, Bool.not_false] at hstarts
    cases negative with
    | false =>
      rw [signed, if_neg Bool.false_ne_true, if_pos hstarts]
      exact hbits.2
    | true =>
      rw [signed, if_pos rfl, (starts_minus clean).1, (starts_minus clean).2,
        if_neg (by decide), if_pos ⟨rfl, (Bool.or_eq_true _ _).mp hstarts⟩]
      exact hbits.1

/-- The integer of a decimal constant: digits after an optional minus. -/
def llvmValue (text : Text) : Option ℤ :=
  let negative : Bool := text.head? = some 45
  let digits := if negative then text.drop 1 else text
  if digits ≠ [] ∧ ∀ c ∈ digits, hexDigitValue c.toNat < 10 then
    some (signedValue negative (Horner.value 10 (digitValues digits)))
  else none

theorem llvmValue_signed (hne : digits ≠ []) (h : ∀ c ∈ digits, hexDigitValue c.toNat < 10)
    (negative : Bool) :
    llvmValue (signed negative digits) =
      some (signedValue negative (Horner.value 10 (digitValues digits))) := by
  cases negative with
  | false =>
    have hhead : digits.head? ≠ some 45 := fun hminus =>
      absurd (h 45 (List.mem_of_mem_head? hminus)) (by decide)
    rw [signed, if_neg Bool.false_ne_true, llvmValue, decide_eq_false hhead]
    exact if_pos ⟨hne, h⟩
  | true => exact if_pos ⟨hne, h⟩

theorem hexDigitValue_of_range {c : UInt8} (h : 48 ≤ c.toNat ∧ c.toNat ≤ 57) :
    hexDigitValue c.toNat = c.toNat - 48 ∧ hexDigitValue c.toNat < 10 := by
  rw [hexDigitValue, if_pos h]
  omega

theorem llvmValue_ofInt (value : ℤ) :
    llvmValue (Text.ofInt value) = some value := by
  have hdigits : ∀ n, Horner.value 10 (digitValues (Text.ofNat n)) = n := by
    intro n
    have hvalues : digitValues (Text.ofNat n) = (Text.ofNat n).map fun c => c.toNat - 48 :=
      List.map_congr_left fun c hc => (hexDigitValue_of_range (Text.mem_ofNat hc)).1
    rw [hvalues, Horner.value, ← List.map_reverse]
    exact Text.digitsValue_ofNat n
  have hread : ∀ n negative, llvmValue (signed negative (Text.ofNat n)) =
      some (signedValue negative n) := by
    intro n negative
    have hrun := llvmValue_signed (Text.ofNat_ne_nil n)
      (fun c hc => (hexDigitValue_of_range (Text.mem_ofNat hc)).2) negative
    rwa [hdigits] at hrun
  rw [Text.ofInt]
  split_ifs with hneg
  · rw [show 45 :: Text.ofNat value.natAbs = signed true (Text.ofNat value.natAbs) from rfl, hread]
    exact congrArg some (by rw [signedValue, if_pos rfl]; omega)
  · rw [show Text.ofNat value.natAbs = signed false (Text.ofNat value.natAbs) from rfl, hread]
    exact congrArg some (by rw [signedValue, if_neg Bool.false_ne_true]; omega)

theorem accumulate_eq (h : ∀ c ∈ digits, hexDigitValue c.toNat < base) (value : Int64) :
    accumulate base digits value = some (digits.foldl (fun value byte =>
      value * Int64.ofNat base + Int64.ofNat (hexDigitValue byte.toNat)) value) := by
  induction digits generalizing value with
  | nil => rfl
  | cons byte rest ih =>
    obtain ⟨hbyte, hrest⟩ := List.forall_mem_cons.mp h
    rw [accumulate, if_neg (not_le.mpr hbyte), ih hrest, List.foldl_cons]

theorem accumulate_word (h : ∀ c ∈ digits, hexDigitValue c.toNat < base) :
    ∃ value, accumulate base digits 0 = some value ∧
      value.toInt ≡ Horner.value base (digitValues digits) [ZMOD 2 ^ 64] := by
  refine ⟨_, accumulate_eq h 0, foldl_digits Int64.toInt (fun value byte _ => ?_) rfl⟩
  rw [Int64.toInt_add, Int64.toInt_mul]
  refine Int.bmod_emod.trans (Int.ModEq.add (Int.bmod_emod.trans ?_) (toInt_ofNat _))
  exact (Int.ModEq.refl _).mul (toInt_ofNat _)

theorem digitValues_toLower (digits : Text) :
    digitValues (toLower digits) = digitValues digits := by
  have hall : ∀ byte : UInt8, hexDigitValue (if 65 ≤ byte ∧ byte ≤ 90 then byte + 32 else byte).toNat =
      hexDigitValue byte.toNat := by
    intro byte
    split_ifs with hupper
    · rw [UInt8.le_iff_toNat_le, UInt8.le_iff_toNat_le] at hupper
      change 65 ≤ byte.toNat ∧ byte.toNat ≤ 90 at hupper
      have hspec := hexDigitValue_spec byte.toNat
      have hspec' := hexDigitValue_spec (byte + 32).toNat
      have hadd : (byte + 32).toNat = byte.toNat + 32 := by
        rw [UInt8.toNat_add]
        exact Nat.mod_eq_of_lt (by change byte.toNat + 32 < 256; omega)
      omega
    · rfl
  rw [digitValues, toLower, List.map_map]
  exact List.map_congr_left fun byte _ => hall byte

theorem Clean.head_ne (h : Clean base text digits) :
    text.head? ≠ some 45 := by
  rcases h.prefixed with ⟨hbase, rfl⟩ | ⟨marker, rfl, -⟩
  · intro hminus
    have hlt := h.lt 45 (List.mem_of_mem_head? hminus)
    rw [hbase] at hlt
    exact absurd hlt (by decide)
  · exact fun hminus => absurd (Option.some.inj hminus) (by decide)

theorem signed_split (h : text.head? ≠ some 45) (negative : Bool) :
    decide ((signed negative text).head? = some 45) = negative ∧
      (if negative then (signed negative text).drop 1 else signed negative text) = text := by
  cases negative with
  | false => exact ⟨decide_eq_false h, rfl⟩
  | true => exact ⟨rfl, rfl⟩

theorem markerBase_eq
    (h : base = 16 ∧ (marker = 120 ∨ marker = 88) ∨ base = 2 ∧ (marker = 98 ∨ marker = 66)) :
    markerBase marker = some base := by
  rcases h with ⟨rfl, rfl | rfl⟩ | ⟨rfl, rfl | rfl⟩
  all_goals rfl

theorem markerBase_digit (h : hexDigitValue marker.toNat < 10) :
    markerBase marker = none := by
  have hother : ∀ c : UInt8, ¬ hexDigitValue c.toNat < 10 → marker ≠ c := by
    rintro c hc rfl
    exact hc h
  rw [markerBase, if_neg (not_or_intro (hother 120 (by decide)) (hother 88 (by decide))),
    if_neg (not_or_intro (hother 98 (by decide)) (hother 66 (by decide))),
    if_neg (not_or_intro (hother 111 (by decide)) (hother 79 (by decide)))]

/-- The constant of the emitter is the value of the digits with its sign. -/
theorem llvmIntegerConstant_word (h : Clean base (withoutUnderscores text) digits)
    (negative : Bool) :
    ∃ value, llvmValue (llvmIntegerConstant (signed negative text)) = some value ∧
      value ≡ signedValue negative (Horner.value base (digitValues digits)) [ZMOD 2 ^ 64] := by
  rw [llvmIntegerConstant, withoutUnderscores_signed]
  generalize withoutUnderscores text = clean at h ⊢
  obtain ⟨hnegative, hstripped⟩ := signed_split h.head_ne negative
  rw [hnegative, hstripped]
  rcases h.prefixed with ⟨rfl, rfl⟩ | ⟨marker, rfl, hmarker⟩
  · have hplain := llvmValue_signed h.ne_nil h.lt negative
    split
    · rename_i marker rest
      have hdigit := h.lt marker (List.mem_cons_of_mem _ List.mem_cons_self)
      rw [markerBase_digit hdigit]
      exact ⟨_, hplain, rfl⟩
    · exact ⟨_, hplain, rfl⟩
  · have hlower : ∀ edge : Text, toLower digits = edge → Horner.value 16 (digitValues digits) =
        Horner.value 16 (digitValues edge) := by
      intro edge hedge
      rw [← hedge, digitValues_toLower]
    have hones : Horner.value 16 (digitValues (ascii "ffffffffffffffff")) = 18446744073709551615 := by
      decide +kernel
    have hedge : Horner.value 16 (digitValues (ascii "8000000000000000")) = 9223372036854775808 := by
      decide +kernel
    obtain ⟨word, hword, hvalue⟩ := accumulate_word h.lt
    simp only [markerBase_eq hmarker, hword]
    split_ifs with hfull hlowest hminus
    · simp only [Bool.and_eq_true, Bool.not_eq_true', beq_iff_eq] at hfull
      obtain ⟨⟨rfl, rfl⟩, hdigits⟩ := hfull
      refine ⟨-1, by decide +kernel, ?_⟩
      rw [hlower _ hdigits, hones]
      rfl
    · simp only [Bool.and_eq_true, beq_iff_eq] at hlowest
      obtain ⟨⟨rfl, rfl⟩, hdigits⟩ := hlowest
      refine ⟨-9223372036854775808, by decide +kernel, ?_⟩
      rw [hlower _ hdigits, hedge]
      rfl
    · refine ⟨_, llvmValue_ofInt _, ?_⟩
      rw [Int64.toInt_sub, signedValue, if_pos hminus, show (0 : Int64).toInt = 0 from rfl, zero_sub]
      exact Int.bmod_emod.trans hvalue.neg
    · refine ⟨_, llvmValue_ofInt _, ?_⟩
      rw [signedValue, if_neg hminus]
      exact hvalue

/-- Every integer of a source passes the check of a type exactly when its value is in
the range of the type, and both engines load that value. -/
theorem int_literal_exact
    {source : Text}
    {tok : Token}
    (htok : tok ∈ (Lexer.scan (Lexer.init source)).2)
    (hkind : tok.kind = .int) :
    ∃ base digits, IntSpelling base tok.text digits ∧ ∀ type : IntType, ∀ name ∈ type.names,
      ∀ negative : Bool,
        (integerLiteralFits tok.text name negative = true ↔
          type.InRange (signedValue negative (magnitude base digits))) ∧
        (treeParseInt (signed negative tok.text)).toInt ≡
          signedValue negative (magnitude base digits) [ZMOD 2 ^ 64] ∧
        ∃ value, llvmValue (llvmIntegerConstant (signed negative tok.text)) = some value ∧
          value ≡ signedValue negative (magnitude base digits) [ZMOD 2 ^ 64] := by
  obtain ⟨base, digits, hspelling⟩ := Lexer.int_token_spelled htok hkind
  have hclean := hspelling.clean
  refine ⟨base, digits, hspelling, fun type name hname negative => ⟨?_, ?_, ?_⟩⟩
  · exact integerLiteralFits_iff hclean hname negative
  · exact treeParseInt_word hclean negative
  · exact llvmIntegerConstant_word hclean negative

/-- The token of a mask with underscores. -/
theorem int_literal_exact_mask :
    ∃ base digits, IntSpelling base (ascii "0x8000_0000") digits ∧
      ∀ type : IntType, ∀ name ∈ type.names, ∀ negative : Bool,
        (integerLiteralFits (ascii "0x8000_0000") name negative = true ↔
          type.InRange (signedValue negative (magnitude base digits))) ∧
        (treeParseInt (signed negative (ascii "0x8000_0000"))).toInt ≡
          signedValue negative (magnitude base digits) [ZMOD 2 ^ 64] ∧
        ∃ value, llvmValue (llvmIntegerConstant (signed negative (ascii "0x8000_0000"))) =
            some value ∧
          value ≡ signedValue negative (magnitude base digits) [ZMOD 2 ^ 64] :=
  @int_literal_exact (ascii "0x8000_0000") ⟨.int, ascii "0x8000_0000", 1, 1⟩ (by decide +kernel)
    rfl

end Source
end Beans
