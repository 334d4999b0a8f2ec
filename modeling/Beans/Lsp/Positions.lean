import Beans.Foundation.Loop
import Beans.Foundation.Rulers
import Beans.Foundation.Utf8
import Beans.Runtime.Text

/-!
# Positions of the editor

The editor counts a line in UTF-16 units and the compiler in bytes.  Both
conversions step over the line by the width that a lead byte tells, so on
well-formed text they are the two rulers along the characters of the line.

**Results.**
* `positions_convert`: the conversions are inverse along every line of text; on any bytes they
  end, and a byte index is on the line.
-/

namespace Beans
namespace Lsp

open Rulers

/-- The bytes of a character, told by its lead byte. -/
def lspUtf8Width (byte : ℕ) : ℕ :=
  if byte < 128 then 1
  else if byte ≥ 240 then 4
  else if byte ≥ 224 then 3
  else 2

/-- The turn of both loops: the units so far and the index, one width further. -/
def widthStep (line : Text) (s : ℕ × ℕ) : ℕ × ℕ :=
  let width := lspUtf8Width (line.getD s.2 0).toNat
  (s.1 + (if width = 4 then 2 else 1), s.2 + width)

def byteIndexStep (line : Text) (character : ℤ) (s : ℕ × ℕ) : Option (ℕ × ℕ) :=
  if s.2 < line.length ∧ s.1 < character then some (widthStep line s) else none

/-- The byte at a UTF-16 position, the end of the line at most. -/
def lspByteIndex (line : Text) (character : ℤ) : ℕ :=
  let s := Loop.run (byteIndexStep line character) line.length (0, 0)
  if s.2 > line.length then line.length else s.2

def utf16IndexStep (line : Text) (limit : ℤ) (s : ℕ × ℕ) : Option (ℕ × ℕ) :=
  if s.2 < limit then some (widthStep line s) else none

/-- No index is read beyond the line: the limit is cut at its length. -/
def lspUtf16Index (line : Text) (byteIndex : ℤ) : ℕ :=
  let limit : ℤ := if byteIndex < line.length then byteIndex else line.length
  (Loop.run (utf16IndexStep line limit) line.length (0, 0)).1

theorem lspUtf8Width_pos (byte : ℕ) :
    0 < lspUtf8Width byte := by
  rw [lspUtf8Width]
  split_ifs
  all_goals decide

theorem byteIndexStep_ends (line : Text) (character : ℤ) :
    byteIndexStep line character
      (Loop.run (byteIndexStep line character) line.length (0, 0)) = none := by
  refine @Loop.step_run _ _ (fun s => line.length - s.2) (fun s s' h => ?_) _ _ (Nat.sub_le _ _)
  rw [byteIndexStep] at h
  split_ifs at h with hgo
  rw [← Option.some.inj h]
  have hpos := lspUtf8Width_pos (line.getD s.2 0).toNat
  dsimp only [widthStep]
  omega

theorem utf16IndexStep_ends (line : Text) {limit : ℤ} (hlimit : limit ≤ line.length) :
    utf16IndexStep line limit
      (Loop.run (utf16IndexStep line limit) line.length (0, 0)) = none := by
  refine @Loop.step_run _ _ (fun s => line.length - s.2) (fun s s' h => ?_) _ _ (Nat.sub_le _ _)
  rw [utf16IndexStep] at h
  split_ifs at h with hgo
  rw [← Option.some.inj h]
  have hpos := lspUtf8Width_pos (line.getD s.2 0).toNat
  dsimp only [widthStep]
  omega

/-- Slicing the line at a byte index is in range. -/
theorem lspByteIndex_le (line : Text) (character : ℤ) :
    lspByteIndex line character ≤ line.length := by
  rw [lspByteIndex]
  split_ifs with hover
  · exact le_rfl
  · exact not_lt.mp hover

/-- The bytes and the UTF-16 units of a character. -/
def byteSize (c : Char) : ℕ :=
  (String.utf8EncodeChar c).length

def utf16Size (c : Char) : ℕ :=
  if c.val.toNat ≤ 0xFFFF then 1 else 2

theorem byteSize_pos (c : Char) :
    0 < byteSize c := by
  rw [byteSize, String.length_utf8EncodeChar]
  exact c.utf8Size_pos

theorem utf16Size_pos (c : Char) :
    0 < utf16Size c := by
  rw [utf16Size]
  split_ifs
  all_goals decide

theorem total_byteSize (chars : List Char) :
    total byteSize chars = (Utf8.encode chars).length := by
  rw [Utf8.encode, List.length_flatMap]
  rfl

/-- The lead byte of a character tells its length. -/
theorem lead_width (c : Char) :
    ∃ first rest, String.utf8EncodeChar c = first :: rest ∧
      lspUtf8Width first.toNat = byteSize c ∧
      (if lspUtf8Width first.toNat = 4 then 2 else 1) = utf16Size c := by
  have hvalid : c.val.toNat < 0xD800 ∨ 0xDFFF < c.val.toNat ∧ c.val.toNat < 0x110000 := c.valid
  rw [byteSize, utf16Size, String.utf8EncodeChar]
  by_cases hone : c.val.toNat ≤ 0x7F
  · rw [if_pos hone, if_pos (by omega : c.val.toNat ≤ 0xFFFF)]
    refine ⟨_, _, rfl, ?_⟩
    rw [UInt8.toNat_ofNat', lspUtf8Width, if_pos (by omega)]
    exact ⟨rfl, rfl⟩
  rw [if_neg hone]
  by_cases htwo : c.val.toNat ≤ 0x7FF
  · rw [if_pos htwo, if_pos (by omega : c.val.toNat ≤ 0xFFFF)]
    refine ⟨_, _, rfl, ?_⟩
    rw [UInt8.toNat_ofNat', lspUtf8Width, if_neg (by omega), if_neg (by omega), if_neg (by omega)]
    exact ⟨rfl, rfl⟩
  rw [if_neg htwo]
  by_cases hthree : c.val.toNat ≤ 0xFFFF
  · rw [if_pos hthree, if_pos hthree]
    refine ⟨_, _, rfl, ?_⟩
    rw [UInt8.toNat_ofNat', lspUtf8Width, if_neg (by omega), if_neg (by omega), if_pos (by omega)]
    exact ⟨rfl, rfl⟩
  · rw [if_neg hthree, if_neg hthree]
    refine ⟨_, _, rfl, ?_⟩
    rw [UInt8.toNat_ofNat', lspUtf8Width, if_neg (by omega), if_pos (by omega)]
    exact ⟨rfl, rfl⟩

/-- A turn at a character steps over it. -/
theorem widthStep_char (p : List Char) (c : Char) (s : List Char) :
    widthStep (Utf8.encode (p ++ c :: s)) (total utf16Size p, total byteSize p) =
      (total utf16Size p + utf16Size c, total byteSize p + byteSize c) := by
  obtain ⟨first, rest, hencode, hwidth, hunits⟩ := lead_width c
  have hlead : (Utf8.encode (p ++ c :: s)).getD (total byteSize p) 0 = first := by
    rw [Utf8.encode_append, total_byteSize, List.getD_eq_getElem?_getD,
      List.getElem?_append_right le_rfl, Nat.sub_self, Utf8.encode, List.flatMap_cons, hencode]
    rfl
  rw [widthStep]
  simp only [hlead, hwidth]
  rw [hwidth] at hunits
  rw [hunits]

theorem total_lt_length (p : List Char) (c : Char) (s : List Char) :
    total byteSize p < (Utf8.encode (p ++ c :: s)).length := by
  have hpos := byteSize_pos c
  rw [← total_byteSize, total_append, total_cons]
  omega

/-- From the end of some characters on, the walk of `lsp_byte_index` measures the rest. -/
theorem run_byteIndexStep (p s : List Char) (character : ℤ) {fuel : ℕ}
    (hfuel : s.length ≤ fuel) :
    (Loop.run (byteIndexStep (Utf8.encode (p ++ s)) character) fuel
        (total utf16Size p, total byteSize p)).2 =
      total byteSize p + measure utf16Size byteSize s (character - total utf16Size p) := by
  induction s generalizing p fuel with
  | nil =>
    have hnone : byteIndexStep (Utf8.encode (p ++ [])) character
        (total utf16Size p, total byteSize p) = none := by
      rw [byteIndexStep, if_neg]
      rw [List.append_nil, ← total_byteSize]
      exact fun h => lt_irrefl _ h.1
    rw [Loop.run_none hnone]
    rfl
  | cons c s ih =>
    obtain ⟨fuel, rfl⟩ := Nat.exists_eq_succ_of_ne_zero (n := fuel)
      (by rw [List.length_cons] at hfuel; omega)
    have hlt := total_lt_length p c s
    rw [measure_cons]
    by_cases hgo : (total utf16Size p : ℤ) < character
    · have hsome : byteIndexStep (Utf8.encode (p ++ c :: s)) character
          (total utf16Size p, total byteSize p) =
          some (total utf16Size (p ++ [c]), total byteSize (p ++ [c])) := by
        rw [byteIndexStep, if_pos ⟨hlt, hgo⟩, widthStep_char, total_concat, total_concat]
      have hrest := @ih (p ++ [c]) fuel (by rw [List.length_cons] at hfuel; omega)
      rw [List.append_assoc, List.singleton_append] at hrest
      have htarget : character - (total utf16Size (p ++ [c]) : ℕ) =
          character - total utf16Size p - utf16Size c := by
        rw [total_concat]
        push_cast
        ring
      rw [Loop.run_some hsome, hrest, htarget, if_pos (by omega), total_concat,
        Nat.add_assoc]
    · have hnone : byteIndexStep (Utf8.encode (p ++ c :: s)) character
          (total utf16Size p, total byteSize p) = none := by
        rw [byteIndexStep, if_neg fun h => hgo h.2]
      rw [Loop.run_none hnone, if_neg (by omega), Nat.add_zero]

theorem run_utf16IndexStep (p s : List Char) {limit : ℤ}
    (hlimit : limit ≤ (Utf8.encode (p ++ s)).length) {fuel : ℕ} (hfuel : s.length ≤ fuel) :
    (Loop.run (utf16IndexStep (Utf8.encode (p ++ s)) limit) fuel
        (total utf16Size p, total byteSize p)).1 =
      total utf16Size p + measure byteSize utf16Size s (limit - total byteSize p) := by
  induction s generalizing p fuel with
  | nil =>
    have hnone : utf16IndexStep (Utf8.encode (p ++ [])) limit
        (total utf16Size p, total byteSize p) = none := by
      rw [List.append_nil, ← total_byteSize] at hlimit
      rw [utf16IndexStep, if_neg (not_lt.mpr hlimit)]
    rw [Loop.run_none hnone]
    rfl
  | cons c s ih =>
    obtain ⟨fuel, rfl⟩ := Nat.exists_eq_succ_of_ne_zero (n := fuel)
      (by rw [List.length_cons] at hfuel; omega)
    rw [measure_cons]
    by_cases hgo : (total byteSize p : ℤ) < limit
    · have hsome : utf16IndexStep (Utf8.encode (p ++ c :: s)) limit
          (total utf16Size p, total byteSize p) =
          some (total utf16Size (p ++ [c]), total byteSize (p ++ [c])) := by
        rw [utf16IndexStep, if_pos hgo, widthStep_char, total_concat, total_concat]
      have hrest := @ih (p ++ [c])
        (by rwa [List.append_assoc, List.singleton_append]) fuel
        (by rw [List.length_cons] at hfuel; omega)
      rw [List.append_assoc, List.singleton_append] at hrest
      have htarget : limit - (total byteSize (p ++ [c]) : ℕ) =
          limit - total byteSize p - byteSize c := by
        rw [total_concat]
        push_cast
        ring
      rw [Loop.run_some hsome, hrest, htarget, if_pos (by omega), total_concat,
        Nat.add_assoc]
    · have hnone : utf16IndexStep (Utf8.encode (p ++ c :: s)) limit
          (total utf16Size p, total byteSize p) = none := by
        rw [utf16IndexStep, if_neg hgo]
      rw [Loop.run_none hnone, if_neg (by omega), Nat.add_zero]

theorem length_le_total {w : Char → ℕ} (hw : ∀ c, 0 < w c) (chars : List Char) :
    chars.length ≤ total w chars := by
  induction chars with
  | nil => exact le_rfl
  | cons c chars ih =>
    have hpos := hw c
    rw [total_cons, List.length_cons]
    omega

theorem measure_le_total {w v : Char → ℕ} (chars : List Char) (target : ℤ) :
    measure w v chars target ≤ total v chars := by
  induction chars generalizing target with
  | nil => exact le_rfl
  | cons c chars ih =>
    rw [measure_cons, total_cons]
    split_ifs
    · exact Nat.add_le_add_left (ih _) _
    · exact Nat.zero_le _

theorem lspByteIndex_eq (chars : List Char) (character : ℤ) :
    lspByteIndex (Utf8.encode chars) character =
      measure utf16Size byteSize chars character := by
  have hfuel := length_le_total byteSize_pos chars
  rw [total_byteSize] at hfuel
  have hrun := run_byteIndexStep [] chars character hfuel
  rw [List.nil_append, total_nil, total_nil, Nat.zero_add, Nat.cast_zero, sub_zero] at hrun
  have hle := @measure_le_total utf16Size byteSize chars character
  rw [total_byteSize] at hle
  rw [lspByteIndex]
  rw [hrun, if_neg (not_lt.mpr hle)]

theorem lspUtf16Index_eq (chars : List Char) (byteIndex : ℤ) :
    lspUtf16Index (Utf8.encode chars) byteIndex =
      measure byteSize utf16Size chars byteIndex := by
  have hfuel := length_le_total byteSize_pos chars
  rw [total_byteSize] at hfuel
  rw [lspUtf16Index]
  split_ifs with hin
  · have hrun := run_utf16IndexStep [] chars hin.le hfuel
    rwa [List.nil_append, total_nil, total_nil, Nat.zero_add, Nat.cast_zero, sub_zero] at hrun
  · have hrun := run_utf16IndexStep [] chars le_rfl hfuel
    rw [List.nil_append, total_nil, total_nil, Nat.zero_add, Nat.cast_zero, sub_zero] at hrun
    rw [hrun, ← total_byteSize, measure_beyond byteSize_pos le_rfl,
      measure_beyond byteSize_pos (by rw [total_byteSize]; omega)]

theorem lspByteIndex_before (p s : List Char) :
    lspByteIndex (Utf8.encode (p ++ s)) (total utf16Size p) = (Utf8.encode p).length := by
  rw [lspByteIndex_eq, measure_boundary utf16Size_pos, total_byteSize]

theorem lspUtf16Index_before (p s : List Char) :
    lspUtf16Index (Utf8.encode (p ++ s)) (Utf8.encode p).length = total utf16Size p := by
  rw [lspUtf16Index_eq, ← total_byteSize, measure_boundary byteSize_pos]

/-- The offset is between the two halves of a surrogate pair. -/
def InsidePair (chars : List Char) (character : ℕ) : Prop :=
  ∃ p c s, chars = p ++ c :: s ∧ utf16Size c = 2 ∧ character = total utf16Size p + 1

theorem utf16Size_le_two (c : Char) :
    utf16Size c ≤ 2 := by
  rw [utf16Size]
  split_ifs
  all_goals decide

variable {character : ℕ} {chars : List Char}

/-- An offset that is in no surrogate pair is the length of a prefix. -/
theorem prefix_of_not_insidePair (hle : character ≤ total utf16Size chars)
    (h : ¬ InsidePair chars character) :
    ∃ p s, chars = p ++ s ∧ total utf16Size p = character := by
  rcases boundary_or_inside chars hle with hbound | ⟨p, c, s, hchars, hlow, hhigh⟩
  · exact hbound
  · have htwo := utf16Size_le_two c
    exact absurd ⟨p, c, s, hchars, by omega, by omega⟩ h

/-- The offset inside a surrogate pair is moved past the pair. -/
theorem round_insidePair (h : InsidePair chars character) :
    lspUtf16Index (Utf8.encode chars) (lspByteIndex (Utf8.encode chars) character) =
      character + 1 := by
  obtain ⟨p, c, s, rfl, htwo, rfl⟩ := h
  have hpast : lspByteIndex (Utf8.encode (p ++ c :: s)) (total utf16Size p + 1 : ℕ) =
      (Utf8.encode (p ++ [c])).length := by
    rw [lspByteIndex_eq, measure_inside utf16Size_pos p c s (by omega) (by omega),
      ← total_byteSize, total_concat]
  have hback := lspUtf16Index_before (p ++ [c]) s
  rw [List.append_assoc, List.singleton_append] at hback
  rw [hpast, hback, total_concat, htwo]

/-- What the editor relies on along a line of text. -/
structure Converts (chars : List Char) : Prop where
  byteIndex_prefix :
    ∀ p s, chars = p ++ s →
      lspByteIndex (Utf8.encode chars) (total utf16Size p) = (Utf8.encode p).length
  utf16Index_prefix :
    ∀ p s, chars = p ++ s →
      lspUtf16Index (Utf8.encode chars) (Utf8.encode p).length = total utf16Size p
  utf16_round :
    ∀ character : ℕ, character ≤ total utf16Size chars → ¬ InsidePair chars character →
      lspUtf16Index (Utf8.encode chars) (lspByteIndex (Utf8.encode chars) character) = character
  utf16_round_inside :
    ∀ character : ℕ, InsidePair chars character →
      lspUtf16Index (Utf8.encode chars) (lspByteIndex (Utf8.encode chars) character) =
        character + 1
  byte_round :
    ∀ p s, chars = p ++ s →
      lspByteIndex (Utf8.encode chars)
        (lspUtf16Index (Utf8.encode chars) (Utf8.encode p).length) = (Utf8.encode p).length
  byteIndex_mono : Monotone (lspByteIndex (Utf8.encode chars))
  utf16Index_mono : Monotone (lspUtf16Index (Utf8.encode chars))
  byteIndex_beyond :
    ∀ character : ℤ, total utf16Size chars ≤ character →
      lspByteIndex (Utf8.encode chars) character = (Utf8.encode chars).length
  utf16Index_beyond :
    ∀ byteIndex : ℤ, (Utf8.encode chars).length ≤ byteIndex →
      lspUtf16Index (Utf8.encode chars) byteIndex = total utf16Size chars

theorem converts (chars : List Char) :
    Converts chars where
  byteIndex_prefix := by
    rintro p s rfl
    exact lspByteIndex_before p s
  utf16Index_prefix := by
    rintro p s rfl
    exact lspUtf16Index_before p s
  utf16_round := by
    intro character hle hinside
    obtain ⟨p, s, rfl, rfl⟩ := prefix_of_not_insidePair hle hinside
    rw [lspByteIndex_before, lspUtf16Index_before]
  utf16_round_inside _ h := round_insidePair h
  byte_round := by
    rintro p s rfl
    rw [lspUtf16Index_before, lspByteIndex_before]
  byteIndex_mono := by
    intro character character' h
    rw [lspByteIndex_eq, lspByteIndex_eq]
    exact measure_mono chars h
  utf16Index_mono := by
    intro byteIndex byteIndex' h
    rw [lspUtf16Index_eq, lspUtf16Index_eq]
    exact measure_mono chars h
  byteIndex_beyond := by
    intro character h
    rw [lspByteIndex_eq, measure_beyond utf16Size_pos h, total_byteSize]
  utf16Index_beyond := by
    intro byteIndex h
    rw [← total_byteSize] at h
    rw [lspUtf16Index_eq, measure_beyond byteSize_pos h]

/-- The conversions are inverse along every line of text, and on any bytes their loops end
and a byte index is on the line. -/
theorem positions_convert :
    (∀ chars, Converts chars) ∧
    ∀ (line : Text) (character : ℤ),
      byteIndexStep line character
        (Loop.run (byteIndexStep line character) line.length (0, 0)) = none ∧
      (∀ limit : ℤ, limit ≤ line.length →
        utf16IndexStep line limit
          (Loop.run (utf16IndexStep line limit) line.length (0, 0)) = none) ∧
      lspByteIndex line character ≤ line.length :=
  ⟨converts, fun line character => ⟨byteIndexStep_ends line character,
    fun _ hlimit => utf16IndexStep_ends line hlimit, lspByteIndex_le line character⟩⟩

end Lsp
end Beans
