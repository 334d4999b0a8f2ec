import Beans.Foundation.Utf8
import Beans.Runtime.Text

/-!
# The units of a displayed string

A string is walked over by units: a character where its well-formed encoding
starts, and a single byte everywhere else, drawn as a replacement.
-/

namespace Beans
namespace Width

open Utf8

/-- What `width_decode` reports. -/
structure Decoded where
  len : ℕ
  scalar : ℕ
  bad : Bool
deriving DecidableEq

def replacement : Decoded :=
  ⟨1, 0xFFFD, true⟩

/-- The length that a lead byte tells, or 0. -/
def sequenceLen (c : ℕ) : ℕ :=
  if c < 0x80 then 1
  else if c >>> 5 = 0x6 then 2
  else if c >>> 4 = 0xE then 3
  else if c >>> 3 = 0x1E then 4
  else 0

/-- The loop over the bytes behind a lead byte. -/
def continuation (cp : ℕ) : Text → Option ℕ
  | [] => some cp
  | t :: more =>
    if t.toNat >>> 6 ≠ 0x2 then none
    else continuation ((cp <<< 6) ||| (t.toNat &&& 0x3F)) more

/-- What well-formed bytes can spell and UTF-8 does not encode. -/
def NotEncoded (len cp : ℕ) : Prop :=
  cp > 0x10FFFF ∨ (cp ≥ 0xD800 ∧ cp ≤ 0xDFFF) ∨ (len = 2 ∧ cp < 0x80) ∨
    (len = 3 ∧ cp < 0x800) ∨ (len = 4 ∧ cp < 0x10000)

instance (len cp : ℕ) : Decidable (NotEncoded len cp) :=
  inferInstanceAs (Decidable (_ ∨ _))

def widthDecode (p : Text) : Decoded :=
  let c := (p.getD 0 0).toNat
  let len := sequenceLen c
  if len = 1 then ⟨1, c, false⟩
  else if len = 0 ∨ len > p.length then replacement
  else
    match continuation (c &&& (0xFF >>> (len + 1))) ((p.drop 1).take (len - 1)) with
    | none => replacement
    | some cp => if NotEncoded len cp then replacement else ⟨len, cp, false⟩

section Lead

variable {c : ℕ}

theorem sequenceLen_one (h : c < 0x80) :
    sequenceLen c = 1 :=
  if_pos h

theorem sequenceLen_two (h : 0xC0 ≤ c) (h' : c < 0xE0) :
    sequenceLen c = 2 := by
  rw [sequenceLen, Nat.shiftRight_eq_div_pow, if_neg (by omega), if_pos (by omega)]

theorem sequenceLen_three (h : 0xE0 ≤ c) (h' : c < 0xF0) :
    sequenceLen c = 3 := by
  rw [sequenceLen, Nat.shiftRight_eq_div_pow, Nat.shiftRight_eq_div_pow, if_neg (by omega),
    if_neg (by omega), if_pos (by omega)]

theorem sequenceLen_four (h : 0xF0 ≤ c) (h' : c < 0xF8) :
    sequenceLen c = 4 := by
  rw [sequenceLen, Nat.shiftRight_eq_div_pow, Nat.shiftRight_eq_div_pow,
    Nat.shiftRight_eq_div_pow, if_neg (by omega), if_neg (by omega), if_neg (by omega),
    if_pos (by omega)]

theorem sequenceLen_zero (h : (0x80 ≤ c ∧ c < 0xC0) ∨ (0xF8 ≤ c ∧ c < 0x100)) :
    sequenceLen c = 0 := by
  rw [sequenceLen, Nat.shiftRight_eq_div_pow, Nat.shiftRight_eq_div_pow,
    Nat.shiftRight_eq_div_pow, if_neg (by omega), if_neg (by omega), if_neg (by omega),
    if_neg (by omega)]

/-- The bits of a lead byte below its mark. -/
theorem and_lead (c k : ℕ) :
    c &&& (2 ^ k - 1) = c % 2 ^ k :=
  Nat.and_two_pow_sub_one_eq_mod c k

end Lead

variable {t : UInt8} {tail : Text}

theorem continuation_cons (h : Continues t) (cp : ℕ) (more : Text) :
    continuation cp (t :: more) = continuation (cp * 64 + (t.toNat - 0x80)) more := by
  obtain ⟨hlow, hhigh⟩ := h
  have hmark : t.toNat >>> 6 = 0x2 := by
    rw [Nat.shiftRight_eq_div_pow]
    omega
  have hbits : t.toNat &&& 0x3F = t.toNat - 0x80 := by
    have hmask : 0x3F = 2 ^ 6 - 1 := rfl
    rw [hmask, and_lead]
    omega
  have hor : (cp <<< 6) ||| (t.toNat - 0x80) = cp * 64 + (t.toNat - 0x80) := by
    rw [← Nat.shiftLeft_add_eq_or_of_lt (by omega), Nat.shiftLeft_eq]
  rw [continuation, if_neg (not_not.mpr hmark), hbits, hor]

theorem continuation_broken (h : ¬ Continues t) (cp : ℕ) (more : Text) :
    continuation cp (t :: more) = none := by
  have hmark : t.toNat >>> 6 ≠ 0x2 := by
    rw [Nat.shiftRight_eq_div_pow]
    intro htwo
    exact h ⟨by omega, by omega⟩
  rw [continuation, if_pos hmark]

section Sequences

variable {a b c d : UInt8} {rest : Text}

theorem widthDecode_one (h : a.toNat < 0x80) :
    widthDecode (a :: rest) = ⟨1, a.toNat, false⟩ := by
  rw [widthDecode]
  simp only [List.getD_cons_zero]
  rw [if_pos (sequenceLen_one h)]

/-- A lead byte whose sequence is there. -/
theorem widthDecode_lead {len : ℕ} {tail : Text} (hlen : sequenceLen a.toNat = len + 2)
    (htail : tail.length = len + 1) :
    widthDecode (a :: (tail ++ rest)) =
      match continuation (a.toNat &&& (0xFF >>> (len + 3))) tail with
      | none => replacement
      | some cp => if NotEncoded (len + 2) cp then replacement else ⟨len + 2, cp, false⟩ := by
  have htake : ((a :: (tail ++ rest)).drop 1).take (len + 2 - 1) = tail := by
    rw [List.drop_one, List.tail_cons, List.take_left' (by omega)]
  rw [widthDecode]
  simp only [List.getD_cons_zero, hlen]
  rw [if_neg (by omega), if_neg (by rw [List.length_cons, List.length_append]; omega), htake]

theorem widthDecode_two (ha : 0xC0 ≤ a.toNat) (ha' : a.toNat < 0xE0) (hb : Continues b) :
    widthDecode (a :: b :: rest) =
      if NotEncoded 2 ((a.toNat - 0xC0) * 64 + (b.toNat - 0x80)) then replacement
      else ⟨2, (a.toNat - 0xC0) * 64 + (b.toNat - 0x80), false⟩ := by
  have hbits : a.toNat &&& (0xFF >>> 3) = a.toNat - 0xC0 := by
    have hmask : 0xFF >>> 3 = 2 ^ 5 - 1 := rfl
    rw [hmask, and_lead]
    omega
  have hdecode := @widthDecode_lead a rest 0 [b] (sequenceLen_two ha ha') rfl
  rw [hbits, continuation_cons hb] at hdecode
  exact hdecode

theorem widthDecode_three (ha : 0xE0 ≤ a.toNat) (ha' : a.toNat < 0xF0) (hb : Continues b)
    (hc : Continues c) :
    widthDecode (a :: b :: c :: rest) =
      if NotEncoded 3 (((a.toNat - 0xE0) * 64 + (b.toNat - 0x80)) * 64 + (c.toNat - 0x80)) then
        replacement
      else ⟨3, ((a.toNat - 0xE0) * 64 + (b.toNat - 0x80)) * 64 + (c.toNat - 0x80), false⟩ := by
  have hbits : a.toNat &&& (0xFF >>> 4) = a.toNat - 0xE0 := by
    have hmask : 0xFF >>> 4 = 2 ^ 4 - 1 := rfl
    rw [hmask, and_lead]
    omega
  have hdecode := @widthDecode_lead a rest 1 [b, c] (sequenceLen_three ha ha') rfl
  rw [hbits, continuation_cons hb, continuation_cons hc] at hdecode
  exact hdecode

theorem widthDecode_four (ha : 0xF0 ≤ a.toNat) (ha' : a.toNat < 0xF8) (hb : Continues b)
    (hc : Continues c) (hd : Continues d) :
    widthDecode (a :: b :: c :: d :: rest) =
      if NotEncoded 4 ((((a.toNat - 0xF0) * 64 + (b.toNat - 0x80)) * 64 + (c.toNat - 0x80)) * 64 +
          (d.toNat - 0x80)) then
        replacement
      else ⟨4, (((a.toNat - 0xF0) * 64 + (b.toNat - 0x80)) * 64 + (c.toNat - 0x80)) * 64 +
        (d.toNat - 0x80), false⟩ := by
  have hbits : a.toNat &&& (0xFF >>> 5) = a.toNat - 0xF0 := by
    have hmask : 0xFF >>> 5 = 2 ^ 3 - 1 := rfl
    rw [hmask, and_lead]
    omega
  have hdecode := @widthDecode_lead a rest 2 [b, c, d] (sequenceLen_four ha ha') rfl
  rw [hbits, continuation_cons hb, continuation_cons hc, continuation_cons hd] at hdecode
  exact hdecode

end Sequences

/-- A character is decoded. -/
theorem widthDecode_char (c : Char) (rest : Text) :
    widthDecode (String.utf8EncodeChar c ++ rest) =
      ⟨(String.utf8EncodeChar c).length, c.val.toNat, false⟩ := by
  have hvalid : c.val.toNat < 0xD800 ∨ 0xDFFF < c.val.toNat ∧ c.val.toNat < 0x110000 := c.valid
  have hcontinues : ∀ n, Continues (UInt8.ofNat (n % 0x40 + 0x80)) := by
    intro n
    rw [Continues, UInt8.toNat_ofNat']
    omega
  have hbyte : ∀ n < 256, (UInt8.ofNat n).toNat = n := fun n hn => by
    rw [UInt8.toNat_ofNat', Nat.mod_eq_of_lt hn]
  rw [String.utf8EncodeChar]
  by_cases hone : c.val.toNat ≤ 0x7F
  · have hc := hbyte c.val.toNat (by omega)
    rw [if_pos hone, List.singleton_append, widthDecode_one (by omega), hc]
    rfl
  rw [if_neg hone]
  by_cases htwo : c.val.toNat ≤ 0x7FF
  · have ha := hbyte (c.val.toNat / 64 % 32 + 192) (by omega)
    have hb := hbyte (c.val.toNat % 64 + 128) (by omega)
    rw [if_pos htwo, List.cons_append, List.cons_append, List.nil_append,
      widthDecode_two (by omega) (by omega) (hcontinues _), ha, hb]
    have hvalue : (c.val.toNat / 64 % 32 + 192 - 0xC0) * 64 + (c.val.toNat % 64 + 128 - 0x80) =
        c.val.toNat := by
      omega
    rw [hvalue, if_neg (by rw [NotEncoded]; omega)]
    rfl
  rw [if_neg htwo]
  by_cases hthree : c.val.toNat ≤ 0xFFFF
  · have ha := hbyte (c.val.toNat / 4096 % 16 + 224) (by omega)
    have hb := hbyte (c.val.toNat / 64 % 64 + 128) (by omega)
    have hd := hbyte (c.val.toNat % 64 + 128) (by omega)
    rw [if_pos hthree, List.cons_append, List.cons_append, List.cons_append, List.nil_append,
      widthDecode_three (by omega) (by omega) (hcontinues _) (hcontinues _), ha, hb, hd]
    have hvalue : ((c.val.toNat / 4096 % 16 + 224 - 0xE0) * 64 +
        (c.val.toNat / 64 % 64 + 128 - 0x80)) * 64 + (c.val.toNat % 64 + 128 - 0x80) =
        c.val.toNat := by
      omega
    rw [hvalue, if_neg (by rw [NotEncoded]; omega)]
    rfl
  · have ha := hbyte (c.val.toNat / 262144 % 8 + 240) (by omega)
    have hb := hbyte (c.val.toNat / 4096 % 64 + 128) (by omega)
    have hd := hbyte (c.val.toNat / 64 % 64 + 128) (by omega)
    have he := hbyte (c.val.toNat % 64 + 128) (by omega)
    rw [if_neg hthree, List.cons_append, List.cons_append, List.cons_append, List.cons_append,
      List.nil_append,
      widthDecode_four (by omega) (by omega) (hcontinues _) (hcontinues _) (hcontinues _),
      ha, hb, hd, he]
    have hvalue : (((c.val.toNat / 262144 % 8 + 240 - 0xF0) * 64 +
        (c.val.toNat / 4096 % 64 + 128 - 0x80)) * 64 +
        (c.val.toNat / 64 % 64 + 128 - 0x80)) * 64 + (c.val.toNat % 64 + 128 - 0x80) =
        c.val.toNat := by
      omega
    rw [hvalue, if_neg (by rw [NotEncoded]; omega)]
    rfl

theorem continuation_continues {cp v : ℕ} (h : continuation cp tail = some v) :
    ∀ t ∈ tail, Continues t := by
  induction tail generalizing cp with
  | nil => exact fun t ht => absurd ht List.not_mem_nil
  | cons t tail ih =>
    by_cases ht : Continues t
    · rw [continuation_cons ht] at h
      exact List.forall_mem_cons.mpr ⟨ht, ih h⟩
    · rw [continuation_broken ht] at h
      cases h

/-- What is not a replacement is a lead byte with all the bytes it promises. -/
theorem widthDecode_cases (a : UInt8) (tail : Text) :
    widthDecode (a :: tail) = replacement ∨
      (sequenceLen a.toNat ≠ 0 ∧ sequenceLen a.toNat ≤ tail.length + 1 ∧
        ∀ t ∈ tail.take (sequenceLen a.toNat - 1), Continues t) := by
  rw [widthDecode]
  simp only [List.getD_cons_zero, List.drop_one, List.tail_cons, List.length_cons]
  by_cases hone : sequenceLen a.toNat = 1
  · refine .inr ⟨by omega, by omega, ?_⟩
    rw [hone]
    exact fun t ht => absurd ht List.not_mem_nil
  rw [if_neg hone]
  by_cases hcut : sequenceLen a.toNat = 0 ∨ sequenceLen a.toNat > tail.length + 1
  · exact .inl (if_pos hcut)
  rw [if_neg hcut]
  cases hread : continuation (a.toNat &&& (0xFF >>> (sequenceLen a.toNat + 1)))
      (tail.take (sequenceLen a.toNat - 1)) with
  | none => exact .inl rfl
  | some cp => exact .inr ⟨by omega, by omega, continuation_continues hread⟩

/-- The bytes of a unit that is no replacement are those of a character. -/
theorem starts_of_widthDecode {a : UInt8} (h : widthDecode (a :: tail) ≠ replacement) :
    ∃ seq rest, Character seq ∧ a :: tail = seq ++ rest := by
  have hbyte := a.toNat_lt
  obtain ⟨hlead, hlength, hcontinues⟩ := (widthDecode_cases a tail).resolve_left h
  by_cases hone : a.toNat < 0x80
  · exact ⟨[a], tail, .one hone, rfl⟩
  by_cases hmark : a.toNat < 0xC0 ∨ 0xF8 ≤ a.toNat
  · exact absurd (sequenceLen_zero (by omega)) hlead
  by_cases htwo : a.toNat < 0xE0
  · rw [sequenceLen_two (by omega) htwo] at hlength hcontinues
    obtain ⟨b, rest, rfl⟩ := List.exists_cons_of_length_pos (l := tail) (by omega)
    have hb : Continues b := hcontinues b (by simp)
    rw [widthDecode_two (by omega) htwo hb] at h
    have hencoded : ¬ NotEncoded 2 ((a.toNat - 0xC0) * 64 + (b.toNat - 0x80)) :=
      fun hnot => h (if_pos hnot)
    rw [NotEncoded] at hencoded
    obtain ⟨hlow, hhigh⟩ := hb
    exact ⟨[a, b], rest, .two (by omega) ⟨hlow, hhigh⟩, rfl⟩
  by_cases hthree : a.toNat < 0xF0
  · rw [sequenceLen_three (by omega) hthree] at hlength hcontinues
    obtain ⟨b, tail, rfl⟩ := List.exists_cons_of_length_pos (l := tail) (by omega)
    obtain ⟨c, rest, rfl⟩ := List.exists_cons_of_length_pos (l := tail)
      (by rw [List.length_cons] at hlength; omega)
    have hb : Continues b := hcontinues b (by simp)
    have hc : Continues c := hcontinues c (by simp)
    rw [widthDecode_three (by omega) hthree hb hc] at h
    have hencoded : ¬ NotEncoded 3
        (((a.toNat - 0xE0) * 64 + (b.toNat - 0x80)) * 64 + (c.toNat - 0x80)) :=
      fun hnot => h (if_pos hnot)
    rw [NotEncoded] at hencoded
    obtain ⟨hblow, hbhigh⟩ := hb
    obtain ⟨hclow, hchigh⟩ := hc
    exact ⟨[a, b, c], rest, .three (by omega) ⟨hblow, hbhigh⟩ ⟨hclow, hchigh⟩
      (fun ha => by omega) (fun ha => by omega), rfl⟩
  · rw [sequenceLen_four (by omega) (by omega)] at hlength hcontinues
    obtain ⟨b, tail, rfl⟩ := List.exists_cons_of_length_pos (l := tail) (by omega)
    obtain ⟨c, tail, rfl⟩ := List.exists_cons_of_length_pos (l := tail)
      (by rw [List.length_cons] at hlength; omega)
    obtain ⟨d, rest, rfl⟩ := List.exists_cons_of_length_pos (l := tail)
      (by rw [List.length_cons, List.length_cons] at hlength; omega)
    have hb : Continues b := hcontinues b (by simp)
    have hc : Continues c := hcontinues c (by simp)
    have hd : Continues d := hcontinues d (by simp)
    rw [widthDecode_four (by omega) (by omega) hb hc hd] at h
    have hencoded : ¬ NotEncoded 4
        ((((a.toNat - 0xF0) * 64 + (b.toNat - 0x80)) * 64 + (c.toNat - 0x80)) * 64 +
          (d.toNat - 0x80)) :=
      fun hnot => h (if_pos hnot)
    rw [NotEncoded] at hencoded
    obtain ⟨hblow, hbhigh⟩ := hb
    obtain ⟨hclow, hchigh⟩ := hc
    obtain ⟨hdlow, hdhigh⟩ := hd
    exact ⟨[a, b, c, d], rest, .four (by omega) ⟨hblow, hbhigh⟩ ⟨hclow, hchigh⟩ ⟨hdlow, hdhigh⟩
      (fun ha => by omega) (fun ha => by omega), rfl⟩

/-- A byte at which no character starts is a unit of its own. -/
theorem widthDecode_bad {a : UInt8} (h : ∀ c, ¬ String.utf8EncodeChar c <+: a :: tail) :
    widthDecode (a :: tail) = replacement := by
  by_contra hne
  obtain ⟨seq, rest, hseq, heq⟩ := starts_of_widthDecode hne
  obtain ⟨c, rfl⟩ := hseq.exists_char
  exact h c ⟨rest, heq.symm⟩

end Width
end Beans
