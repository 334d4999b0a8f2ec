import Beans.Foundation.Utf8
import Beans.Term.KeyStreams

/-!
# Malformed input

A lead byte promises the bytes that continue it.  The decoder takes their number
from the lead byte alone and does not look at them, so what it answers is right as
long as the promise is kept.

**Results.**
* `malformed_input`: each call keeps to the scalars of the buffer exactly where a lead byte is
  followed by what it promises.
* `swallowed_letter`: behind a lead byte a letter is swallowed.
-/

namespace Beans
namespace Term

open Utf8

/-- The bytes the decoder takes for a lead byte. -/
def sequenceLength (b : UInt8) : Nat :=
  if b.toNat < 224 then 2 else if b.toNat < 240 then 3 else 4

/-- The lead byte without its mark. -/
def leadBits (b : UInt8) : Int :=
  if b.toNat < 224 then b.toNat - 192
  else if b.toNat < 240 then b.toNat - 224
  else b.toNat - 240

/-- An over-long spelling of an ASCII character. -/
def OverlongAscii : List UInt8 → Prop
  | [a, _] => a.toNat ≤ 0xC1
  | [a, b, _] => a.toNat = 0xE0 ∧ b.toNat ≤ 0x81
  | [a, b, c, _] => a.toNat = 0xF0 ∧ b.toNat = 0x80 ∧ c.toNat ≤ 0x81
  | _ => False

namespace KeyDecoder

/-- A lead byte at the front is decoded without swallowing or making up a key: a character
is one that was sent, and where a sequence breaks off, the byte that breaks it stays. -/
def Aligned (d : KeyDecoder) : Prop :=
  ∀ b tail, d.buffer = b :: tail → 192 ≤ b.toNat →
    (∀ c d', d.next = (some (.char c), d') → 128 ≤ c →
      ∃ ch : Char, c = ch.toNat ∧ d.buffer = String.utf8EncodeChar ch ++ d'.buffer) ∧
    ∀ front c rest, tail = front ++ c :: rest → front.length + 1 < sequenceLength b →
      (∀ a ∈ front, Continues a) → ¬ Continues c →
        ∃ key d', d.next = (some key, d') ∧ (c :: rest) <:+ d'.buffer

/-- A lead byte at the front is followed by what it promises, as far as the bytes go. -/
def KeepsPromise (d : KeyDecoder) : Prop :=
  ∀ b tail, d.buffer = b :: tail → 192 ≤ b.toNat →
    (∀ c ∈ tail.take (sequenceLength b - 1), Continues c) ∧
      (sequenceLength b ≤ tail.length + 1 →
        Character (b :: tail.take (sequenceLength b - 1)) ∨
          OverlongAscii (b :: tail.take (sequenceLength b - 1)))

end KeyDecoder

theorem sequenceLength_bounds (b : UInt8) : 2 ≤ sequenceLength b ∧ sequenceLength b ≤ 4 := by
  unfold sequenceLength
  split_ifs <;> omega

/-- A lead byte is answered by its bits and whatever follows it. -/
theorem next_lead {d : KeyDecoder} {b : UInt8} {tail : List UInt8}
    (hbuffer : d.buffer = b :: tail)
    (hb : 192 ≤ b.toNat) :
    d.next =
      if tail.length + 1 < sequenceLength b then (none, d)
      else
        (some (.char (utf8Value (leadBits b) (tail.take (sequenceLength b - 1)))),
          ⟨tail.drop (sequenceLength b - 1)⟩) := by
  have htake : decodeKey d.buffer = takeUtf8 (b :: tail) (sequenceLength b) (leadBits b) := by
    rw [hbuffer, decodeKey_lead hb, sequenceLength, leadBits]
    split_ifs <;> rfl
  have hdrop : (b :: tail).drop (sequenceLength b) = tail.drop (sequenceLength b - 1) := by
    have := sequenceLength_bounds b
    obtain ⟨n, hn⟩ : ∃ n, sequenceLength b = n + 1 := ⟨sequenceLength b - 1, by omega⟩
    rw [hn, List.drop_succ_cons, Nat.add_sub_cancel]
  rw [KeyDecoder.next, htake, takeUtf8, List.length_cons]
  split_ifs
  · rfl
  · simp only [KeyDecoder.consume, hbuffer, hdrop, List.drop_one, List.tail_cons]

/-- Below 128 the bytes of a sequence spell an ASCII character too long. -/
theorem utf8Value_lt {b : UInt8} {rest : List UInt8}
    (hb : 192 ≤ b.toNat)
    (hlength : rest.length + 1 = sequenceLength b)
    (hrest : ∀ c ∈ rest, Continues c) :
    utf8Value (leadBits b) rest < 128 ↔ OverlongAscii (b :: rest) := by
  unfold sequenceLength at hlength
  unfold leadBits
  split_ifs at hlength ⊢ with htwo hthree
  · obtain ⟨c, rfl⟩ := List.length_eq_one_iff.mp (show rest.length = 1 by omega)
    simp only [List.forall_mem_singleton, Continues] at hrest
    simp only [utf8Value, List.foldl_cons, List.foldl_nil, OverlongAscii]
    omega
  · obtain ⟨c, d, rfl⟩ := List.length_eq_two.mp (show rest.length = 2 by omega)
    simp only [List.forall_mem_cons, Continues] at hrest
    simp only [utf8Value, List.foldl_cons, List.foldl_nil, OverlongAscii]
    omega
  · obtain ⟨c, d, e, rfl⟩ := List.length_eq_three.mp (show rest.length = 3 by omega)
    simp only [List.forall_mem_cons, Continues] at hrest
    simp only [utf8Value, List.foldl_cons, List.foldl_nil, OverlongAscii]
    omega

/-- The bytes of a character of several bytes spell its code point. -/
theorem utf8Value_character {b : UInt8} {rest : List UInt8}
    (hb : 192 ≤ b.toNat)
    (hlength : rest.length + 1 = sequenceLength b)
    {ch : Char}
    (hch : String.utf8EncodeChar ch = b :: rest) :
    utf8Value (leadBits b) rest = ch.toNat := by
  have hlarge : 32 ≤ ch.toNat ∧ ch.toNat ≠ 127 := by
    by_contra hsmall
    have hle : ch.val.toNat ≤ 0x7F := by
      change ch.toNat ≤ 0x7F
      omega
    rw [encode_of_le hle] at hch
    obtain ⟨hfirst, -⟩ := List.cons_eq_cons.mp hch
    rw [← hfirst, UInt8.toNat_ofNat'] at hb
    omega
  have hread := decodeKey_char ch hlarge []
  have hnext := @next_lead ⟨b :: rest⟩ b rest rfl hb
  rw [if_neg (by omega), List.take_of_length_le (by omega)] at hnext
  rw [List.append_nil, hch] at hread
  simp only [KeyDecoder.next, hread] at hnext
  simp only [Prod.mk.injEq, Option.some.injEq, Key.char.injEq] at hnext
  exact hnext.1.symm

/-- Where a list does not hold throughout, there is a first place it does not. -/
theorem exists_first_not {α : Type} {P : α → Prop} {l : List α} (h : ¬ ∀ a ∈ l, P a) :
    ∃ front c rest, l = front ++ c :: rest ∧ (∀ a ∈ front, P a) ∧ ¬ P c := by
  induction l with
  | nil => exact absurd (fun a ha => absurd ha List.not_mem_nil) h
  | cons a l ih =>
    by_cases ha : P a
    · rw [List.forall_mem_cons] at h
      obtain ⟨front, c, rest, hl, hfront, hc⟩ := ih fun hall => h ⟨ha, hall⟩
      exact ⟨a :: front, c, rest, by rw [hl, List.cons_append],
        List.forall_mem_cons.mpr ⟨ha, hfront⟩, hc⟩
    · exact ⟨[], a, l, rfl, by simp, ha⟩

/-- Where a sequence breaks off, the decoder never stops before the break. -/
theorem continues_of_aligned {d : KeyDecoder} {b : UInt8} {tail : List UInt8}
    (h : d.Aligned)
    (hbuffer : d.buffer = b :: tail)
    (hb : 192 ≤ b.toNat) :
    ∀ c ∈ tail.take (sequenceLength b - 1), Continues c := by
  by_contra hbreaks
  obtain ⟨front, c, rest, htake, hfront, hc⟩ := exists_first_not hbreaks
  have htail : tail = front ++ c :: (rest ++ tail.drop (sequenceLength b - 1)) := by
    conv_lhs => rw [← List.take_append_drop (sequenceLength b - 1) tail, htake]
    simp
  have hlength : front.length + 1 < sequenceLength b := by
    have hcount := congrArg List.length htake
    rw [List.length_take, List.length_append, List.length_cons] at hcount
    omega
  obtain ⟨key, d', hnext, hsuffix⟩ :=
    (h b tail hbuffer hb).2 front c _ htail hlength hfront hc
  rw [next_lead hbuffer hb] at hnext
  split_ifs at hnext
  · exact absurd hnext (by simp)
  · simp only [Prod.mk.injEq] at hnext
    have hle := hsuffix.length_le
    rw [← hnext.2, List.length_cons, List.length_append] at hle
    simp only at hle
    omega

/-- Decoding stays aligned exactly where lead bytes keep their promise. -/
theorem malformed_input (d : KeyDecoder) : d.Aligned ↔ d.KeepsPromise := by
  constructor
  · intro h b tail hbuffer hb
    have hcontinues := continues_of_aligned h hbuffer hb
    have hnext := next_lead hbuffer hb
    refine ⟨hcontinues, fun hlength => ?_⟩
    have hcount : (tail.take (sequenceLength b - 1)).length + 1 = sequenceLength b := by
      have := sequenceLength_bounds b
      rw [List.length_take]
      omega
    rw [if_neg (by omega)] at hnext
    by_cases hvalue : 128 ≤ utf8Value (leadBits b) (tail.take (sequenceLength b - 1))
    · left
      obtain ⟨ch, -, hbytes⟩ := (h b tail hbuffer hb).1 _ _ hnext hvalue
      have hsplit : b :: tail.take (sequenceLength b - 1) ++ tail.drop (sequenceLength b - 1) =
          String.utf8EncodeChar ch ++ tail.drop (sequenceLength b - 1) := by
        rw [List.cons_append, List.take_append_drop, ← hbuffer, hbytes]
      rw [List.append_cancel_right hsplit]
      exact character_encode ch
    · exact Or.inr ((utf8Value_lt hb hcount hcontinues).mp (by omega))
  · intro h b tail hbuffer hb
    obtain ⟨hcontinues, hwhole⟩ := h b tail hbuffer hb
    have hnext := next_lead hbuffer hb
    refine ⟨fun c d' hc hlarge => ?_, fun front c rest htail hlength hfront hc => ?_⟩
    · rw [hnext] at hc
      split_ifs at hc with hshort
      · exact absurd hc (by simp)
      · simp only [Prod.mk.injEq, Option.some.injEq, Key.char.injEq] at hc
        obtain ⟨rfl, rfl⟩ := hc
        have hcount : (tail.take (sequenceLength b - 1)).length + 1 = sequenceLength b := by
          have := sequenceLength_bounds b
          rw [List.length_take]
          omega
        rcases hwhole (by omega) with hcharacter | hoverlong
        · obtain ⟨ch, hch⟩ := hcharacter.exists_char
          refine ⟨ch, utf8Value_character hb hcount hch, ?_⟩
          rw [hbuffer, hch, List.cons_append, List.take_append_drop]
        · have := (utf8Value_lt hb hcount hcontinues).mpr hoverlong
          omega
    · refine absurd (hcontinues c ?_) hc
      obtain ⟨n, hn⟩ : ∃ n, sequenceLength b - 1 - front.length = n + 1 :=
        ⟨sequenceLength b - 1 - front.length - 1, by omega⟩
      rw [htail, List.take_append, hn, List.take_succ_cons]
      exact List.mem_append_right _ List.mem_cons_self

/-- A letter behind a lead byte is swallowed. -/
theorem swallowed_letter : ¬ ∀ d : KeyDecoder, d.Aligned := by
  intro hall
  obtain ⟨key, d', hnext, hsuffix⟩ := (hall ⟨[0xC3, 0x41]⟩ 0xC3 [0x41] rfl (by decide)).2
    [] 0x41 [] rfl (by decide) (by simp) (by unfold Continues; decide)
  have hswallowed : (KeyDecoder.mk [0xC3, 0x41]).next = (some (.char 129), ⟨[]⟩) := by decide
  rw [hswallowed, Prod.mk.injEq] at hnext
  rw [← hnext.2] at hsuffix
  exact absurd hsuffix.length_le (by decide)

end Term
end Beans
