import Beans.Foundation.Utf8
import Beans.Runtime.Bytes

/-!
# The text check of a message

A text message has to be well-formed UTF-8.  The check walks the bytes of the
message; a read outside of them is not an answer.

**Results.**
* `ws_valid_utf8`: the check answers for every message, and answers whether it is well-formed.
-/

namespace Beans
namespace WebSocket

open Utf8

/-- The length of the sequence a byte leads, and the range of its second byte. -/
def wsLead (b : UInt8) : Option (ℕ × UInt8 × UInt8) :=
  if 0xC2 ≤ b && b ≤ 0xDF then some (2, 0x80, 0xBF)
  else if b == 0xE0 then some (3, 0xA0, 0xBF)
  else if 0xE1 ≤ b && b ≤ 0xEC then some (3, 0x80, 0xBF)
  else if b == 0xED then some (3, 0x80, 0x9F)
  else if 0xEE ≤ b && b ≤ 0xEF then some (3, 0x80, 0xBF)
  else if b == 0xF0 then some (4, 0x90, 0xBF)
  else if 0xF1 ≤ b && b ≤ 0xF3 then some (4, 0x80, 0xBF)
  else if b == 0xF4 then some (4, 0x80, 0x8F)
  else none

/-- The bytes of a sequence from its third one on. -/
def wsTail (data : Bytes) (i : ℕ) : ℕ → ℕ → Option Bool
  | 0, _ => some true
  | count + 1, k =>
    (data[i + k]?).bind fun c =>
      if c < 0x80 || 0xBF < c then some false else wsTail data i count (k + 1)

variable {a b c hi lo : UInt8} {need : ℕ} {tail : Bytes}

theorem wsLead_length (h : wsLead b = some (need, lo, hi)) :
    need = 2 ∨ need = 3 ∨ need = 4 := by
  unfold wsLead at h
  split_ifs at h <;> simp at h <;> omega

/-- The rounds of the check from a position on. -/
def wsValidFrom (data : Bytes) (i : ℕ) : Option Bool :=
  if i < data.length then
    (data[i]?).bind fun b =>
      if b ≤ 0x7F then wsValidFrom data (i + 1)
      else
        match _hlead : wsLead b with
        | none => some false
        | some (need, lo, hi) =>
          if data.length < i + need then some false
          else
            (data[i + 1]?).bind fun c =>
              if c < lo || hi < c then some false
              else
                (wsTail data i (need - 2) 2).bind fun continues =>
                  if continues then wsValidFrom data (i + need) else some false
  else some true
termination_by data.length - i
decreasing_by
  · omega
  · have := wsLead_length _hlead
    omega

def wsValidUtf8 (data : Bytes) : Option Bool :=
  wsValidFrom data 0

/-- The check of bytes that came another way. -/
def beansWsValidUtf8 (data : Option Bytes) (req : Option UInt64) : Option Bool :=
  match req with
  | none => some false
  | some len =>
    if len = 0 then some true
    else
      match data with
      | none => some false
      | some data => wsValidUtf8 (data.take len.toNat)

theorem character_two :
    Character [a, b] ↔ (0xC2 ≤ a.toNat ∧ a.toNat ≤ 0xDF) ∧ Continues b := by
  constructor
  · rintro ⟨⟩
    exact ⟨‹_›, ‹_›⟩
  · rintro ⟨ha, hb⟩
    exact .two ha hb

theorem character_three :
    Character [a, b, c] ↔
      (0xE0 ≤ a.toNat ∧ a.toNat ≤ 0xEF) ∧ Continues b ∧ Continues c ∧
        (a.toNat = 0xE0 → 0xA0 ≤ b.toNat) ∧ (a.toNat = 0xED → b.toNat ≤ 0x9F) := by
  constructor
  · rintro ⟨⟩
    exact ⟨‹_›, ‹_›, ‹_›, ‹_›, ‹_›⟩
  · rintro ⟨ha, hb, hc, hlow, hsurrogate⟩
    exact .three ha hb hc hlow hsurrogate

theorem character_four {d : UInt8} :
    Character [a, b, c, d] ↔
      (0xF0 ≤ a.toNat ∧ a.toNat ≤ 0xF4) ∧ Continues b ∧ Continues c ∧ Continues d ∧
        (a.toNat = 0xF0 → 0x90 ≤ b.toNat) ∧ (a.toNat = 0xF4 → b.toNat ≤ 0x8F) := by
  constructor
  · rintro ⟨⟩
    exact ⟨‹_›, ‹_›, ‹_›, ‹_›, ‹_›, ‹_›⟩
  · rintro ⟨ha, hb, hc, hd, hlow, hhigh⟩
    exact .four ha hb hc hd hlow hhigh

/-- What a leading byte asks for, in numbers. -/
theorem wsLead_eq_some :
    wsLead b = some (need, lo, hi) ↔
      (need = 2 ∧ (0xC2 ≤ b.toNat ∧ b.toNat ≤ 0xDF) ∧ lo.toNat = 0x80 ∧ hi.toNat = 0xBF) ∨
      (need = 3 ∧ (0xE0 ≤ b.toNat ∧ b.toNat ≤ 0xEF) ∧
        lo.toNat = (if b.toNat = 0xE0 then 0xA0 else 0x80) ∧
        hi.toNat = if b.toNat = 0xED then 0x9F else 0xBF) ∨
      (need = 4 ∧ (0xF0 ≤ b.toNat ∧ b.toNat ≤ 0xF4) ∧
        lo.toNat = (if b.toNat = 0xF0 then 0x90 else 0x80) ∧
        hi.toNat = if b.toNat = 0xF4 then 0x8F else 0xBF) := by
  unfold wsLead
  simp only [UInt8.le_iff_toNat_le, Bool.and_eq_true, decide_eq_true_iff, beq_iff_eq,
    ← UInt8.toNat_inj, UInt8.reduceToNat]
  split_ifs
  all_goals simp [← UInt8.toNat_inj]; omega

/-- The ranges of a leading byte say which sequences are characters. -/
theorem wsLead_character {more : Bytes}
    (h : wsLead b = some (need, lo, hi))
    (hlength : more.length + 2 = need) :
    Character (b :: c :: more) ↔ (lo ≤ c ∧ c ≤ hi) ∧ ∀ d ∈ more, Continues d := by
  rw [UInt8.le_iff_toNat_le, UInt8.le_iff_toNat_le]
  rcases wsLead_eq_some.mp h with ⟨hneed, hb, hlo, hhi⟩ | ⟨hneed, hb, hlo, hhi⟩ |
    ⟨hneed, hb, hlo, hhi⟩
  · obtain rfl := List.length_eq_zero_iff.mp (show more.length = 0 by omega)
    rw [character_two]
    simp [Continues, hlo, hhi, hb]
  · obtain ⟨d, rfl⟩ := List.length_eq_one_iff.mp (show more.length = 1 by omega)
    rw [character_three, hlo, hhi, List.forall_mem_singleton]
    unfold Continues
    split_ifs <;> omega
  · obtain ⟨d, e, rfl⟩ := List.length_eq_two.mp (show more.length = 2 by omega)
    rw [character_four, hlo, hhi, List.forall_mem_cons, List.forall_mem_singleton]
    unfold Continues
    split_ifs <;> omega

/-- Every character of several bytes is asked for by its first one. -/
theorem Character.lead (h : Character (b :: tail)) (hb : ¬ b ≤ 0x7F) :
    ∃ need lo hi, wsLead b = some (need, lo, hi) ∧ tail.length + 1 = need := by
  rw [UInt8.le_iff_toNat_le, show (0x7F : UInt8).toNat = 127 from rfl] at hb
  have hbyte : ∀ n, n < 256 → ∃ c : UInt8, c.toNat = n := fun n hn =>
    ⟨UInt8.ofNat n, by rw [UInt8.toNat_ofNat', Nat.mod_eq_of_lt hn]⟩
  cases h with
  | one ha => omega
  | two ha _ =>
    obtain ⟨lo, hlo⟩ := hbyte 0x80 (by omega)
    obtain ⟨hi, hhi⟩ := hbyte 0xBF (by omega)
    exact ⟨2, lo, hi, wsLead_eq_some.mpr (Or.inl ⟨rfl, ha, hlo, hhi⟩), rfl⟩
  | three ha _ _ _ _ =>
    obtain ⟨lo, hlo⟩ := hbyte (if b.toNat = 0xE0 then 0xA0 else 0x80) (by split_ifs <;> omega)
    obtain ⟨hi, hhi⟩ := hbyte (if b.toNat = 0xED then 0x9F else 0xBF) (by split_ifs <;> omega)
    exact ⟨3, lo, hi, wsLead_eq_some.mpr (Or.inr (Or.inl ⟨rfl, ha, hlo, hhi⟩)), rfl⟩
  | four ha _ _ _ _ _ =>
    obtain ⟨lo, hlo⟩ := hbyte (if b.toNat = 0xF0 then 0x90 else 0x80) (by split_ifs <;> omega)
    obtain ⟨hi, hhi⟩ := hbyte (if b.toNat = 0xF4 then 0x8F else 0xBF) (by split_ifs <;> omega)
    exact ⟨4, lo, hi, wsLead_eq_some.mpr (Or.inr (Or.inr ⟨rfl, ha, hlo, hhi⟩)), rfl⟩

/-- The rest of a sequence that is there is read to its end. -/
theorem wsTail_eq {data : Bytes} {i k count : ℕ} (h : i + k + count ≤ data.length) :
    ∃ answer, wsTail data i count k = some answer ∧
      (answer = true ↔ ∀ d ∈ (data.drop (i + k)).take count, Continues d) := by
  induction count generalizing k with
  | zero => exact ⟨true, rfl, by simp⟩
  | succ count ih =>
    have hlt : i + k < data.length := by omega
    rw [wsTail, List.getElem?_eq_getElem hlt, Option.bind_some,
      List.drop_eq_getElem_cons hlt, List.take_succ_cons, List.forall_mem_cons]
    obtain ⟨answer, hanswer, hiff⟩ := @ih (k + 1) (by omega)
    have hcontinues : ¬ (data[i + k] < 0x80 || 0xBF < data[i + k]) = true ↔
        Continues data[i + k] := by
      simp [Continues, UInt8.lt_iff_toNat_lt]
    rw [← hcontinues]
    split_ifs with hout
    · exact ⟨false, rfl, by simp [hout]⟩
    · rw [← add_assoc] at hiff
      exact ⟨answer, hanswer, by simpa [hout] using hiff⟩

theorem not_wellFormed_of_lead (hb : ¬ b ≤ 0x7F) (h : wsLead b = none) :
    ¬ WellFormed (b :: tail) := by
  intro hform
  obtain ⟨seq, rest, hseq, heq, -⟩ := hform.starts (by simp)
  cases seq with
  | nil => cases hseq
  | cons b' more =>
    obtain ⟨rfl, -⟩ := List.cons_eq_cons.mp heq
    obtain ⟨need, lo, hi, hlead, -⟩ := Character.lead hseq hb
    rw [h] at hlead
    exact absurd hlead (by simp)

/-- Bytes behind a leading byte are well-formed if they hold the rest of its sequence. -/
theorem wellFormed_of_lead {b c : UInt8} {more rest : Bytes} {need : ℕ} {lo hi : UInt8}
    (hb : ¬ b ≤ 0x7F)
    (h : wsLead b = some (need, lo, hi))
    (hlength : more.length + 2 = need) :
    WellFormed (b :: c :: (more ++ rest)) ↔
      (lo ≤ c ∧ c ≤ hi) ∧ (∀ d ∈ more, Continues d) ∧ WellFormed rest := by
  constructor
  · intro hform
    obtain ⟨seq, rest', hseq, heq, hrest⟩ := hform.starts (by simp)
    cases seq with
    | nil => cases hseq
    | cons b' tail =>
      obtain ⟨rfl, -⟩ := List.cons_eq_cons.mp heq
      have htail : (c :: more) ++ rest = tail ++ rest' := (List.cons_eq_cons.mp heq).2
      obtain ⟨need', lo', hi', hlead, hlength'⟩ := Character.lead hseq hb
      rw [h] at hlead
      simp only [Option.some.injEq, Prod.mk.injEq] at hlead
      have hsame : c :: more = tail :=
        (List.append_inj htail (by rw [List.length_cons]; omega)).1
      have hrest' : rest = rest' :=
        (List.append_inj htail (by rw [List.length_cons]; omega)).2
      subst hsame hrest'
      obtain ⟨hsecond, hmore⟩ := (wsLead_character h hlength).mp hseq
      exact ⟨hsecond, hmore, hrest⟩
  · rintro ⟨hsecond, hmore, hrest⟩
    exact (wellFormed_append ((wsLead_character h hlength).mpr ⟨hsecond, hmore⟩)).mpr hrest

/-- A sequence that is cut off is not well-formed. -/
theorem not_wellFormed_of_short {b : UInt8} {tail : Bytes} {need : ℕ} {lo hi : UInt8}
    (hb : ¬ b ≤ 0x7F)
    (h : wsLead b = some (need, lo, hi))
    (hshort : tail.length + 1 < need) :
    ¬ WellFormed (b :: tail) := by
  intro hform
  obtain ⟨seq, rest, hseq, heq, -⟩ := hform.starts (by simp)
  cases seq with
  | nil => cases hseq
  | cons b' more =>
    obtain ⟨rfl, -⟩ := List.cons_eq_cons.mp heq
    have htail : tail = more ++ rest := (List.cons_eq_cons.mp heq).2
    obtain ⟨need', lo', hi', hlead, hlength⟩ := Character.lead hseq hb
    rw [h] at hlead
    simp only [Option.some.injEq, Prod.mk.injEq] at hlead
    have := congrArg List.length htail
    rw [List.length_append] at this
    omega

/-- From a position on, the check answers whether the rest is well-formed. -/
theorem wsValidFrom_eq (data : Bytes) (i : ℕ) :
    ∃ answer, wsValidFrom data i = some answer ∧
      (answer = true ↔ WellFormed (data.drop i)) := by
  induction hleft : data.length - i using Nat.strong_induction_on generalizing i with
  | _ left ih =>
  rw [wsValidFrom]
  split_ifs with hi
  · rw [List.getElem?_eq_getElem hi, Option.bind_some, List.drop_eq_getElem_cons hi]
    generalize hb : data[i] = b
    split_ifs with hplain
    · obtain ⟨answer, hanswer, hiff⟩ := ih _ (by omega) (i + 1) rfl
      refine ⟨answer, hanswer, hiff.trans ?_⟩
      rw [UInt8.le_iff_toNat_le, show (0x7F : UInt8).toNat = 127 from rfl] at hplain
      exact (wellFormed_append (.one (by omega))).symm
    · split
      · rename_i hlead
        exact ⟨false, rfl, by simp [not_wellFormed_of_lead hplain hlead]⟩
      · rename_i need lo hi' hlead
        have hneed := wsLead_length hlead
        split_ifs with hshort
        · refine ⟨false, rfl, ?_⟩
          simp [@not_wellFormed_of_short b (data.drop (i + 1)) need lo hi' hplain hlead
            (by rw [List.length_drop]; omega)]
        · have hsecond : i + 1 < data.length := by omega
          rw [List.getElem?_eq_getElem hsecond, Option.bind_some,
            List.drop_eq_getElem_cons hsecond]
          generalize data[i + 1] = c
          have hsplit : data.drop (i + 1 + 1) =
              (data.drop (i + 2)).take (need - 2) ++ data.drop (i + need) := by
            rw [show data.drop (i + need) = (data.drop (i + 2)).drop (need - 2) by
              rw [List.drop_drop]; congr 1; omega, List.take_append_drop]
          have hform := @wellFormed_of_lead b c ((data.drop (i + 2)).take (need - 2))
            (data.drop (i + need)) need lo hi' hplain hlead
            (by rw [List.length_take, List.length_drop]; omega)
          rw [hsplit, hform]
          have hrange : ¬ (c < lo || hi' < c) = true ↔ lo ≤ c ∧ c ≤ hi' := by
            simp [UInt8.not_lt]
          obtain ⟨continues, hcontinues, htail⟩ :=
            @wsTail_eq data i 2 (need - 2) (by omega)
          rw [← hrange, ← htail]
          split_ifs with hout
          · exact ⟨false, rfl, by simp [hout]⟩
          · rw [hcontinues, Option.bind_some]
            cases continues with
            | false => exact ⟨false, rfl, by simp⟩
            | true =>
              obtain ⟨answer, hanswer, hiff⟩ := ih _ (by omega) (i + need) rfl
              exact ⟨answer, hanswer, by simpa [hout] using hiff⟩
  · refine ⟨true, rfl, ?_⟩
    rw [List.drop_eq_nil_of_le (by omega)]
    exact iff_of_true rfl wellFormed_nil

/-- The check answers for every message, and answers whether it is well-formed. -/
theorem ws_valid_utf8 (data : Bytes) :
    (∃ answer, wsValidUtf8 data = some answer) ∧
      (wsValidUtf8 data = some true ↔ ∃ chars, encode chars = data) ∧
      (∀ chars, encode chars = data → ∀ k,
        encode (chars.take k) ++ encode (chars.drop k) = data ∧
          wsValidUtf8 (encode (chars.take k)) = some true ∧
          wsValidUtf8 (encode (chars.drop k)) = some true) ∧
      ∀ len : UInt64, len.toNat ≤ data.length →
        beansWsValidUtf8 (some data) (some len) = wsValidUtf8 (data.take len.toNat) := by
  have hvalid : ∀ data, wsValidUtf8 data = some true ↔ WellFormed data := by
    intro data
    obtain ⟨answer, hanswer, hiff⟩ := wsValidFrom_eq data 0
    rw [wsValidUtf8, hanswer, Option.some.injEq, hiff, List.drop_zero]
  refine ⟨?_, hvalid data, fun chars hchars k => ?_, fun len _ => ?_⟩
  · obtain ⟨answer, hanswer, -⟩ := wsValidFrom_eq data 0
    exact ⟨answer, hanswer⟩
  · rw [← encode_append, List.take_append_drop]
    exact ⟨hchars, (hvalid _).mpr (wellFormed_encode _), (hvalid _).mpr (wellFormed_encode _)⟩
  · unfold beansWsValidUtf8
    simp only
    split_ifs with hempty
    · rw [hempty, UInt64.toNat_zero, List.take_zero]
      exact ((hvalid []).mpr wellFormed_nil).symm
    · rfl

/-- One scalar of two bytes, and one of a single byte. -/
theorem ws_valid_utf8_accent :
    wsValidUtf8 (encode ['a', 'é']) = some true ∧ wsValidUtf8 (encode ['a']) = some true :=
  ⟨(ws_valid_utf8 (encode ['a', 'é'])).2.1.mpr ⟨_, rfl⟩,
    ((ws_valid_utf8 (encode ['a', 'é'])).2.2.1 _ rfl 1).2.1⟩

end WebSocket
end Beans
