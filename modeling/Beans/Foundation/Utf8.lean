import Mathlib

/-!
# UTF-8 over lists of bytes

The characters that bytes encode, if they are well-formed, and which bytes start
with the encoding of a character.
-/

namespace Beans
namespace Utf8

/-- The characters that well-formed bytes encode. -/
def decode? (bytes : List UInt8) : Option (List Char) :=
  bytes.toByteArray.utf8Decode?.map Array.toList

def encode (chars : List Char) : List UInt8 :=
  chars.flatMap String.utf8EncodeChar

@[simp] theorem decode?_nil : decode? [] = some [] := by
  rw [decode?, List.toByteArray_nil, ByteArray.utf8Decode?_empty]
  rfl

theorem decode?_append (c : Char) (bytes : List UInt8) :
    decode? (String.utf8EncodeChar c ++ bytes) = (decode? bytes).map (c :: ·) := by
  have hsplit : (String.utf8EncodeChar c ++ bytes).toByteArray =
      [c].utf8Encode ++ bytes.toByteArray := by
    rw [List.toByteArray_append, List.utf8Encode_singleton]
  rw [decode?, hsplit, ByteArray.utf8Decode?_utf8Encode_singleton_append, decode?,
    Option.map_map, Option.map_map]
  congr 1
  funext chars
  simp

variable {bytes rest seq : List UInt8}

/-- Bytes that start with no character are not well-formed. -/
theorem decode?_eq_none (hne : bytes ≠ []) (h : ∀ c, ¬ String.utf8EncodeChar c <+: bytes) :
    decode? bytes = none := by
  rw [decode?, Option.map_eq_none_iff, ← Option.not_isSome_iff_eq_none,
    ByteArray.isSome_utf8Decode?_iff]
  rintro ⟨chars, hchars⟩
  rw [List.utf8Encode, List.toByteArray_inj] at hchars
  cases chars with
  | nil => exact hne hchars
  | cons c rest =>
    rw [List.flatMap_cons] at hchars
    exact h c ⟨_, hchars.symm⟩

theorem decode?_encode (chars : List Char) : decode? (encode chars) = some chars := by
  induction chars with
  | nil => exact decode?_nil
  | cons c rest ih =>
    rw [encode, List.flatMap_cons, decode?_append]
    rw [encode] at ih
    rw [ih]
    rfl

theorem encode_of_decode? {chars : List Char}
    (h : decode? bytes = some chars) :
    encode chars = bytes := by
  have hsome : (bytes.toByteArray.utf8Decode?).isSome := by
    rw [decode?] at h
    cases hdecoded : bytes.toByteArray.utf8Decode? with
    | none => simp [hdecoded] at h
    | some decoded => rfl
  obtain ⟨chars', hchars'⟩ := ByteArray.isSome_utf8Decode?_iff.mp hsome
  rw [List.utf8Encode, List.toByteArray_inj] at hchars'
  have hback := decode?_encode chars'
  rw [encode, ← hchars', h, Option.some.injEq] at hback
  rw [hback, encode, hchars']

theorem encode_of_le {c : Char} (h : c.val.toNat ≤ 0x7F) :
    String.utf8EncodeChar c = [UInt8.ofNat c.val.toNat] := by
  unfold String.utf8EncodeChar
  rw [if_pos h]

def Continues (b : UInt8) : Prop :=
  0x80 ≤ b.toNat ∧ b.toNat ≤ 0xBF

/-- The byte sequences of single characters. -/
inductive Character : List UInt8 → Prop
  | one {a : UInt8}
      (ha : a.toNat < 0x80) :
      Character [a]
  | two {a b : UInt8}
      (ha : 0xC2 ≤ a.toNat ∧ a.toNat ≤ 0xDF)
      (hb : Continues b) :
      Character [a, b]
  /-- Neither overlong nor a surrogate. -/
  | three {a b c : UInt8}
      (ha : 0xE0 ≤ a.toNat ∧ a.toNat ≤ 0xEF)
      (hb : Continues b)
      (hc : Continues c)
      (hlow : a.toNat = 0xE0 → 0xA0 ≤ b.toNat)
      (hsurrogate : a.toNat = 0xED → b.toNat ≤ 0x9F) :
      Character [a, b, c]
  /-- Neither overlong nor beyond the last character. -/
  | four {a b c d : UInt8}
      (ha : 0xF0 ≤ a.toNat ∧ a.toNat ≤ 0xF4)
      (hb : Continues b)
      (hc : Continues c)
      (hd : Continues d)
      (hlow : a.toNat = 0xF0 → 0x90 ≤ b.toNat)
      (hhigh : a.toNat = 0xF4 → b.toNat ≤ 0x8F) :
      Character [a, b, c, d]

theorem exists_char {n : ℕ} (h : n.isValidChar) : ∃ c : Char, c.val.toNat = n := by
  have hval := Char.toNat_ofNat n
  rw [if_pos h] at hval
  exact ⟨Char.ofNat n, hval⟩

theorem Character.exists_char {bytes : List UInt8} (h : Character bytes) :
    ∃ c : Char, String.utf8EncodeChar c = bytes := by
  cases h with
  | @one a ha =>
    obtain ⟨c, hc⟩ := Utf8.exists_char (n := a.toNat) (Or.inl (by omega))
    refine ⟨c, ?_⟩
    rw [encode_of_le (by omega), hc, UInt8.ofNat_toNat]
  | @two a b ha hb =>
    obtain ⟨hb, hb'⟩ := hb
    obtain ⟨c, hc⟩ := Utf8.exists_char (n := (a.toNat - 0xC0) * 64 + (b.toNat - 0x80))
      (Or.inl (by omega))
    refine ⟨c, ?_⟩
    unfold String.utf8EncodeChar
    rw [if_neg (by omega), if_pos (by omega), hc]
    refine List.cons_eq_cons.mpr ⟨?_, List.cons_eq_cons.mpr ⟨?_, rfl⟩⟩
    all_goals rw [← UInt8.toNat_inj, UInt8.toNat_ofNat']; omega
  | @three a b d ha hb hd hlow hsurrogate =>
    obtain ⟨hb, hb'⟩ := hb
    obtain ⟨hd, hd'⟩ := hd
    obtain ⟨c, hc⟩ := Utf8.exists_char
      (n := (a.toNat - 0xE0) * 4096 + (b.toNat - 0x80) * 64 + (d.toNat - 0x80)) (by
        by_cases hbelow : a.toNat < 0xED
        · exact Or.inl (by omega)
        · by_cases hed : a.toNat = 0xED
          · exact Or.inl (by have := hsurrogate hed; omega)
          · exact Or.inr ⟨by omega, by omega⟩)
    refine ⟨c, ?_⟩
    unfold String.utf8EncodeChar
    rw [if_neg (by omega), if_neg (by omega), if_pos (by omega), hc]
    refine List.cons_eq_cons.mpr ⟨?_, List.cons_eq_cons.mpr ⟨?_,
      List.cons_eq_cons.mpr ⟨?_, rfl⟩⟩⟩
    all_goals rw [← UInt8.toNat_inj, UInt8.toNat_ofNat']; omega
  | @four a b d e ha hb hd he hlow hhigh =>
    obtain ⟨hb, hb'⟩ := hb
    obtain ⟨hd, hd'⟩ := hd
    obtain ⟨he, he'⟩ := he
    obtain ⟨c, hc⟩ := Utf8.exists_char
      (n := (a.toNat - 0xF0) * 262144 + (b.toNat - 0x80) * 4096 + (d.toNat - 0x80) * 64 +
        (e.toNat - 0x80)) (Or.inr ⟨by omega, by omega⟩)
    refine ⟨c, ?_⟩
    unfold String.utf8EncodeChar
    rw [if_neg (by omega), if_neg (by omega), if_neg (by omega), hc]
    refine List.cons_eq_cons.mpr ⟨?_, List.cons_eq_cons.mpr ⟨?_,
      List.cons_eq_cons.mpr ⟨?_, List.cons_eq_cons.mpr ⟨?_, rfl⟩⟩⟩⟩
    all_goals rw [← UInt8.toNat_inj, UInt8.toNat_ofNat']; omega

theorem character_encode (c : Char) : Character (String.utf8EncodeChar c) := by
  have hvalid : c.val.toNat < 0xD800 ∨ 0xDFFF < c.val.toNat ∧ c.val.toNat < 0x110000 := c.valid
  have hsmall : ∀ n < 256, (UInt8.ofNat n).toNat = n := fun n hn => by
    rw [UInt8.toNat_ofNat', Nat.mod_eq_of_lt hn]
  have hcontinues : ∀ n, Continues (UInt8.ofNat (n % 0x40 + 0x80)) := fun n => by
    unfold Continues
    rw [hsmall _ (by omega)]
    omega
  unfold String.utf8EncodeChar
  simp only
  split_ifs
  · exact .one (by rw [hsmall _ (by omega)]; omega)
  · refine .two ?_ (hcontinues _)
    rw [hsmall _ (by omega)]
    omega
  · refine .three ?_ (hcontinues _) (hcontinues _) ?_ ?_
    all_goals rw [hsmall _ (by omega)]; try rw [hsmall _ (by omega)]
    all_goals omega
  · refine .four ?_ (hcontinues _) (hcontinues _) (hcontinues _) ?_ ?_
    all_goals rw [hsmall _ (by omega)]; try rw [hsmall _ (by omega)]
    all_goals omega

/-- Beyond ASCII every byte has its highest bit set. -/
theorem le_of_mem_encode {c : Char} (h : 0x7F < c.val.toNat) {b : UInt8}
    (hb : b ∈ String.utf8EncodeChar c) : 0x80 ≤ b.toNat := by
  have hlength : 2 ≤ (String.utf8EncodeChar c).length := by
    unfold String.utf8EncodeChar
    simp only
    rw [if_neg (not_le.mpr h)]
    split_ifs
    all_goals simp
  have hchar := character_encode c
  generalize String.utf8EncodeChar c = seq at hb hlength hchar
  cases hchar with
  | one ha =>
    rw [List.length_singleton] at hlength
    omega
  | two ha hb' =>
    simp only [List.mem_cons, List.not_mem_nil, or_false] at hb
    rcases hb with rfl | rfl
    · omega
    · exact hb'.1
  | three ha hb' hc =>
    simp only [List.mem_cons, List.not_mem_nil, or_false] at hb
    rcases hb with rfl | rfl | rfl
    · omega
    · exact hb'.1
    · exact hc.1
  | four ha hb' hc hd =>
    simp only [List.mem_cons, List.not_mem_nil, or_false] at hb
    rcases hb with rfl | rfl | rfl | rfl
    · omega
    · exact hb'.1
    · exact hc.1
    · exact hd.1

/-- A concatenation of encodings of characters. -/
def WellFormed (bytes : List UInt8) : Prop :=
  ∃ chars, encode chars = bytes

theorem wellFormed_nil : WellFormed [] :=
  ⟨[], rfl⟩

theorem wellFormed_encode (chars : List Char) : WellFormed (encode chars) :=
  ⟨chars, rfl⟩

theorem encode_append (chars chars' : List Char) :
    encode (chars ++ chars') = encode chars ++ encode chars' :=
  List.flatMap_append

/-- Behind the first byte of a character every byte continues it. -/
theorem Character.continues {a : UInt8}
    (h : Character seq)
    (heq : seq = a :: rest) :
    ∀ b ∈ rest, Continues b := by
  cases h with
  | one ha =>
    injection heq with _ hrest
    rw [← hrest]
    exact fun b hb => absurd hb List.not_mem_nil
  | two ha hb =>
    injection heq with _ hrest
    rw [← hrest]
    simpa using hb
  | three ha hb hc =>
    injection heq with _ hrest
    rw [← hrest]
    simpa using ⟨hb, hc⟩
  | four ha hb hc hd =>
    injection heq with _ hrest
    rw [← hrest]
    simpa using ⟨hb, hc, hd⟩

/-- The first byte of a character continues none. -/
theorem Character.exists_lead (h : Character seq) :
    ∃ a rest, seq = a :: rest ∧ ¬ Continues a := by
  cases h with
  | one ha => exact ⟨_, _, rfl, fun h => by have := h.1; omega⟩
  | two ha => exact ⟨_, _, rfl, fun h => by have := h.2; omega⟩
  | three ha => exact ⟨_, _, rfl, fun h => by have := h.2; omega⟩
  | four ha => exact ⟨_, _, rfl, fun h => by have := h.2; omega⟩

/-- The first byte tells how long a character is. -/
theorem Character.eq_of_append {seq' rest' : List UInt8}
    (h : Character seq)
    (h' : Character seq')
    (heq : seq ++ rest = seq' ++ rest') :
    seq = seq' := by
  cases h <;> cases h' <;> simp at heq ⊢ <;> grind

/-- Well-formed bytes start with a character. -/
theorem WellFormed.starts (h : WellFormed bytes) (hne : bytes ≠ []) :
    ∃ seq rest, Character seq ∧ bytes = seq ++ rest ∧ WellFormed rest := by
  obtain ⟨chars, rfl⟩ := h
  cases chars with
  | nil => exact absurd rfl hne
  | cons c chars => exact ⟨_, _, character_encode c, rfl, chars, rfl⟩

theorem wellFormed_append (h : Character seq) :
    WellFormed (seq ++ rest) ↔ WellFormed rest := by
  constructor
  · intro hform
    obtain ⟨seq', rest', hseq', heq, hrest'⟩ := hform.starts (by cases h <;> simp)
    have hsame := h.eq_of_append hseq' heq
    rw [hsame] at heq
    rwa [List.append_cancel_left heq]
  · rintro ⟨chars, rfl⟩
    obtain ⟨c, rfl⟩ := h.exists_char
    exact ⟨c :: chars, rfl⟩

end Utf8
end Beans
