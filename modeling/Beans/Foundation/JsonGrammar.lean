import Beans.Foundation.Utf8

/-!
# The grammar of JSON texts

Values as a text spells them, strings by their parts and numbers by their
digits, and the byte sequences that spell them: any whitespace between the
tokens, any of the escapes in strings.  A restriction on the parts of strings
gives a smaller language.
-/

namespace Beans
namespace JsonGrammar

def IsSpace (b : UInt8) : Prop := b = 32 ∨ b = 9 ∨ b = 10 ∨ b = 13

instance (b : UInt8) : Decidable (IsSpace b) :=
  inferInstanceAs (Decidable (b = 32 ∨ b = 9 ∨ b = 10 ∨ b = 13))

def Spaces (bytes : List UInt8) : Prop := ∀ b ∈ bytes, IsSpace b

def IsDigit (b : UInt8) : Prop := 48 ≤ b.toNat ∧ b.toNat ≤ 57

def Digits (bytes : List UInt8) : Prop := bytes ≠ [] ∧ ∀ b ∈ bytes, IsDigit b

/-- `[ minus ] int [ frac ] [ exp ]` -/
def IsNumber (bytes : List UInt8) : Prop :=
  ∃ minus whole fraction exponent,
    bytes = minus ++ (whole ++ (fraction ++ exponent)) ∧
    (minus = [] ∨ minus = [45]) ∧
    (whole = [48] ∨ Digits whole ∧ whole.head? ≠ some 48) ∧
    (fraction = [] ∨ ∃ digits, fraction = 46 :: digits ∧ Digits digits) ∧
    (exponent = [] ∨ ∃ e sign digits, exponent = e :: (sign ++ digits) ∧
      (e = 101 ∨ e = 69) ∧ (sign = [] ∨ sign = [43] ∨ sign = [45]) ∧ Digits digits)

/-- The escapes of one letter. -/
inductive Escape where
  | quote
  | backslash
  | slash
  | backspace
  | formFeed
  | newline
  | carriageReturn
  | tab
deriving DecidableEq

namespace Escape

/-- The byte after the backslash. -/
def letter : Escape → UInt8
  | quote => 34
  | backslash => 92
  | slash => 47
  | backspace => 98
  | formFeed => 102
  | newline => 110
  | carriageReturn => 114
  | tab => 116

/-- What the escape stands for. -/
def char : Escape → Char
  | quote => '"'
  | backslash => '\\'
  | slash => '/'
  | backspace => Char.ofNat 8
  | formFeed => Char.ofNat 12
  | newline => '\n'
  | carriageReturn => '\r'
  | tab => '\t'

end Escape

def hexValue (b : UInt8) : Option ℕ :=
  if 48 ≤ b.toNat ∧ b.toNat ≤ 57 then some (b.toNat - 48)
  else if 65 ≤ b.toNat ∧ b.toNat ≤ 70 then some (b.toNat - 55)
  else if 97 ≤ b.toNat ∧ b.toNat ≤ 102 then some (b.toNat - 87)
  else none

/-- The four digits of an escaped code unit. -/
structure HexDigits where
  bytes : List UInt8
  length_eq : bytes.length = 4
  hex : ∀ b ∈ bytes, (hexValue b).isSome

/-- The code unit that four digits spell. -/
def HexDigits.unit (digits : HexDigits) : ℕ :=
  digits.bytes.foldl (fun unit b => unit * 16 + (hexValue b).getD 0) 0

/-- A character that stands for itself in a string. -/
def Unescaped (c : Char) : Prop := 32 ≤ c.val.toNat ∧ c ≠ '"' ∧ c ≠ '\\'

/-- One character of a string, or one half of a pair, as it is spelled. -/
inductive Part where
  | plain (c : Char) (h : Unescaped c)
  | escape (e : Escape)
  | unicode (digits : HexDigits)

/-- How a part of a string is spelled. -/
def Part.bytes : Part → List UInt8
  | plain c _ => String.utf8EncodeChar c
  | escape e => [92, e.letter]
  | unicode digits => 92 :: 117 :: digits.bytes

def stringBytes (parts : List Part) : List UInt8 :=
  34 :: (parts.flatMap Part.bytes ++ [34])

/-- The characters a string stands for; none for half a surrogate pair. -/
def characters : List Part → Option (List Char)
  | [] => some []
  | .plain c _ :: rest => (characters rest).map (c :: ·)
  | .escape e :: rest => (characters rest).map (e.char :: ·)
  | .unicode u :: rest =>
    if ¬ (0xD800 ≤ u.unit ∧ u.unit ≤ 0xDFFF) then
      (characters rest).map (Char.ofNat u.unit :: ·)
    else
      match rest with
      | .unicode v :: rest =>
        if u.unit ≤ 0xDBFF ∧ 0xDC00 ≤ v.unit ∧ v.unit ≤ 0xDFFF then
          (characters rest).map
            (Char.ofNat (0x10000 + (u.unit - 0xD800) * 0x400 + (v.unit - 0xDC00)) :: ·)
        else none
      | _ => none

/-- A value as a text spells it. -/
inductive Tree where
  | null
  | bool (flag : Bool)
  | number (bytes : List UInt8)
  | string (parts : List Part)
  | array (items : List Tree)
  | object (members : List (List Part × Tree))

/-- What a stretch of text spells: a value, or what stands between brackets,
with the whitespace around it. -/
inductive Phrase where
  | value (tree : Tree)
  | item (tree : Tree)
  | items (trees : List Tree)
  | member (parts : List Part) (tree : Tree)
  | members (members : List (List Part × Tree))

/-- The texts whose strings are made of the allowed parts. -/
inductive Spells (allowed : Part → Prop) : Phrase → List UInt8 → Prop
  | null : Spells allowed (.value .null) [110, 117, 108, 108]
  | trueWord : Spells allowed (.value (.bool true)) [116, 114, 117, 101]
  | falseWord : Spells allowed (.value (.bool false)) [102, 97, 108, 115, 101]
  | number {bytes : List UInt8} :
      IsNumber bytes → Spells allowed (.value (.number bytes)) bytes
  | string {parts : List Part} :
      (∀ part ∈ parts, allowed part) →
      Spells allowed (.value (.string parts)) (stringBytes parts)
  | emptyArray {space : List UInt8} :
      Spaces space → Spells allowed (.value (.array [])) (91 :: (space ++ [93]))
  | array {trees : List Tree} {bytes : List UInt8} :
      Spells allowed (.items trees) bytes →
      Spells allowed (.value (.array trees)) (91 :: (bytes ++ [93]))
  | emptyObject {space : List UInt8} :
      Spaces space → Spells allowed (.value (.object [])) (123 :: (space ++ [125]))
  | object {members : List (List Part × Tree)} {bytes : List UInt8} :
      Spells allowed (.members members) bytes →
      Spells allowed (.value (.object members)) (123 :: (bytes ++ [125]))
  | item {tree : Tree} {left bytes right : List UInt8} :
      Spaces left → Spells allowed (.value tree) bytes → Spaces right →
      Spells allowed (.item tree) (left ++ (bytes ++ right))
  | lastItem {tree : Tree} {bytes : List UInt8} :
      Spells allowed (.item tree) bytes → Spells allowed (.items [tree]) bytes
  | moreItems {tree : Tree} {trees : List Tree} {bytes rest : List UInt8} :
      Spells allowed (.item tree) bytes → Spells allowed (.items trees) rest →
      Spells allowed (.items (tree :: trees)) (bytes ++ 44 :: rest)
  | member {parts : List Part} {tree : Tree} {left middle bytes : List UInt8} :
      Spaces left → (∀ part ∈ parts, allowed part) → Spaces middle →
      Spells allowed (.item tree) bytes →
      Spells allowed (.member parts tree)
        (left ++ (stringBytes parts ++ (middle ++ 58 :: bytes)))
  | lastMember {parts : List Part} {tree : Tree} {bytes : List UInt8} :
      Spells allowed (.member parts tree) bytes →
      Spells allowed (.members [(parts, tree)]) bytes
  | moreMembers {parts : List Part} {tree : Tree}
      {members : List (List Part × Tree)} {bytes rest : List UInt8} :
      Spells allowed (.member parts tree) bytes → Spells allowed (.members members) rest →
      Spells allowed (.members ((parts, tree) :: members)) (bytes ++ 44 :: rest)

/-- A whole text: a value with whitespace around it. -/
def IsText (allowed : Part → Prop) (tree : Tree) (bytes : List UInt8) : Prop :=
  Spells allowed (.item tree) bytes

/-- The bytes a value may begin with. -/
def Opens (b : UInt8) : Prop :=
  b = 123 ∨ b = 91 ∨ b = 34 ∨ b = 116 ∨ b = 102 ∨ b = 110 ∨ b = 45 ∨ IsDigit b

theorem IsNumber.head {bytes : List UInt8} (h : IsNumber bytes) :
    ∃ b rest, bytes = b :: rest ∧ (b = 45 ∨ IsDigit b) := by
  obtain ⟨minus, whole, fraction, exponent, rfl, hminus, hwhole, -, -⟩ := h
  rcases hminus with rfl | rfl
  · rcases hwhole with rfl | ⟨⟨hne, hdigits⟩, -⟩
    · exact ⟨48, _, rfl, Or.inr ⟨by decide, by decide⟩⟩
    · obtain ⟨b, rest, rfl⟩ := List.exists_cons_of_ne_nil hne
      exact ⟨b, _, rfl, Or.inr (hdigits b List.mem_cons_self)⟩
  · exact ⟨45, _, rfl, Or.inl rfl⟩

theorem Spells.head {allowed : Part → Prop} {tree : Tree} {bytes : List UInt8}
    (h : Spells allowed (.value tree) bytes) : ∃ b rest, bytes = b :: rest ∧ Opens b := by
  cases h with
  | null => exact ⟨_, _, rfl, by simp [Opens]⟩
  | trueWord => exact ⟨_, _, rfl, by simp [Opens]⟩
  | falseWord => exact ⟨_, _, rfl, by simp [Opens]⟩
  | number hnumber =>
    obtain ⟨b, rest, rfl, hb⟩ := hnumber.head
    refine ⟨b, rest, rfl, ?_⟩
    simp only [Opens]
    tauto
  | string => exact ⟨_, _, rfl, by simp [Opens]⟩
  | emptyArray => exact ⟨_, _, rfl, by simp [Opens]⟩
  | array => exact ⟨_, _, rfl, by simp [Opens]⟩
  | emptyObject => exact ⟨_, _, rfl, by simp [Opens]⟩
  | object => exact ⟨_, _, rfl, by simp [Opens]⟩

/-- The bytes of a number. -/
def InNumber (b : UInt8) : Prop :=
  IsDigit b ∨ b = 45 ∨ b = 43 ∨ b = 46 ∨ b = 101 ∨ b = 69

theorem IsNumber.all {bytes : List UInt8} (h : IsNumber bytes) : ∀ b ∈ bytes, InNumber b := by
  obtain ⟨minus, whole, fraction, exponent, rfl, hminus, hwhole, hfraction, hexponent⟩ := h
  intro b hb
  simp only [List.mem_append] at hb
  rcases hb with hb | hb | hb | hb
  · rcases hminus with rfl | rfl
    · cases hb
    · exact Or.inr (Or.inl (List.mem_singleton.mp hb))
  · rcases hwhole with rfl | ⟨⟨-, hdigits⟩, -⟩
    · obtain rfl := List.mem_singleton.mp hb
      exact Or.inl ⟨by decide, by decide⟩
    · exact Or.inl (hdigits b hb)
  · rcases hfraction with rfl | ⟨digits, rfl, -, hdigits⟩
    · cases hb
    · rcases List.mem_cons.mp hb with rfl | hb
      · simp [InNumber]
      · exact Or.inl (hdigits b hb)
  · rcases hexponent with rfl | ⟨e, sign, digits, rfl, he, hsign, -, hdigits⟩
    · cases hb
    · rcases List.mem_cons.mp hb with rfl | hb
      · simp only [InNumber]
        tauto
      · rcases List.mem_append.mp hb with hb | hb
        · rcases hsign with rfl | rfl | rfl
          · cases hb
          · obtain rfl := List.mem_singleton.mp hb
            simp [InNumber]
          · obtain rfl := List.mem_singleton.mp hb
            simp [InNumber]
        · exact Or.inl (hdigits b hb)

end JsonGrammar
end Beans
