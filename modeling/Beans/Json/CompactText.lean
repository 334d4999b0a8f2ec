import Beans.Foundation.Utf8
import Beans.Json.Value
import Beans.Runtime.Text

/-!
# The compact text of a value

What a compact JSON text is, apart from any writer: the members in their order,
strings escaped as little as the grammar allows, integers in decimal.  A value has
no text if one of its strings is not well-formed UTF-8.
-/

namespace Beans
namespace Json

/-- An upper-case hexadecimal digit. -/
def hexDigit (n : ℕ) : UInt8 :=
  if n < 10 then (0x30 + n).toUInt8 else (0x41 + (n - 10)).toUInt8

/-- A character inside a string. -/
def escapeChar (c : Char) : Text :=
  let code := c.val.toNat
  if code = 0x22 then [0x5C, 0x22]
  else if code = 0x5C then [0x5C, 0x5C]
  else if code = 0x08 then [0x5C, 0x62]
  else if code = 0x09 then [0x5C, 0x74]
  else if code = 0x0A then [0x5C, 0x6E]
  else if code = 0x0C then [0x5C, 0x66]
  else if code = 0x0D then [0x5C, 0x72]
  else if code < 0x20 then
    [0x5C, 0x75, 0x30, 0x30, hexDigit (code / 16), hexDigit (code % 16)]
  else String.utf8EncodeChar c

/-- A string of characters between its quotes. -/
def quoted (chars : List Char) : Text :=
  0x22 :: (chars.flatMap escapeChar ++ [0x22])

/-- The text of a string, if it is well-formed. -/
def stringText (text : Text) : Option Text :=
  (Utf8.decode? text).map quoted

/-- Parts with commas in between. -/
def commaJoined (parts : List Text) : Text :=
  List.intercalate [0x2C] parts

mutual

/-- The compact text of a value, given the text of its reals. -/
def compact (realText : Float → Option Text) : Value → Option Text
  | .null => some (ascii "null")
  | .bool flag => some (if flag then ascii "true" else ascii "false")
  | .sint number => some (Text.ofInt number.toInt)
  | .uint number => some (Text.ofNat number.toNat)
  | .real number => realText number
  | .str text => stringText text
  | .arr items =>
    (compactItems realText items).map fun parts => 0x5B :: (commaJoined parts ++ [0x5D])
  | .obj members =>
    (compactMembers realText members).map fun parts => 0x7B :: (commaJoined parts ++ [0x7D])

def compactItems (realText : Float → Option Text) : List Value → Option (List Text)
  | [] => some []
  | item :: rest =>
    (compact realText item).bind fun part =>
      (compactItems realText rest).map (part :: ·)

def compactMembers (realText : Float → Option Text) :
    List (Text × Value) → Option (List Text)
  | [] => some []
  | (name, value) :: rest =>
    (stringText name).bind fun key =>
      (compact realText value).bind fun part =>
        (compactMembers realText rest).map ((key ++ 0x3A :: part) :: ·)

end

theorem escapeChar_of_plain {c : Char}
    (h : 0x20 ≤ c.val.toNat)
    (hquote : c.val.toNat ≠ 0x22)
    (hslash : c.val.toNat ≠ 0x5C) :
    escapeChar c = String.utf8EncodeChar c := by
  unfold escapeChar
  simp only
  split_ifs <;> first | rfl | omega

end Json
end Beans
