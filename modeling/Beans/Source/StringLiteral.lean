import Beans.Foundation.Loop
import Beans.Runtime.Text

/-!
# String literals

What a string literal means is decided in one place.  The lexer, the checker and
both backends ask these functions where a raw literal opens and ends, how many
bytes an escape takes and where an interpolation slot closes.  Positions count
bytes; a position is looked at within a window that ends before `stop`.
-/

namespace Beans
namespace Source

/-- `source.byte_at(index)`. -/
def byteAt (source : Text) (index : Nat) : Nat := (source.getD index 0).toNat

/-- `source.slice(start, stop)`. -/
def slice (source : Text) (start stop : Nat) : Text :=
  (source.take stop).drop start

def isDigit (value : Nat) : Bool := 48 ≤ value && value ≤ 57

def isHex (value : Nat) : Bool :=
  isDigit value || (65 ≤ value && value ≤ 70) || (97 ≤ value && value ≤ 102)

def isAlpha (value : Nat) : Bool :=
  (65 ≤ value && value ≤ 90) || (97 ≤ value && value ≤ 122) || value == 95

def isIdentByte (value : Nat) : Bool := isAlpha value || isDigit value

def hexDigitValue (value : Nat) : Nat :=
  if 48 ≤ value ∧ value ≤ 57 then value - 48
  else if 65 ≤ value ∧ value ≤ 70 then value - 65 + 10
  else if 97 ≤ value ∧ value ≤ 102 then value - 97 + 10
  else 16

/-- The number of `#` from `start` on, up to `limit` of them. -/
def hashRun (source : Text) (start stop limit : Nat) : Nat :=
  (((slice source start stop).take limit).takeWhile (· == 35)).length

/-- The number of `#` a raw literal opens with at `index`. -/
def rawHashesAt (source : Text) (index stop : Nat) : Option Nat :=
  if index ≥ stop ∨ byteAt source index ≠ 114 then none
  else
    let hashes := hashRun source (index + 1) stop (stop - (index + 1))
    let quote := index + 1 + hashes
    if quote ≥ stop ∨ byteAt source quote ≠ 34 then none else some hashes

/-- A raw literal opens, and its `r` does not end a name. -/
def rawOpenAt (source : Text) (index stop : Nat) : Bool :=
  (rawHashesAt source index stop).isSome &&
    !(index > 0 && isIdentByte (byteAt source (index - 1)))

/-- The search for a raw literal's terminator, from `i` on. -/
def rawEndStep (source : Text) (stop hashes : Nat) (s : Nat × Bool) :
    Option (Nat × Bool) :=
  if s.1 ≥ stop ∨ s.2 then none
  else if byteAt source s.1 = 34 ∧
      hashRun source (s.1 + 1) stop hashes = hashes then
    some (s.1 + 1 + hashes, true)
  else some (s.1 + 1, false)

/-- One past the terminator of the raw literal that opens at `index`, or
`stop`. -/
def rawLiteralEnd (source : Text) (index stop : Nat) : Nat :=
  match rawHashesAt source index stop with
  | none => index
  | some hashes =>
    let s := Loop.run (rawEndStep source stop hashes) stop
      (index + hashes + 2, false)
    if s.2 then s.1 else stop

def stringLiteralHashes (source : Text) : Option Nat :=
  rawHashesAt source 0 source.length

def stringLiteralIsRaw (source : Text) : Bool :=
  (stringLiteralHashes source).isSome

/-- The first byte of the body. -/
def stringLiteralBodyStart (source : Text) : Nat :=
  match stringLiteralHashes source with
  | some hashes => hashes + 2
  | none => if source.head? = some 34 then 1 else 0

/-- One past the last byte of the body. -/
def stringLiteralBodyEnd (source : Text) : Nat :=
  match stringLiteralHashes source with
  | some hashes =>
    max (source.length - hashes - 1) (stringLiteralBodyStart source)
  | none =>
    if source.length ≥ 2 ∧ source.head? = some 34 ∧
        source.getLast? = some 34 then source.length - 1
    else max source.length (stringLiteralBodyStart source)

/-- The value of the hex digit at `index`; 16 where there is none. -/
def hexDigitAt (source : Text) (index stop : Nat) : Nat :=
  if index ≥ stop then 16 else hexDigitValue (byteAt source index)

/-- The number of digits in a `\u` escape, if its braces and digits are there. -/
def stringEscapeUnicodeDigits (source : Text) (index stop : Nat) : Option Nat :=
  if index + 2 ≥ stop ∨ byteAt source (index + 2) ≠ 123 then none
  else
    -- One digit more than allowed is looked for.
    let digits := (((slice source (index + 3) stop).take 7).takeWhile fun c =>
      decide (hexDigitValue c.toNat < 16)).length
    if digits = 0 ∨ digits > 6 then none
    else if index + 3 + digits ≥ stop ∨
        byteAt source (index + 3 + digits) ≠ 125 then none
    else some digits

def stringEscapeUnicodeValue (source : Text) (index digits : Nat) : Nat :=
  (List.range digits).foldl (fun value offset =>
    value * 16 + hexDigitValue (byteAt source (index + 3 + offset))) 0

/-- A code point that has an encoding. -/
def stringEscapeUnicodeValid (value : Nat) : Bool :=
  value ≤ 1114111 && (value < 55296 || value > 57343)

/-- How many bytes the escape at `index` takes; at least one. -/
def stringEscapeLength (source : Text) (index stop : Nat) : Nat :=
  if index ≥ stop ∨ byteAt source index ≠ 92 then 1
  else if index + 1 ≥ stop then 1
  else
    let marker := byteAt source (index + 1)
    if marker = 120 then
      if hexDigitAt source (index + 2) stop < 16 ∧
          hexDigitAt source (index + 3) stop < 16 then 4
      else 2
    else if marker = 117 then
      match stringEscapeUnicodeDigits source index stop with
      | none => 2
      | some digits => digits + 4
    else 2

/-- `utf8_encode`; the shifts and masks are quotients and remainders. -/
def utf8Encode (codepoint : Nat) : Text :=
  if codepoint < 128 then [.ofNat codepoint]
  else if codepoint < 2048 then
    [.ofNat (192 + codepoint / 64), .ofNat (128 + codepoint % 64)]
  else if codepoint < 65536 then
    [.ofNat (224 + codepoint / 4096), .ofNat (128 + codepoint / 64 % 64),
      .ofNat (128 + codepoint % 64)]
  else
    [.ofNat (240 + codepoint / 262144), .ofNat (128 + codepoint / 4096 % 64),
      .ofNat (128 + codepoint / 64 % 64), .ofNat (128 + codepoint % 64)]

/-- The bytes the escape at `index` stands for. -/
def stringEscapeText (source : Text) (index stop : Nat) : Text :=
  if index + 1 ≥ stop then slice source index (index + 1)
  else
    let marker := byteAt source (index + 1)
    let itself := slice source (index + 1) (index + 2)
    if marker = 110 then [10]
    else if marker = 114 then [13]
    else if marker = 116 then [9]
    else if marker = 48 then [0]
    else if marker = 120 then
      if hexDigitAt source (index + 2) stop < 16 ∧
          hexDigitAt source (index + 3) stop < 16 then
        [.ofNat (hexDigitValue (byteAt source (index + 2)) * 16 +
          hexDigitValue (byteAt source (index + 3)))]
      else itself
    else if marker = 117 then
      match stringEscapeUnicodeDigits source index stop with
      | none => itself
      | some digits =>
        let value := stringEscapeUnicodeValue source index digits
        if stringEscapeUnicodeValid value then utf8Encode value else []
    else itself

/-- The escape spellings a literal may use. -/
def stringEscapeKnown (marker : Nat) : Bool :=
  [110, 114, 116, 48, 92, 34, 123, 125, 120, 117].contains marker

/-- The state of the search for a slot's closing brace. -/
structure SlotScan where
  cursor : Nat
  depth : Nat
  inString : Bool
  deriving DecidableEq, Repr

/-- One turn of `string_interpolation_end`. -/
def slotStep (raw : Text) (stop : Nat) (s : SlotScan) : Option SlotScan :=
  if s.cursor ≥ stop ∨ s.depth = 0 then none
  else
    let current := byteAt raw s.cursor
    if current = 92 then
      some { s with cursor := s.cursor + stringEscapeLength raw s.cursor stop }
    else if s.inString = false ∧ rawOpenAt raw s.cursor stop then
      some { s with cursor := rawLiteralEnd raw s.cursor stop }
    else if s.inString then
      some { s with
        cursor := s.cursor + 1
        inString := decide (current ≠ 34) }
    else if current = 34 then
      some { s with cursor := s.cursor + 1, inString := true }
    else if current = 123 then
      some { s with cursor := s.cursor + 1, depth := s.depth + 1 }
    else if current = 125 then
      some { s with cursor := s.cursor + 1, depth := s.depth - 1 }
    else some { s with cursor := s.cursor + 1 }

/-- One past the brace that closes the slot opened before `start`. -/
def stringInterpolationEnd (raw : Text) (start stop : Nat) : Option Nat :=
  let s := Loop.run (slotStep raw stop) stop ⟨start, 1, false⟩
  if s.depth ≠ 0 then none else some s.cursor

/-- One turn of `string_literal_decode`. -/
def decodeStep (source : Text) (stop : Nat) (s : Nat × Text) :
    Option (Nat × Text) :=
  if s.1 ≥ stop then none
  else if byteAt source s.1 ≠ 92 ∨ s.1 + 1 ≥ stop then
    some (s.1 + 1, s.2 ++ slice source s.1 (s.1 + 1))
  else
    some (s.1 + stringEscapeLength source s.1 stop,
      s.2 ++ stringEscapeText source s.1 stop)

/-- The bytes a literal stands for. -/
def stringLiteralDecode (source : Text) : Text :=
  let start := stringLiteralBodyStart source
  let stop := stringLiteralBodyEnd source
  if stringLiteralIsRaw source then slice source start stop
  else (Loop.run (decodeStep source stop) stop (start, [])).2

/-- One byte in its ordinary spelling. -/
def quoteByte (byte : UInt8) : Text :=
  if byte = 34 ∨ byte = 92 ∨ byte = 123 ∨ byte = 125 then [92, byte]
  else if byte = 10 then [92, 110]
  else if byte = 13 then [92, 114]
  else if byte = 9 then [92, 116]
  else if byte = 0 then [92, 48]
  else [byte]

/-- The ordinary spelling of some bytes. -/
def stringLiteralQuote (text : Text) : Text :=
  34 :: text.flatMap quoteByte ++ [34]

/-- A literal in the one spelling that everything after the checker reads. -/
def stringLiteralCook (source : Text) : Text :=
  if stringLiteralIsRaw source then
    stringLiteralQuote (stringLiteralDecode source)
  else source

end Source
end Beans
