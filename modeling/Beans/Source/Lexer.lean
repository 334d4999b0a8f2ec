import Beans.Source.StringLiteral

/-!
# The lexer

The lexer walks the source byte by byte and keeps the line and the column it
stands at.  Blanks and comments are stepped over; everything else becomes a
token, also where it is malformed.  A newline becomes a token when it ends a
statement.  Loops are runs of a step with the length of the source as fuel.
-/

namespace Beans
namespace Source

/-- A literal as the bytes of its UTF-8 encoding. -/
def utf8 (s : String) : Text := s.toUTF8.data.toList

/-- The kinds of tokens: the source's strings, where a keyword and a punctuation
are their own kind. -/
inductive Kind
  | ident
  | int
  | float
  | string
  | lexError
  | newline
  | eof
  | keyword (text : Text)
  | punctuation (text : Text)
  deriving DecidableEq, Repr

structure Token where
  kind : Kind
  text : Text
  line : Nat
  col : Nat
  deriving DecidableEq, Repr

/-- A diagnostic of severity error, in the file that is lexed. -/
structure Diagnostic where
  line : Nat
  col : Nat
  message : Text
  deriving DecidableEq, Repr

def keywords : List Text :=
  ["class", "struct", "union", "interface", "enum", "fn", "let", "var", "pub",
    "override", "if", "else", "for", "in", "match", "return", "break",
    "continue", "import", "as", "defer", "unsafe", "extern", "new", "extends",
    "implements", "static", "move", "take", "inout", "self", "true",
    "false"].map ascii

def keywordKind (text : Text) : Kind :=
  if text ∈ keywords then .keyword text else .ident

/-- The keywords and the punctuation that end a statement. -/
def endingKeywords : List Text :=
  ["return", "break", "continue", "self", "true", "false"].map ascii

def endingPunctuation : List Text :=
  [")", "]", "\x7d", "?", ">", ">>"].map ascii

/-- A newline after such a token ends the statement. -/
def endsStatement : Kind → Bool
  | .ident | .int | .float | .string | .lexError => true
  | .keyword text => decide (text ∈ endingKeywords)
  | .punctuation text => decide (text ∈ endingPunctuation)
  | .newline | .eof => false

/-- `Lexer`; the line of the last open string is 0 when there is none. -/
structure Lexer where
  source : Text
  pos : Nat
  line : Nat
  col : Nat
  lastKind : Option Kind
  haveToken : Bool
  errors : List Diagnostic
  sourceEndedInError : Bool
  openStringLine : Nat
  deriving DecidableEq, Repr

namespace Lexer

/-- `new Lexer(source)`. -/
def init (source : Text) : Lexer :=
  ⟨source, 0, 1, 1, none, false, [], false, 0⟩

def atEnd (lx : Lexer) : Bool := decide (lx.pos ≥ lx.source.length)

/-- The bytes that are left. -/
def remaining (lx : Lexer) : Nat := lx.source.length - lx.pos

def peek (lx : Lexer) : Nat := if lx.atEnd then 0 else byteAt lx.source lx.pos

def peekNext (lx : Lexer) : Nat :=
  if lx.pos + 1 ≥ lx.source.length then 0 else byteAt lx.source (lx.pos + 1)

/-- One byte further; a newline starts the next line at column 1. -/
def advance (lx : Lexer) : Lexer :=
  let pos := if lx.atEnd then lx.pos else lx.pos + 1
  if lx.peek = 10 then { lx with pos := pos, line := lx.line + 1, col := 1 }
  else { lx with pos := pos, col := lx.col + 1 }

/-- `for index in 0..n { self.advance() }`. -/
def advanceN : Nat → Lexer → Lexer
  | 0, lx => lx
  | n + 1, lx => advanceN n lx.advance

def byteStep (p : Nat → Bool) (lx : Lexer) : Option Lexer :=
  if p lx.peek then some lx.advance else none

/-- `for p(self.peek()) { self.advance() }`. -/
def advanceWhile (p : Nat → Bool) (lx : Lexer) : Lexer :=
  Loop.run (byteStep p) lx.source.length lx

/-- `self.add(inout out, kind, from, line, col)`. -/
def add (lx : Lexer) (out : List Token) (kind : Kind) (start line col : Nat) :
    Lexer × List Token :=
  ({ lx with lastKind := some kind, haveToken := true },
    out ++ [⟨kind, slice lx.source start lx.pos, line, col⟩])

def addNewline (lx : Lexer) (out : List Token) (line col : Nat) :
    Lexer × List Token :=
  ({ lx with lastKind := some .newline }, out ++ [⟨.newline, [], line, col⟩])

def errorAt (lx : Lexer) (line col : Nat) (message : Text) : Lexer :=
  { lx with errors := lx.errors ++ [⟨line, col, message⟩] }

end Lexer

/-- What the look ahead for a leading dot is stepping over. -/
inductive Ahead
  | code
  | lineComment
  | blockComment (depth : Nat)
  deriving DecidableEq, Repr

/-- The look ahead of `continues_with_dot`. -/
def dotAhead : Ahead → List UInt8 → Bool
  | _, [] => false
  | .code, 47 :: 47 :: l => dotAhead .lineComment l
  | .code, 47 :: 42 :: l => dotAhead (.blockComment 1) l
  | .code, c :: l =>
    if c = 32 ∨ c = 9 ∨ c = 13 ∨ c = 10 then dotAhead .code l
    else c == 46 && l.head?.any fun d => isAlpha d.toNat
  | .lineComment, c :: l => dotAhead (if c = 10 then .code else .lineComment) l
  | .blockComment n, 47 :: 42 :: l => dotAhead (.blockComment (n + 1)) l
  | .blockComment n, 42 :: 47 :: l =>
    dotAhead (if n ≤ 1 then .code else .blockComment (n - 1)) l
  | .blockComment n, _ :: l => dotAhead (.blockComment n) l

namespace Lexer

/-- The next significant text starts a member access. -/
def continuesWithDot (lx : Lexer) : Bool :=
  dotAhead .code (lx.source.drop lx.pos)

def scanIdent (lx : Lexer) (out : List Token) (start line col : Nat) :
    Lexer × List Token :=
  let lx := lx.advanceWhile isIdentByte
  lx.add out (keywordKind (slice lx.source start lx.pos)) start line col

def digitStep (digit : Nat → Bool) (s : Lexer × Bool) :
    Option (Lexer × Bool) :=
  if digit s.1.peek ∨ s.1.peek = 95 then
    some (s.1.advance, s.2 || digit s.1.peek)
  else none

/-- The digits after a base prefix, and whether there was one. -/
def scanDigits (digit : Nat → Bool) (lx : Lexer) : Lexer × Bool :=
  Loop.run (digitStep digit) lx.source.length (lx, false)

/-- A literal with a base prefix. -/
def scanBased (digit : Nat → Bool) (message : Text) (lx : Lexer)
    (out : List Token) (start line col : Nat) : Lexer × List Token :=
  let r := scanDigits digit lx.advance.advance
  if r.2 then r.1.add out .int start line col
  else
    let lx := (r.1.errorAt line col message).advanceWhile isIdentByte
    lx.add out .lexError start line col

/-- The exponent of a number, and whether there is one. -/
def scanExponent (lx : Lexer) : Lexer × Bool :=
  if lx.peek = 101 ∨ lx.peek = 69 then
    let after := lx.peekNext
    if isDigit after ∨ ((after = 43 ∨ after = 45) ∧
        lx.pos + 2 < lx.source.length ∧
        isDigit (byteAt lx.source (lx.pos + 2))) then
      let lx := lx.advance
      let lx := if lx.peek = 43 ∨ lx.peek = 45 then lx.advance else lx
      (lx.advanceWhile isDigit, true)
    else (lx, false)
  else (lx, false)

/-- The digits of a number, which underscores may separate. -/
def isDigitOrUnderscore (value : Nat) : Bool := isDigit value || value == 95

/-- The fraction of a number, and whether there is one. -/
def scanFraction (lx : Lexer) : Lexer × Bool :=
  if lx.peek = 46 ∧ isDigit lx.peekNext then
    (lx.advance.advanceWhile isDigitOrUnderscore, true)
  else (lx, false)

/-- A literal with a base, or decimal digits with a fraction and an exponent. -/
def scanNumber (lx : Lexer) (out : List Token) (start line col : Nat) :
    Lexer × List Token :=
  if lx.peek = 48 ∧ (lx.peekNext = 120 ∨ lx.peekNext = 88) then
    scanBased isHex (utf8 "hex literal needs at least one digit") lx out start
      line col
  else if lx.peek = 48 ∧ (lx.peekNext = 98 ∨ lx.peekNext = 66) then
    scanBased (fun value => value == 48 || value == 49)
      (utf8 "binary literal needs at least one digit") lx out start line col
  else
    let fraction := (lx.advanceWhile isDigitOrUnderscore).scanFraction
    let exponent := fraction.1.scanExponent
    exponent.1.add out (if fraction.2 || exponent.2 then .float else .int)
      start line col

/-- The message for a malformed escape, if it is one. -/
def escapeError (source : Text) (start length : Nat) : Option Text :=
  let marker := byteAt source (start + 1)
  if stringEscapeKnown marker = false then
    some (utf8 "unknown escape '\\" ++ slice source (start + 1) (start + 2) ++
      utf8 "' \u2014 the escapes are \\n \\t \\r \\0 \\\\ \\\" \\\x7b \\\x7d \\xNN \\u\x7b...\x7d")
  else if marker = 120 ∧ length ≠ 4 then
    some (utf8 "\\x needs exactly two hex digits, like \\x1b")
  else if marker = 117 then
    if length = 2 then
      some (utf8 "\\u needs a braced codepoint of one to six hex digits, like \\u\x7b1f600\x7d")
    else if stringEscapeUnicodeValid
        (stringEscapeUnicodeValue source start (length - 4)) = false then
      some (utf8 "\\u\x7b" ++ slice source (start + 3) (start + length - 1) ++
        utf8 "\x7d is not a Unicode codepoint \u2014 the range is 0 to 10FFFF and surrogates D800-DFFF have no encoding")
    else none
  else none

/-- `scan_escape`: an escape is consumed whole. -/
def scanEscape (lx : Lexer) (line col : Nat) : Lexer :=
  if lx.pos + 1 ≥ lx.source.length then lx.advance
  else
    let length := stringEscapeLength lx.source lx.pos lx.source.length
    match escapeError lx.source lx.pos length with
    | none => advanceN length lx
    | some message => advanceN length (lx.errorAt line col message)

/-- One turn of the search for a raw literal's terminator. -/
def rawStep (hashes : Nat) (s : Lexer × Bool) : Option (Lexer × Bool) :=
  if s.1.atEnd ∨ s.2 then none
  else if s.1.peek = 34 ∧ hashRun s.1.source (s.1.pos + 1) s.1.source.length
      hashes = hashes then
    some (advanceN (1 + hashes) s.1, true)
  else some (s.1.advance, false)

/-- `consume_raw_literal`: from the `r` to past the terminator, or to the end of
the source. -/
def consumeRawLiteral (lx : Lexer) : Lexer × Bool :=
  let lx := lx.advance
  let hashed := lx.advanceWhile (· == 35)
  Loop.run (rawStep (hashed.pos - lx.pos)) lx.source.length
    (hashed.advance, false)

/-- The state of the loop of `scan_string`. -/
structure StringScan where
  lexer : Lexer
  depth : Nat
  innerString : Bool
  closed : Bool
  endedAtLine : Bool
  deriving DecidableEq, Repr

/-- One turn of `scan_string`. -/
def stringStep (s : StringScan) : Option StringScan :=
  let lx := s.lexer
  if lx.atEnd ∨ s.closed ∨ s.endedAtLine then none
  else
    let value := lx.peek
    if value = 10 then some { s with endedAtLine := true }
    else if s.depth > 0 ∧ s.innerString = false ∧
        rawOpenAt lx.source lx.pos lx.source.length then
      some { s with lexer := lx.consumeRawLiteral.1 }
    else if value = 92 then
      some { s with lexer := lx.scanEscape lx.line lx.col }
    else if s.depth > 0 then
      if s.innerString then
        some { s with lexer := lx.advance, innerString := decide (value ≠ 34) }
      else if value = 34 then
        some { s with lexer := lx.advance, innerString := true }
      else if value = 123 then
        some { s with lexer := lx.advance, depth := s.depth + 1 }
      else if value = 125 then
        some { s with lexer := lx.advance, depth := s.depth - 1 }
      else some { s with lexer := lx.advance }
    else if value = 123 then
      some { s with lexer := lx.advance, depth := 1 }
    else if value = 34 then
      some { s with lexer := lx.advance, closed := true }
    else some { s with lexer := lx.advance }

/-- The report of a string that was not closed. -/
def reportOpenString (lx : Lexer) (endedAtLine : Bool) (line col : Nat) :
    Lexer :=
  let lx :=
    if lx.openStringLine > 0 ∧ lx.openStringLine + 1 = line then
      { lx with openStringLine := 0 }
    else
      { lx.errorAt line col
          (if endedAtLine then utf8 "string not closed before end of line"
          else utf8 "string never closed") with openStringLine := line }
  if endedAtLine then lx else { lx with sourceEndedInError := true }

/-- The loop of `scan_string`.  A turn that ends it at a newline takes no
byte. -/
def stringRun (lx : Lexer) : StringScan :=
  Loop.run stringStep (lx.source.length + 1)
    ⟨lx.advance, 0, false, false, false⟩

/-- An ordinary string, or the error of one that does not end. -/
def scanString (lx : Lexer) (out : List Token) (start line col : Nat) :
    Lexer × List Token :=
  let s := lx.stringRun
  if s.closed then s.lexer.add out .string start line col
  else
    (s.lexer.reportOpenString s.endedAtLine line col).add out .lexError start
      line col

/-- A raw literal stands at the `r` that comes next. -/
def rawStringAhead (lx : Lexer) : Bool :=
  let len := lx.source.length
  let quote := lx.pos + 1 + hashRun lx.source (lx.pos + 1) len len
  decide (quote < len) && byteAt lx.source quote == 34

/-- A raw string ends at the quote with as many hash marks as it began with. -/
def scanRawString (lx : Lexer) (out : List Token) (start line col : Nat) :
    Lexer × List Token :=
  let r := lx.consumeRawLiteral
  if r.2 then r.1.add out .string start line col
  else
    let hashes := (rawHashesAt lx.source start lx.source.length).getD 0
    let closer := 34 :: List.replicate hashes 35
    ({ r.1 with sourceEndedInError := true }.errorAt line col
      (utf8 "raw string never closed \u2014 it ends at " ++ closer)).add out
        .lexError start line col

def lineCommentStep (lx : Lexer) : Option Lexer :=
  if lx.atEnd ∨ lx.peek = 10 then none else some lx.advance

/-- A line comment ends before its newline. -/
def skipLineComment (lx : Lexer) : Lexer :=
  Loop.run lineCommentStep lx.source.length lx

/-- One turn of `skip_block_comment`, inside as many comments as the depth. -/
def blockStep (s : Lexer × Nat) : Option (Lexer × Nat) :=
  if s.1.atEnd ∨ s.2 = 0 then none
  else if s.1.peek = 47 ∧ s.1.peekNext = 42 then
    some (s.1.advance.advance, s.2 + 1)
  else if s.1.peek = 42 ∧ s.1.peekNext = 47 then
    some (s.1.advance.advance, s.2 - 1)
  else some (s.1.advance, s.2)

/-- The loop of `skip_block_comment`, and the depth it ends at. -/
def blockRun (lx : Lexer) : Lexer × Nat :=
  Loop.run blockStep lx.source.length (lx.advance.advance, 1)

/-- Block comments nest. -/
def skipBlockComment (lx : Lexer) : Lexer :=
  let r := lx.blockRun
  if r.2 > 0 then
    { r.1.errorAt lx.line lx.col
      (utf8 "block comment opened here is never closed") with
      sourceEndedInError := true }
  else r.1

/-- `lexer_hex`: upper-case hex digits, at least `width` of them. -/
def lexerHex (value width : Nat) : Text :=
  let digits := ((Nat.digits 16 value).reverse.map fun d =>
    UInt8.ofNat (if d < 10 then 48 + d else 55 + d))
  List.replicate (width - digits.length) 48 ++ digits

/-- The length of the character that a lead byte starts, and its lead bits. -/
def leadBits (first : Nat) : Nat × Nat :=
  if first ≥ 194 ∧ first ≤ 223 then (2, first % 32)
  else if first ≥ 224 ∧ first ≤ 239 then (3, first % 16)
  else if first ≥ 240 ∧ first ≤ 244 then (4, first % 8)
  else (0, 0)

/-- The continuation bytes of a character: the state is the lexer, the number of
bytes so far and the code point so far. -/
def continuationStep (length : Nat) (s : Lexer × Nat × Nat) :
    Option (Lexer × Nat × Nat) :=
  if s.2.1 < length ∧ s.1.peek ≥ 128 ∧ s.1.peek ≤ 191 then
    some (s.1.advance, s.2.1 + 1, s.2.2 * 64 + s.1.peek % 64)
  else none

/-- `unexpected_source_character`: the message for the byte just consumed and
the rest of its character. -/
def unexpectedSourceCharacter (lx : Lexer) (first : Nat) : Lexer × Text :=
  if first ≥ 33 ∧ first ≤ 126 then
    (lx, utf8 "unexpected character '" ++
      slice lx.source (lx.pos - 1) lx.pos ++ utf8 "'")
  else
    let lead := leadBits first
    let r := Loop.run (continuationStep lead.1) 4 (lx, 1, lead.2)
    let start := r.1.pos - lead.1
    if lead.1 = 0 ∨ r.2.1 < lead.1 then
      (r.1, utf8 "unexpected byte 0x" ++ lexerHex first 2)
    else if r.2.2 = 65279 ∧ start = 0 then
      (r.1, utf8 "unexpected byte-order mark (U+FEFF) \u2014 save the file as UTF-8 without one")
    else
      (r.1, utf8 "unexpected character '" ++ slice r.1.source start r.1.pos ++
        utf8 "' (U+" ++ lexerHex r.2.2 4 ++
        utf8 ") \u2014 outside strings and comments, Beans source is ASCII")

/-- The punctuation of one byte. -/
def punctuationBytes : Text := ascii "()[]\x7b\x7d:;,.@+-*/%=!<>?&|^~"

/-- The punctuation of two bytes. -/
def punctuationPairs : List Text :=
  ["..", "->", "=>", "+=", "-=", "*=", "/=", "%=", "==", "!=", "<=", ">=",
    "&&", "||", "<<", ">>", "**"].map ascii

/-- The third byte of `..=` and `...`. -/
def scanThirdDot (lx : Lexer) (pair : Text) : Lexer × Text :=
  if pair = ascii ".." ∧ lx.peek = 61 then (lx.advance, ascii "..=")
  else if pair = ascii ".." ∧ lx.peek = 46 then (lx.advance, ascii "...")
  else (lx, pair)

def punctuation (lx : Lexer) (out : List Token) (start line col : Nat) :
    Lexer × List Token :=
  let value := lx.peek
  let lx := lx.advance
  let kind := slice lx.source start lx.pos
  if ¬ kind <:+: punctuationBytes then
    let r := lx.unexpectedSourceCharacter value
    (r.1.errorAt line col r.2).add out .lexError start line col
  else
    let pair := slice lx.source start (lx.pos + 1)
    if lx.atEnd = false ∧ pair ∈ punctuationPairs then
      let r := lx.advance.scanThirdDot pair
      r.1.add out (.punctuation r.2) start line col
    else lx.add out (.punctuation kind) start line col

/-- One turn of `scan`. -/
def scanStep (s : Lexer × List Token) : Option (Lexer × List Token) :=
  let lx := s.1
  let out := s.2
  if lx.atEnd then none
  else
    let value := lx.peek
    if value = 32 ∨ value = 9 ∨ value = 13 then some (lx.advance, out)
    else if value = 10 then
      let next := lx.advance
      if next.haveToken ∧ next.lastKind.any endsStatement ∧
          next.continuesWithDot = false then
        some (next.addNewline out lx.line lx.col)
      else some (next, out)
    else if value = 47 ∧ lx.peekNext = 47 then
      some (lx.skipLineComment, out)
    else if value = 47 ∧ lx.peekNext = 42 then some (lx.skipBlockComment, out)
    else if value = 114 ∧ lx.rawStringAhead then
      some (lx.scanRawString out lx.pos lx.line lx.col)
    else if isAlpha value then some (lx.scanIdent out lx.pos lx.line lx.col)
    else if isDigit value then some (lx.scanNumber out lx.pos lx.line lx.col)
    else if value = 34 then some (lx.scanString out lx.pos lx.line lx.col)
    else some (lx.punctuation out lx.pos lx.line lx.col)

/-- `scan`. -/
def scan (lx : Lexer) : Lexer × List Token :=
  let r := Loop.run scanStep lx.source.length (lx, [])
  let ended :=
    if r.1.haveToken ∧ r.1.lastKind.any endsStatement then
      r.1.addNewline r.2 r.1.line r.1.col
    else r
  (ended.1, ended.2 ++ [⟨.eof, [], ended.1.line, ended.1.col⟩])

end Lexer
end Source
end Beans
