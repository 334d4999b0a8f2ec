import Beans.Foundation.Loop
import Beans.Runtime.Text

/-!
# The JSON reader of the tools

`BindgenJsonParser` reads the headers of a binding and every message of an
editor.  It walks the bytes of one source with an index and a flag: what is not
JSON clears the flag, and the loops around it notice.
-/

namespace Beans
namespace Bindgen

/-- The kinds of a `BindgenJson` with the fields that each of them uses.  The
fields of an object are the entries of its map, in the order of the map. -/
inductive BindgenJson where
  | null
  | bool (flag : Bool)
  | number (text : Text)
  | string (text : Text)
  | array (items : List BindgenJson)
  | object (fields : List (Text × BindgenJson))

/-- `fields[name] = value` -/
def setField {α : Type*} (fields : List (Text × α)) (name : Text) (value : α) :
    List (Text × α) :=
  if fields.any fun field => field.1 = name then
    fields.map fun field => if field.1 = name then (field.1, value) else field
  else fields ++ [(name, value)]

/-- The place in the source, and whether all has gone well so far. -/
structure BindgenJsonParser where
  index : ℕ
  ok : Bool
deriving DecidableEq

variable (source : Text)

/-- `source.slice(start, stop)`, which every caller keeps inside the source. -/
def span (start stop : ℕ) : Text := (source.drop start).take (stop - start)

/-- A slice of at most `width` bytes, cut at the end of the source. -/
def window (index width : ℕ) : Text :=
  span source index (if index + width ≤ source.length then index + width else source.length)

def whitespaceStep (index : ℕ) : Option ℕ :=
  if index < source.length then
    let byte := source.getD index 0
    if byte ≠ 32 ∧ byte ≠ 9 ∧ byte ≠ 10 ∧ byte ≠ 13 then none else some (index + 1)
  else none

def whitespace (parser : BindgenJsonParser) : BindgenJsonParser :=
  { parser with index := Loop.run (whitespaceStep source) source.length parser.index }

/-- The byte at the place, zero at the end. -/
def peek (parser : BindgenJsonParser) : UInt8 :=
  if parser.index ≥ source.length then 0 else source.getD parser.index 0

/-- The locals of `string_value`, and what it has returned. -/
structure StringScan where
  pieces : List Text
  run : ℕ
  index : ℕ
  result : Option Text
deriving DecidableEq

/-- What an escape stands for, and where the reader goes on behind it. -/
def escapedPiece (escaped : UInt8) (index : ℕ) : Text × ℕ :=
  if escaped = 34 then ([34], index)
  else if escaped = 92 then ([92], index)
  else if escaped = 47 then ([47], index)
  else if escaped = 110 then ([10], index)
  else if escaped = 114 then ([13], index)
  else if escaped = 116 then ([9], index)
  else if escaped = 117 then
    ([63], if index + 4 ≤ source.length then index + 4 else index)
  else (span source (index - 1) index, index)

def stringStep (scan : StringScan) : Option StringScan :=
  if scan.result.isSome ∨ scan.index ≥ source.length then none
  else
    let byte := source.getD scan.index 0
    if byte ≠ 34 ∧ byte ≠ 92 then some { scan with index := scan.index + 1 }
    else
      let pieces := scan.pieces ++ [span source scan.run scan.index]
      let index := scan.index + 1
      if byte = 34 then some ⟨pieces, scan.run, index, some pieces.flatten⟩
      -- A backslash at the end leaves the loop with nothing behind it.
      else if index ≥ source.length then some ⟨pieces, index, index, none⟩
      else
        let escape := escapedPiece source (source.getD index 0) (index + 1)
        some ⟨pieces ++ [escape.1], escape.2, escape.2, none⟩

/-- A string with its escapes undone. -/
def stringValue (parser : BindgenJsonParser) : Text × BindgenJsonParser :=
  let start := parser.index + 1
  let scan := Loop.run (stringStep source) (source.length + 1) ⟨[], start, start, none⟩
  match scan.result with
  | some text => (text, { parser with index := scan.index })
  | none =>
    ((if scan.run < source.length then
        scan.pieces ++ [span source scan.run source.length]
      else scan.pieces).flatten,
      { index := scan.index, ok := false })

def numberStep (index : ℕ) : Option ℕ :=
  if index < source.length then
    let current := source.getD index 0
    if ¬ ((48 ≤ current ∧ current ≤ 57) ∨ current = 45 ∨ current = 43 ∨ current = 46 ∨
        current = 101 ∨ current = 69) then none
    else some (index + 1)
  else none

/-- The bytes of a number are kept as they are. -/
def numberValue (parser : BindgenJsonParser) : BindgenJson × BindgenJsonParser :=
  let start := parser.index
  let index := Loop.run (numberStep source) source.length start
  if index = start then (.null, { parser with ok := false })
  else (.number (span source start index), { parser with index := index })

/-- `for self.ok { … }`: a turn also tells whether the loop goes on to its next
test. -/
def forOk {σ : Type} (turn : σ → BindgenJsonParser → Option (σ × BindgenJsonParser × Bool))
    (fuel : ℕ) (state : σ) (parser : BindgenJsonParser) : Option (σ × BindgenJsonParser) :=
  if parser.ok = false then some (state, parser)
  else
    match fuel with
    | 0 => none
    | fuel + 1 =>
      (turn state parser).bind fun next =>
        if next.2.2 then forOk turn fuel next.1 next.2.1 else some (next.1, next.2.1)

/-- What follows an element: a comma, the closing byte, or an error. -/
def afterElement (close : UInt8) (parser : BindgenJsonParser) : BindgenJsonParser × Bool :=
  let parser := whitespace source parser
  if peek source parser = 44 then ({ parser with index := parser.index + 1 }, true)
  else if peek source parser = close then
    ({ parser with index := parser.index + 1 }, false)
  else ({ parser with ok := false }, true)

section Turns

variable (value : BindgenJsonParser → Option (BindgenJson × BindgenJsonParser))

def arrayTurn (items : List BindgenJson) (parser : BindgenJsonParser) :
    Option (List BindgenJson × BindgenJsonParser × Bool) :=
  (value parser).map fun item =>
    (items ++ [item.1], afterElement source 93 item.2)

/-- The elements up to the closing bracket. -/
def array (fuel : ℕ) (parser : BindgenJsonParser) :
    Option (BindgenJson × BindgenJsonParser) :=
  let parser := whitespace source { parser with index := parser.index + 1 }
  if peek source parser = 93 then
    some (.array [], { parser with index := parser.index + 1 })
  else
    (forOk (arrayTurn source value) fuel [] parser).map fun result =>
      (.array result.1, result.2)

def objectTurn (fields : List (Text × BindgenJson)) (parser : BindgenJsonParser) :
    Option (List (Text × BindgenJson) × BindgenJsonParser × Bool) :=
  let parser := whitespace source parser
  if peek source parser ≠ 34 then some (fields, { parser with ok := false }, false)
  else
    let key := stringValue source parser
    let parser := whitespace source key.2
    if peek source parser ≠ 58 then some (fields, { parser with ok := false }, false)
    else
      (value { parser with index := parser.index + 1 }).map fun field =>
        (setField fields key.1 field.1, afterElement source 125 field.2)

/-- The members up to the closing brace. -/
def object (fuel : ℕ) (parser : BindgenJsonParser) :
    Option (BindgenJson × BindgenJsonParser) :=
  let parser := whitespace source { parser with index := parser.index + 1 }
  if peek source parser = 125 then
    some (.object [], { parser with index := parser.index + 1 })
  else
    (forOk (objectTurn source value) fuel [] parser).map fun result =>
      (.object result.1, result.2)

end Turns

/-- The value at the index; `none` when the calls nest or the loops turn more
than `fuel` times. -/
def value : ℕ → BindgenJsonParser → Option (BindgenJson × BindgenJsonParser)
  | 0, _ => none
  | fuel + 1, parser =>
    let parser := whitespace source parser
    if parser.index ≥ source.length then some (.null, { parser with ok := false })
    else
      let byte := peek source parser
      if byte = 123 then object source (value fuel) fuel parser
      else if byte = 91 then array source (value fuel) fuel parser
      else if byte = 34 then
        let text := stringValue source parser
        some (.string text.1, text.2)
      else if window source parser.index 4 = ascii "true" then
        some (.bool true, { parser with index := parser.index + 4 })
      else if window source parser.index 5 = ascii "false" then
        some (.bool false, { parser with index := parser.index + 5 })
      else if window source parser.index 4 = ascii "null" then
        some (.null, { parser with index := parser.index + 4 })
      else some (numberValue source parser)

end Bindgen
end Beans
