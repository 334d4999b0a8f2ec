import Beans.Decimal.Text
import Beans.Foundation.AssocList
import Beans.Foundation.SelfDelimiting
import Beans.Runtime.Text

/-!
# Values of the tree interpreter

A value of each kind with the fields that kind uses.  `treeValueKey` renders the
text a map stores a key under, `treeValueTotalEqual` is the `Eq` interface and
`treeValueEqual` the `==` of the source; `treeValueCopy` copies what has value
semantics.
-/

namespace Beans
namespace Interpreter

open SelfDelimiting Decimal

/-- The kinds that keep a sequence of items. -/
inductive SeqKind where
  | variant
  | some
  | ok
  | err
  | list
  | array
  | range
  | simd
deriving DecidableEq

def SeqKind.name : SeqKind → Text
  | variant => ascii "variant"
  | some => ascii "some"
  | ok => ascii "ok"
  | err => ascii "err"
  | list => ascii "list"
  | array => ascii "array"
  | range => ascii "range"
  | simd => ascii "simd"

/-- A float is its 64 bits; the fields of a record are the entries of its map,
in order, and a slot nothing was written to holds `unset`. -/
inductive TreeValue where
  | unit
  | unset
  | none
  | bool (data : Bool)
  | int (bits : ℕ) (unsigned : Bool) (intData : ℤ) (uintData : ℕ)
  | float (data : UInt64)
  | decimal (data : BDec)
  | string (text : Text)
  | bytes (data : Option (List UInt8))
  | object (objectId : ℤ) (text : Text)
  | closure (objectId : ℤ)
  | rawPtr (memoryAddress : ℕ)
  | slice (memoryAddress : ℕ) (sliceLen : ℤ)
  | record (text : Text) (objectId : ℤ) (bytes : Option (List UInt8))
      (fields : List (Text × TreeValue))
  | error (text : Text) (fields : List (Text × TreeValue))
  | seq (kind : SeqKind) (text : Text) (boolData : Bool) (intData : ℤ)
      (items : List TreeValue)

/-- IEEE 754 totalOrder as an unsigned key. -/
def treeFloatTotalKey (bits : UInt64) : UInt64 :=
  if bits >>> 63 = 1 then bits ^^^ 18446744073709551615
  else bits ||| 9223372036854775808

def isNan (bits : UInt64) : Bool :=
  bits &&& 0x7FFFFFFFFFFFFFFF > 0x7FF0000000000000

/-- Either of the two zeros. -/
def isZero (bits : UInt64) : Bool :=
  bits &&& 0x7FFFFFFFFFFFFFFF == 0

/-- `==` on floats: a nan is equal to nothing, and the zeros are equal. -/
def ieeeEqual (left right : UInt64) : Bool :=
  !isNan left && !isNan right &&
    (left == right || isZero left && isZero right)

def treeFloatTotalEqual (left right : UInt64) : Bool :=
  if ieeeEqual left right then
    if !ieeeEqual left 0 then true
    else treeFloatTotalKey left == treeFloatTotalKey right
  else if ieeeEqual left left || ieeeEqual right right then false
  else treeFloatTotalKey left == treeFloatTotalKey right

/-- `==` on decimals compares the numbers. -/
def decimalEqual (left right : BDec) : Bool :=
  match beansDecCmp left right with
  | .ok order => order == 0
  | .error _ => false

def sameText (a b : Text) : Bool := a == b

/-- The order of `names.sort()`. -/
def textLe (a b : Text) : Prop :=
  a.map UInt8.toNat ≤ b.map UInt8.toNat

instance : DecidableRel textLe := fun _ _ =>
  inferInstanceAs (Decidable (_ ≤ _))

def TreeValue.isUnset : TreeValue → Bool
  | .unset => true
  | _ => false

/-- The value written under a name. -/
def fieldValue (fields : List (Text × TreeValue)) (name : Text) :
    Option TreeValue :=
  (AssocList.get sameText fields name).filter fun stored => !stored.isUnset

/-- What is written, under the sorted names. -/
def arrange {α : Type*} (fields : List (Text × Option α)) :
    List (Text × α) :=
  ((fields.map Prod.fst).insertionSort textLe).filterMap fun name =>
    (AssocList.get sameText fields name).join.map fun value => (name, value)

/-- `:{text.len()}:{text}`. -/
def textPiece (text : Text) : Text :=
  piece Text.ofNat 58 text

/-- `tree_value_text` of the kinds whose key is their text. -/
def restText : TreeValue → Text
  | .unit => ascii "()"
  | .none => ascii "none"
  | .closure _ => ascii "<fn>"
  | .rawPtr address => ascii "RawPtr(" ++ Text.ofNat address ++ ascii ")"
  | .slice _ len => ascii "Slice(len=" ++ Text.ofInt len ++ ascii ")"
  | .error _ _ => ascii "Error"
  | .unset => ascii "<unset>"
  | .bytes _ => ascii "<bytes>"
  | _ => ascii "<simd>"

def restKind : TreeValue → Text
  | .unit => ascii "unit"
  | .none => ascii "none"
  | .closure _ => ascii "closure"
  | .rawPtr _ => ascii "raw_ptr"
  | .slice _ _ => ascii "slice"
  | .error _ _ => ascii "error"
  | .unset => ascii "unset"
  | .bytes _ => ascii "bytes"
  | _ => ascii "simd"

mutual

/-- The text that stands for a value in the maps of the interpreter. -/
def treeValueKey : TreeValue → Text
  | .string text => ascii "s:" ++ text
  | .int bits unsigned intData uintData =>
    if unsigned then
      ascii "u" ++ Text.ofNat bits ++ ascii ":" ++ Text.ofNat uintData
    else
      ascii "i" ++ Text.ofNat bits ++ ascii ":" ++ Text.ofInt intData
  | .bool data => if data then ascii "b:1" else ascii "b:0"
  | .float data => ascii "f:" ++ Text.ofNat (treeFloatTotalKey data).toNat
  | .decimal data => ascii "d:" ++ beansDecStr data
  | .object objectId _ => ascii "o:" ++ Text.ofInt objectId
  | .record text _ _ fields =>
    ascii "r" ++ textPiece text ++
      (arrange (fieldKeys fields)).flatMap fun field =>
        textPiece field.1 ++ textPiece field.2
  | .seq kind text boolData intData items =>
    if kind = .simd then
      -- its lanes compare with `==`, so no structural key
      restKind (.seq kind text boolData intData items) ++ ascii ":" ++
        restText (.seq kind text boolData intData items)
    else
      ascii "v" ++ textPiece kind.name ++ textPiece text ++
        (itemKeys items).flatMap textPiece
  | value => restKind value ++ ascii ":" ++ restText value

def itemKeys : List TreeValue → List Text
  | [] => []
  | item :: items => treeValueKey item :: itemKeys items

/-- The key of what is written in each slot. -/
def fieldKeys : List (Text × TreeValue) → List (Text × Option Text)
  | [] => []
  | (name, stored) :: fields =>
    (name, if stored.isUnset then Option.none else some (treeValueKey stored)) ::
      fieldKeys fields

end

mutual

/-- The `Eq` interface. -/
def treeValueTotalEqual : TreeValue → TreeValue → Bool
  | .unit, .unit => true
  | .none, .none => true
  | .bool left, .bool right => left == right
  | .int _ leftUnsigned leftInt leftUint,
      .int _ rightUnsigned rightInt rightUint =>
      if leftUnsigned || rightUnsigned then leftUint == rightUint
      else leftInt == rightInt
  | .float left, .float right => treeFloatTotalEqual left right
  | .decimal left, .decimal right => decimalEqual left right
  | .string left, .string right => left == right
  | .bytes (some left), .bytes (some right) => left == right
  | .object left _, .object right _ => left == right
  | .closure left, .closure right => left == right
  | .rawPtr left, .rawPtr right => left == right
  | .slice left leftLen, .slice right rightLen =>
    left == right && leftLen == rightLen
  | .record leftText _ _ left, .record rightText _ _ right =>
    leftText == rightText && left.length == right.length &&
      fieldsEqual left right
  | .error leftText left, .error rightText right =>
    leftText == rightText && left.length == right.length &&
      fieldsEqual left right
  | .seq leftKind leftText _ _ left, .seq rightKind rightText _ _ right =>
    leftKind == rightKind &&
      (!(leftKind == .variant || leftKind == .simd) ||
        leftText == rightText) &&
      left.length == right.length &&
      (if leftKind == .simd then lanesEqual left right
        else itemsEqual left right)
  | _, _ => false
termination_by structural left => left

def itemsEqual : List TreeValue → List TreeValue → Bool
  | left :: lefts, right :: rights =>
    treeValueTotalEqual left right && itemsEqual lefts rights
  | _, _ => true
termination_by structural lefts => lefts

/-- The lanes of a vector compare with `==`. -/
def lanesEqual : List TreeValue → List TreeValue → Bool
  | left :: lefts, right :: rights =>
    (match left, right with
      | .float a, .float b => ieeeEqual a b
      | _, _ => treeValueTotalEqual left right) &&
      lanesEqual lefts rights
  | _, _ => true
termination_by structural lefts => lefts

def fieldsEqual : List (Text × TreeValue) → List (Text × TreeValue) → Bool
  | [], _ => true
  | (name, stored) :: lefts, right =>
    (match fieldValue right name with
      | some value => !stored.isUnset && treeValueTotalEqual stored value
      | Option.none => stored.isUnset) &&
      fieldsEqual lefts right
termination_by structural lefts => lefts

end

/-- `==` and `!=` as the source wrote them. -/
def treeValueEqual : TreeValue → TreeValue → Bool
  | .float left, .float right => ieeeEqual left right
  | left, right => treeValueTotalEqual left right

mutual

/-- A copy shares lists and ranges, and copies records and the other sequences. -/
def treeValueCopy : TreeValue → TreeValue
  | .record text objectId bytes fields =>
    .record text objectId bytes (copyFields fields)
  | .seq kind text boolData intData items =>
    if kind = .list ∨ kind = .range then .seq kind text boolData intData items
    else .seq kind text boolData intData (copyItems items)
  | value => value

def copyItems : List TreeValue → List TreeValue
  | [] => []
  | item :: items => treeValueCopy item :: copyItems items

def copyFields : List (Text × TreeValue) → List (Text × TreeValue)
  | [] => []
  | (name, stored) :: fields => (name, treeValueCopy stored) :: copyFields fields

end

end Interpreter
end Beans
