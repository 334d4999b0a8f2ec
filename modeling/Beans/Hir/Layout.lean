import Beans.Foundation.Alignments
import Beans.Foundation.CheckedRun
import Beans.Hir.Types
import Beans.Packages.SymbolText

/-!
# Sizes and offsets

The size and the alignment of a type, and where the fields of a struct or union
stand.  Types of other declarations are laid out where they occur, under the
substitutions of the generics around them.  The recursion is bounded, since generic
declarations can refer to one another without end.
-/

namespace Beans
namespace Hir

open Packages (displaySymbol)
open Alignments (andWords)
open CheckedRun

inductive DeclarationKind where
  | «class»
  | interface
  | enum
  | struct
  | union
deriving DecidableEq

/-- A field with the alignment it declares. -/
structure HirField where
  name : Text
  type : HirType
  declaredAlign : ℤ

structure HirDeclaration where
  qualified : Text
  kind : DeclarationKind
  generics : List Text
  fields : List HirField
  isOpaque : Bool
  isPacked : Bool
  declaredAlign : ℤ
  /-- `"u8"` for `enum(u8)`. -/
  repr : Text

/-- A target; its pointers have 32 or 64 bits. -/
structure TargetDescription where
  triple : Text
  arch : Text
  os : Text
  pointerBits : ℤ
  hasDecimal : Bool
  features : List Text
  pointer_word : pointerBits = 32 ∨ pointerBits = 64

namespace TargetDescription

variable (target : TargetDescription)

def maxScalarAlign : ℤ :=
  if target.arch = ascii "x86" ∧ target.pointerBits = 32 ∧ target.os ≠ ascii "windows" then 4 else 8

def pointerSize : ℤ :=
  target.pointerBits.tdiv 8

def maxSimdBits : ℤ :=
  if target.arch = ascii "x86_64" ∨ target.arch = ascii "x86" then
    if ascii "avx512f" ∈ target.features then 512
    else if ascii "avx2" ∈ target.features ∨ ascii "avx" ∈ target.features then 256
    else if ascii "sse2" ∈ target.features then 128
    else 0
  else if target.arch = ascii "arm64" ∧ ascii "neon" ∈ target.features then 128
  else if target.arch = ascii "wasm32" ∧ ascii "simd128" ∈ target.features then 128
  else 0

end TargetDescription

/-- `parts.join(", ")`. -/
def joinComma (parts : List Text) : Text :=
  List.intercalate (ascii ", ") parts

mutual

def renderHirType : HirType → Text
  | .mk name args arrayLength fnParameterCount fnSendable =>
    if name = ascii "array" then
      ascii "[" ++ (renderArguments args).headD [] ++ ascii "; " ++ Text.ofInt arrayLength ++
        ascii "]"
    else if name = ascii "fn" then
      (if fnSendable then ascii "send " else []) ++ ascii "fn(" ++
        joinComma ((renderArguments args).take fnParameterCount.toNat) ++ ascii ") -> " ++
        (if fnParameterCount < args.length then
          (renderArguments args).getD fnParameterCount.toNat []
        else ascii "unit")
    else if args.length = 0 then displaySymbol name
    else displaySymbol name ++ ascii "<" ++ joinComma (renderArguments args) ++ ascii ">"

def renderArguments : List HirType → List Text
  | [] => []
  | type :: rest => renderHirType type :: renderArguments rest

end

def typeArgumentsCount (count : ℕ) : Text :=
  Text.ofNat count ++ ascii (if count = 1 then " type argument" else " type arguments")

def needsTypeArgumentsMessage (shown : Text) (wanted got : ℕ) : Text :=
  shown ++ ascii " needs " ++ typeArgumentsCount wanted ++ ascii " but got " ++ Text.ofNat got

structure ValueLayout where
  size : ℤ
  align : ℤ
deriving DecidableEq

structure LayoutAnswer where
  ok : Bool
  value : ValueLayout
  message : Text
deriving DecidableEq

/-- The offsets in the order they were entered. -/
structure RecordLayoutAnswer where
  answer : LayoutAnswer
  offsets : List (Text × ℤ)
deriving DecidableEq

def layoutOk (size align : ℤ) : LayoutAnswer :=
  ⟨true, ⟨size, align⟩, []⟩

def layoutError (message : Text) : LayoutAnswer :=
  ⟨false, ⟨0, 1⟩, message⟩

def layoutPowerOfTwo (value : ℤ) : Run Bool :=
  if value > 0 then do
    let before ← word (value - 1)
    return andWords value before == 0
  else return false

/-- The next multiple of an alignment, refused where no word holds it. -/
def layoutAlignUp (value align : ℤ) : Run LayoutAnswer :=
  if align ≤ 1 then return layoutOk value 1
  else do
    let extra ← word (align - 1)
    let room ← word (9223372036854775807 - extra)
    if value > room then return layoutError (ascii "layout size overflows")
    else
      let sum ← word (value + extra)
      let mask ← word (0 - align)
      return layoutOk (andWords sum mask) align

def isReferenceBuiltin (name : Text) : Bool :=
  [ascii "List", ascii "Map", ascii "OrderedMap", ascii "Box", ascii "Arena", ascii "Shared",
    ascii "Weak", ascii "Mutex", ascii "Atomic", ascii "Channel", ascii "Thread", ascii "Bytes",
    ascii "File", ascii "Dir", ascii "MMap", ascii "TcpListener", ascii "TcpStream",
    ascii "UdpSocket", ascii "Poller", ascii "SignalSet", ascii "Library", ascii "Child",
    ascii "Resource", ascii "Error", ascii "AtomicInt", ascii "Gate"].contains name

abbrev Substitutions := List (Text × HirType)

/-- The renderings of the records being laid out. -/
abbrev Active := List Text

structure LayoutEngine where
  target : TargetDescription
  /-- Of two declarations of a name, the later one counts. -/
  program : List HirDeclaration

namespace LayoutEngine

variable (engine : LayoutEngine)

def declaration (name : Text) : Option HirDeclaration :=
  engine.program.reverse.find? (·.qualified == name)

def natural (bytes : ℤ) : LayoutAnswer :=
  let alignment := if bytes = 0 then 1 else bytes
  layoutOk bytes
    (if alignment > engine.target.maxScalarAlign then engine.target.maxScalarAlign else alignment)

def pointer : LayoutAnswer :=
  layoutOk engine.target.pointerSize engine.target.pointerSize

/-- The number of lanes and what is written after it, unless it is too large. -/
def simdLanes : Text → ℤ → Run (Option (ℤ × Text))
  | [], lanes => return some (lanes, [])
  | byte :: rest, lanes =>
    if byte < 48 ∨ byte > 57 then return some (lanes, byte :: rest)
    else do
      let tens ← word (lanes * 10)
      let sum ← word (tens + byte.toNat)
      let lanes ← word (sum - 48)
      if lanes > 64 then return none else simdLanes rest lanes

def simdBits (text : Text) : Option ℤ :=
  if text = ascii "8" then some 8
  else if text = ascii "16" then some 16
  else if text = ascii "32" then some 32
  else if text = ascii "64" then some 64
  else none

def simdLayout (name : Text) : Run LayoutAnswer :=
  let invalid := layoutError (ascii "invalid SIMD type " ++ name)
  if ¬ (ascii "Simd").isPrefixOf name ∨ name.length < 7 then
    return layoutError (ascii "unknown type " ++ name)
  else do
    match ← simdLanes (name.drop 4) 0 with
    | none => return invalid
    | some (lanes, rest) =>
      if lanes = 0 then return invalid
      else
        match rest with
        | [] => return invalid
        | family :: bitsText =>
          if ← layoutPowerOfTwo lanes then
            if family ≠ 105 ∧ family ≠ 117 ∧ family ≠ 102 then return invalid
            else
              match simdBits bitsText with
              | none => return invalid
              | some bits =>
                if family = 102 ∧ bits ≠ 32 ∧ bits ≠ 64 then return invalid
                else
                  let total ← word (lanes * bits)
                  if total ≠ 128 ∧ total ≠ 256 then return invalid
                  else if total > engine.target.maxSimdBits then
                    return layoutError (name ++ ascii " needs " ++ Text.ofInt total ++
                      ascii "-bit SIMD, but " ++ engine.target.triple ++ ascii " supports " ++
                      Text.ofInt engine.target.maxSimdBits ++ ascii " bits")
                  else return layoutOk (total.tdiv 8) (total.tdiv 8)
          else return invalid

/-- The alignment of a field that its declaration may raise. -/
def effectiveAlign (field : HirField) (piece : ValueLayout) : ℤ :=
  if field.declaredAlign > piece.align then field.declaredAlign else piece.align

/-- The alignment of the record after a field. -/
def raisedAlign (declaration : HirDeclaration) (fieldAlign alignment : ℤ) : ℤ :=
  let recordFieldAlign := if declaration.isPacked then 1 else fieldAlign
  if recordFieldAlign > alignment then recordFieldAlign else alignment

/-- The fields from one on, given the layout of a field's type. -/
def layoutFields (declaration : HirDeclaration) (piece : HirType → Run LayoutAnswer) :
    List HirField → (size alignment : ℤ) → List (Text × ℤ) → Run RecordLayoutAnswer
  | [], size, alignment, offsets => do
      let finished ← layoutAlignUp size alignment
      if finished.ok then return ⟨layoutOk finished.value.size alignment, offsets⟩
      else return ⟨finished, offsets⟩
  | field :: rest, size, alignment, offsets => do
      let piece' ← piece field.type
      if piece'.ok then
        let fieldAlign := effectiveAlign field piece'.value
        let raised := raisedAlign declaration fieldAlign alignment
        if declaration.kind = .union then
          layoutFields declaration piece rest
            (if piece'.value.size > size then piece'.value.size else size) raised
            (offsets ++ [(field.name, 0)])
        else if declaration.isPacked then
          let room ← word (9223372036854775807 - piece'.value.size)
          if size > room then
            return ⟨layoutError (ascii "layout size overflows"), offsets⟩
          else
            let next ← word (size + piece'.value.size)
            layoutFields declaration piece rest next raised (offsets ++ [(field.name, size)])
        else
          let placed ← layoutAlignUp size fieldAlign
          if placed.ok then
            let room ← word (9223372036854775807 - piece'.value.size)
            if placed.value.size > room then
              return ⟨layoutError (ascii "layout size overflows"), offsets⟩
            else
              let next ← word (placed.value.size + piece'.value.size)
              layoutFields declaration piece rest next raised
                (offsets ++ [(field.name, placed.value.size)])
          else return ⟨placed, offsets⟩
      else return ⟨piece', offsets⟩

/-- A record, given the layout of its fields' types. -/
def layoutRecordWith (inner : HirType → Substitutions → Active → Run LayoutAnswer)
    (type : HirType) (declaration : HirDeclaration) (substitutions : Substitutions)
    (active : Active) : Run RecordLayoutAnswer :=
  let shown := displaySymbol declaration.qualified
  let key := renderHirType type
  if declaration.isOpaque then
    return ⟨layoutError (shown ++ ascii " is an opaque C type and has no known layout"), []⟩
  else if key ∈ active then
    return ⟨layoutError (ascii "recursive inline layout for " ++ key ++
      ascii " has no finite size"), []⟩
  else if declaration.generics.length ≠ type.args.length then
    return ⟨layoutError (needsTypeArgumentsMessage shown declaration.generics.length
      type.args.length), []⟩
  else
    let nested := (declaration.generics.zip type.args).reverse ++ substitutions
    let alignment := if declaration.declaredAlign > 1 then declaration.declaredAlign else 1
    layoutFields declaration (fun fieldType => inner fieldType nested (key :: active))
      declaration.fields 0 alignment []

/-- A fixed array, given the layout of its elements' type. -/
def layoutArray (type : HirType) (inner : HirType → Run LayoutAnswer) : Run LayoutAnswer :=
  match type.args with
  | [element] =>
    if type.arrayLength < 0 then return layoutError (ascii "invalid fixed array type")
    else do
      let piece ← inner element
      if piece.ok then
        if piece.value.size ≠ 0 ∧
            type.arrayLength > Int.tdiv 9223372036854775807 piece.value.size then
          return layoutError (ascii "size of " ++ renderHirType type ++ ascii " overflows")
        else
          let size ← word (piece.value.size * type.arrayLength)
          return layoutOk size piece.value.align
      else return piece
  | _ => return layoutError (ascii "invalid fixed array type")

/-- A type that is neither substituted nor an array nor declared. -/
def layoutBuiltin (type : HirType) : Option (Run LayoutAnswer) :=
  let name := type.name
  if [ascii "i8", ascii "u8", ascii "byte"].contains name then some (return engine.natural 1)
  else if [ascii "i16", ascii "u16"].contains name then some (return engine.natural 2)
  else if [ascii "i32", ascii "u32", ascii "f32"].contains name then
    some (return engine.natural 4)
  else if [ascii "int", ascii "i64", ascii "uint", ascii "u64", ascii "float",
      ascii "f64"].contains name then some (return engine.natural 8)
  else if name = ascii "bool" then some (return layoutOk 1 1)
  else if name = ascii "unit" then some (return layoutOk 0 1)
  else if name = ascii "decimal" then
    some (return if engine.target.hasDecimal then layoutOk 32 16
      else layoutError (ascii "decimal is not available in the runtime for " ++
        engine.target.triple))
  else if [ascii "string", ascii "RawPtr", ascii "CFunctionPtr", ascii "StoredCallback",
      ascii "LocalStoredCallback"].contains name || isReferenceBuiltin name then
    some (return engine.pointer)
  else if name = ascii "Slice" ∨ name = ascii "RawSlice" then
    some (do
      let size ← word (engine.target.pointerSize * 2)
      return layoutOk size engine.target.pointerSize)
  else if (ascii "Simd").isPrefixOf name then some (engine.simdLayout name)
  else if name = ascii "Option" ∨ name = ascii "Result" ∨ name = ascii "fn" then
    some (return layoutError (renderHirType type ++ ascii " has no single fixed layout yet"))
  else none

/-- The layout of a type below the records that are being laid out. -/
def layoutTypeInner : ℕ → HirType → Substitutions → Active → Run LayoutAnswer
  | 0, _, _, _ => .error .fuel
  | fuel + 1, type, substitutions, active =>
    match substitutions.lookup type.name with
    | some given => layoutTypeInner fuel given substitutions active
    | none =>
      if type.name = ascii "array" then
        layoutArray type fun element => layoutTypeInner fuel element substitutions active
      else
        match engine.layoutBuiltin type with
        | some answer => answer
        | none =>
          match engine.declaration type.name with
          | none =>
            return layoutError (renderHirType type ++
              ascii " is not a declared value type")
          | some declaration =>
            match declaration.kind with
            | .class | .interface => return engine.pointer
            | .enum =>
              if declaration.repr = ascii "u8" then return layoutOk 1 1
              else return layoutError (renderHirType type ++
                ascii " has no single fixed layout yet")
            | .struct | .union =>
              if declaration.isOpaque then
                return layoutError (renderHirType type ++
                  ascii " is an opaque C type and has no known layout")
              else do
                let record ← layoutRecordWith (layoutTypeInner fuel) type declaration
                  substitutions active
                return record.answer

def layoutRecord (fuel : ℕ) (declaration : HirDeclaration) : Run RecordLayoutAnswer :=
  layoutRecordWith (engine.layoutTypeInner fuel)
    (.mk declaration.qualified (declaration.generics.map fun _ => .new (ascii "u8")) (-1) (-1)
      false)
    declaration [] []

end LayoutEngine
end Hir
end Beans
