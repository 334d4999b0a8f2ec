import Beans.Json.DirectScalars

/-!
# Records, their document, and records written directly

The writers read records out of memory by the offsets of a schema.  The document
writer builds a tree of values first; the compact text of that tree is what it
writes.

The direct writer walks the records as the document writer does, and puts the text
straight into its buffer.  For a list of records the text of the keys is laid out
once, with the braces and commas in front of them.
-/

namespace Beans
namespace Json

/-- The memory of a program, and the length callback of its strings. -/
structure Memory where
  byte : UInt64 → UInt8
  stringLen : UInt64 → Int64

namespace Memory

/-- The bytes from an address on. -/
def span (memory : Memory) (address : UInt64) (count : ℕ) : Bytes :=
  (List.range count).map fun i => memory.byte (address + i.toUInt64)

def load (memory : Memory) (address : UInt64) (count : ℕ) : UInt64 :=
  rtLoadLe (memory.span address count)

/-- A scalar or reference in a record, or in the slot of a list. -/
def readSlot (memory : Memory) (value : UInt64) : UInt64 :=
  memory.load value 8

/-- A pointer in its own width, or in a slot of a list of words. -/
def readPointer (memory : Memory) (value : UInt64) (i64Slot : Bool) : UInt64 :=
  if i64Slot then memory.readSlot value else memory.load value 8

def readInteger (memory : Memory) (value : UInt64) (bits : UInt32) (wantUnsigned i64Slot : Bool) :
    UInt64 :=
  if i64Slot then memory.readSlot value
  else if bits = 8 then
    let number := (memory.load value 1).toUInt8
    if wantUnsigned then number.toUInt64 else number.toInt8.toInt64.toUInt64
  else if bits = 16 then
    let number := (memory.load value 2).toUInt16
    if wantUnsigned then number.toUInt64 else number.toInt16.toInt64.toUInt64
  else if bits = 32 then
    let number := (memory.load value 4).toUInt32
    if wantUnsigned then number.toUInt64 else number.toInt32.toInt64.toUInt64
  else memory.load value 8

def readBool (memory : Memory) (value : UInt64) (i64Slot : Bool) : Bool :=
  if i64Slot then memory.readSlot value != 0 else memory.byte value != 0

/-- The bytes of a string, unless its pointer is null or its length negative. -/
def readString (memory : Memory) (value : UInt64) (i64Slot : Bool) : Option Text :=
  let string := memory.readPointer value i64Slot
  if string = 0 then none
  else
    let length := memory.stringLen string
    if length < 0 then none else some (memory.span string length.toNatClampNeg)

def listLen (memory : Memory) (list : UInt64) : ℕ :=
  (memory.load (list + 8) 8).toNat

/-- The word in front of a list that tells how its elements lie. -/
def listStride (memory : Memory) (list : UInt64) : Int64 :=
  (memory.load (list + 24) 8).toInt64

/-- The address of an element. -/
def listItem (memory : Memory) (list : UInt64) (index : ℕ) : UInt64 :=
  let stride := memory.listStride list
  let size := if stride < 0 then (-stride).toUInt64
    else if stride = 0 then 8 else stride.toUInt64
  memory.load list 8 + index.toUInt64 * size

end Memory

structure EncodeField (κ : Type) where
  kind : κ
  flags : UInt64
  valueOffset : UInt64
  presenceOffset : UInt64
  primaryName : Text
  missingValue : UInt64 := 0
  boxValueOffset : UInt64 := 0

structure EncodeSchema (κ : Type) where
  fields : List (EncodeField κ)
  rootArray : Bool
  recordSize : UInt64

/-- What a field holds.  An ignored field may be of any kind. -/
inductive EncodeKind where
  | other
  | bool
  | sint
  | uint
  | f32
  | f64
  | string
  | struct (schema : EncodeSchema EncodeKind)
  | list (element : EncodeKind) (elementSize : UInt64)

namespace EncodeField

variable {κ : Type}

def optional (field : EncodeField κ) : Bool :=
  field.flags &&& 1 != 0

def ignored (field : EncodeField κ) : Bool :=
  field.flags &&& 4 != 0

def boxedOption (field : EncodeField κ) : Bool :=
  field.flags &&& 8 != 0

/-- Where the value of a field lies in its record, if there is one. -/
def place (field : EncodeField κ) (memory : Memory) (record : UInt64) : Option UInt64 :=
  let value := record + field.valueOffset
  if !field.optional then some value
  else if field.presenceOffset ≠ -1 then
    if memory.byte (record + field.presenceOffset) ≠ 0 then some value else none
  else if field.boxedOption then
    let box := memory.load value 8
    if box ≠ field.missingValue then some (box + field.boxValueOffset) else none
  else if memory.load value 8 ≠ 0 then some value
  else none

end EncodeField

namespace EncodeKind

def isList : EncodeKind → Bool
  | list _ _ => true
  | _ => false

def isStruct : EncodeKind → Bool
  | struct _ => true
  | _ => false

/-- The flags an element is read with: its width, if it is an integer. -/
def elementFlags (element : EncodeKind) (elementSize : UInt64) : UInt64 :=
  match element with
  | sint => (elementSize * 8) <<< 8
  | uint => (elementSize * 8) <<< 8
  | _ => 0

end EncodeKind

/-- The width of an integer. -/
def flagBits (flags : UInt64) : UInt32 :=
  (flags >>> 8).toUInt32

/-- The elements of a list, one after the other. -/
def collectItems (item : ℕ → Option Value) : ℕ → ℕ → Option (List Value)
  | 0, _ => some []
  | count + 1, index =>
    (item index).bind fun value =>
      (collectItems item count (index + 1)).map (value :: ·)

/-- A list is a document only when its elements have a size. -/
def encodeListWith (memory : Memory) (elementSize list : UInt64)
    (item : UInt64 → Bool → Option Value) : Option Value :=
  if list = 0 ∨ elementSize = 0 then none
  else
    (collectItems (fun index => item (memory.listItem list index) (memory.listStride list < 0))
      (memory.listLen list) 0).map .arr

mutual

/-- The value of a field or an element. -/
def typedEncodeValue (memory : Memory) :
    EncodeKind → UInt64 → UInt64 → Bool → Option Value
  | .other, _, _, _ => none
  | .bool, _, value, i64Slot => some (.bool (memory.readBool value i64Slot))
  | .sint, flags, value, i64Slot =>
    some (.sint (memory.readInteger value (flagBits flags) false i64Slot).toInt64)
  | .uint, flags, value, i64Slot =>
    some (.uint (memory.readInteger value (flagBits flags) true i64Slot))
  | .f32, _, value, i64Slot =>
    let bits := if i64Slot then (memory.readSlot value).toUInt32
      else (memory.load value 4).toUInt32
    some (.real (Float32.ofBits bits).toFloat)
  | .f64, _, value, _ => some (.real (Float.ofBits (memory.load value 8)))
  | .string, _, value, i64Slot => (memory.readString value i64Slot).map .str
  | .struct ⟨fields, _, _⟩, _, value, _ => (typedEncodeFields memory fields value).map .obj
  | .list element elementSize, _, value, _ =>
    encodeListWith memory elementSize (memory.load value 8) fun item i64Slot =>
      -- an element that is a list itself comes without the size of its own elements
      if element.isList then none
      else typedEncodeValue memory element (element.elementFlags elementSize) item i64Slot

/-- The members of a record. -/
def typedEncodeFields (memory : Memory) :
    List (EncodeField EncodeKind) → UInt64 → Option Members
  | [], _ => some []
  | ⟨kind, flags, valueOffset, presenceOffset, primaryName, missingValue, boxValueOffset⟩ :: rest,
      record =>
      let field : EncodeField EncodeKind :=
        ⟨kind, flags, valueOffset, presenceOffset, primaryName, missingValue, boxValueOffset⟩
      if field.ignored then typedEncodeFields memory rest record
      else
        (match field.place memory record with
          | some value => typedEncodeValue memory kind flags value false
          | none => some .null).bind fun value =>
            (typedEncodeFields memory rest record).map ((primaryName, value) :: ·)

end

def typedEncodeObject (memory : Memory) (schema : EncodeSchema EncodeKind) (record : UInt64) :
    Option Value :=
  (typedEncodeFields memory schema.fields record).map .obj

/-- The document of a record, or of a list of records. -/
def typedEncodeRoot (memory : Memory) (schema : EncodeSchema EncodeKind) (root : UInt64) :
    Option Value :=
  if schema.rootArray then
    encodeListWith memory schema.recordSize root fun item _ =>
      typedEncodeObject memory schema item
  else typedEncodeObject memory schema root

/-- What the document writer writes. -/
def documentText (realText : Float → Option Text) (memory : Memory)
    (schema : EncodeSchema EncodeKind) (root : UInt64) : Option Text :=
  (typedEncodeRoot memory schema root).bind (compact realText)

open Direct

/-- The keys of a record, laid out in one text: where each one starts and ends. -/
structure Skel where
  bytes : Text
  off : List UInt32
  len : List UInt32

/-- A key with what stands in front of it. -/
def keyPiece (first : Bool) (name : Text) : Text :=
  (if first then 0x7B else 0x2C) :: 0x22 :: (name ++ [0x22, 0x3A])

/-- Lays out the keys from a position on. -/
def skelLayout : List (EncodeField EncodeKind) → Bool → ℕ → Skel
  | [], _, _ => ⟨[], [], []⟩
  | field :: rest, first, pos =>
    if field.ignored then
      let skel := skelLayout rest first pos
      ⟨skel.bytes, 0 :: skel.off, 0 :: skel.len⟩
    else
      let piece := keyPiece first field.primaryName
      let skel := skelLayout rest false (pos + piece.length)
      ⟨piece ++ skel.bytes, pos.toUInt32 :: skel.off, piece.length.toUInt32 :: skel.len⟩

/-- The bytes of a skeleton, unless a key needs an escape. -/
def skelTotal : List (EncodeField EncodeKind) → Option ℕ
  | [] => some 0
  | field :: rest =>
    if field.ignored then skelTotal rest
    else if field.primaryName.all isPlain then
      (skelTotal rest).map (field.primaryName.length + 4 + ·)
    else none

/-- The keys of a record, escaped once for all its rows. -/
def skelBuild (fields : List (EncodeField EncodeKind)) : Option Skel :=
  match skelTotal fields with
  | none => none
  | some total => if total = 0 then none else some (skelLayout fields true 0)

/-- Elements with commas in between. -/
def directItems (item : ℕ → Writer) : ℕ → ℕ → Writer
  | 0, _ => done
  | count + 1, index =>
    andThen (if index ≠ 0 then char 0x2C else done)
      (andThen (item index) (directItems item count (index + 1)))

def directListWith (memory : Memory) (elementSize list : UInt64)
    (item : UInt64 → Bool → Writer) : Writer :=
  if list = 0 ∨ elementSize = 0 then stop .shape
  else
    andThen (char 0x5B)
      (andThen
        (directItems (fun index => item (memory.listItem list index) (memory.listStride list < 0))
          (memory.listLen list) 0)
        (char 0x5D))

/-- What stands in front of a value: its key, and the comma or brace before it. -/
def directKey (scan : Scan) (skel : Option Skel) (first : Bool) (index : ℕ) (name : Text) :
    Writer :=
  match skel with
  | some skel =>
    raw ((skel.bytes.drop (skel.off.getD index 0).toNat).take (skel.len.getD index 0).toNat)
  | none =>
    andThen (if first then done else char 0x2C)
      (andThen (directString scan name) (char 0x3A))

mutual

/-- The text of a value goes straight into the buffer. -/
def directValue (scan : Scan) (memory : Memory) :
    EncodeKind → UInt64 → UInt64 → Bool → Writer
  | .bool, _, value, i64Slot =>
    if memory.readBool value i64Slot then raw (ascii "true") else raw (ascii "false")
  | .sint, flags, value, i64Slot =>
    directSint (memory.readInteger value (flagBits flags) false i64Slot).toInt64
  | .uint, flags, value, i64Slot =>
    directUint (memory.readInteger value (flagBits flags) true i64Slot)
  | .string, _, value, i64Slot =>
    match memory.readString value i64Slot with
    | none => stop .shape
    | some text => directString scan text
  | .struct ⟨fields, _, _⟩, _, value, _ =>
    andThen (char 0x7B) (directFields scan memory none fields 0 true value)
  | .list element elementSize, _, value, _ =>
    let list := memory.load value 8
    match element with
    | .struct ⟨fields, _, _⟩ =>
      -- records repeat, so their keys are laid out once
      let skel := if 1 < memory.listLen list then skelBuild fields else none
      directListWith memory elementSize list fun item _ =>
        andThen (if skel.isNone then char 0x7B else done)
          (directFields scan memory skel fields 0 true item)
    | element =>
      directListWith memory elementSize list fun item i64Slot =>
        if element.isList then stop .shape
        else directValue scan memory element (element.elementFlags elementSize) item i64Slot
  | .other, _, _, _ => stop .shape
  | .f32, _, _, _ => stop .shape
  | .f64, _, _, _ => stop .shape

/-- The fields of a record from an index on, and the brace that ends it. -/
def directFields (scan : Scan) (memory : Memory) (skel : Option Skel) :
    List (EncodeField EncodeKind) → ℕ → Bool → UInt64 → Writer
  | [], _, _, _ => char 0x7D
  | ⟨kind, flags, valueOffset, presenceOffset, primaryName, missingValue, boxValueOffset⟩ :: rest,
      index, first, record =>
      let field : EncodeField EncodeKind :=
        ⟨kind, flags, valueOffset, presenceOffset, primaryName, missingValue, boxValueOffset⟩
      if field.ignored then directFields scan memory skel rest (index + 1) first record
      else
        andThen (directKey scan skel first index primaryName)
          (andThen
            (match field.place memory record with
              | some value => directValue scan memory kind flags value false
              | none => raw (ascii "null"))
            (directFields scan memory skel rest (index + 1) false record))

end

def directObject (scan : Scan) (memory : Memory) (schema : EncodeSchema EncodeKind)
    (skel : Option Skel) (record : UInt64) : Writer :=
  andThen (if skel.isNone then char 0x7B else done)
    (directFields scan memory skel schema.fields 0 true record)

/-- A record, or a list of records. -/
def directRoot (scan : Scan) (memory : Memory) (schema : EncodeSchema EncodeKind)
    (root : UInt64) : Writer :=
  if schema.rootArray then
    let skel := if 1 < memory.listLen root then skelBuild schema.fields else none
    directListWith memory schema.recordSize root fun item _ =>
      directObject scan memory schema skel item
  else directObject scan memory schema none root

mutual

def kindGuess : EncodeKind → ℕ → ℕ
  | .bool, _ => 5
  | .sint, _ => 8
  | .uint, _ => 8
  | .f32, _ => 12
  | .f64, _ => 12
  | .string, _ => 24
  | .struct ⟨fields, _, _⟩, depth =>
    if 4 < depth + 1 then 32 else 2 + fieldsGuess fields (depth + 1)
  | .list _ _, _ => 64
  | .other, _ => 16

def fieldsGuess : List (EncodeField EncodeKind) → ℕ → ℕ
  | [], _ => 0
  | ⟨kind, flags, _, _, primaryName, _, _⟩ :: rest, depth =>
    (if flags &&& 4 != 0 then 0 else primaryName.length + 4 + kindGuess kind depth) +
      fieldsGuess rest depth

end

/-- How many bytes the writer asks for to begin with. -/
def directFirstCap (memory : Memory) (schema : EncodeSchema EncodeKind) (root : UInt64) : ℕ :=
  let want := 2 + fieldsGuess schema.fields 0
  let want := if schema.rootArray ∧ root ≠ 0 then
      min (memory.listLen root) (2 ^ 25 / (want + 1)) * (want + 1) + 2
    else want
  max want 1024

/-- Where the text goes: into a fresh buffer, or behind the bytes of a caller. -/
inductive Target where
  | own
  | caller (store : Bytes) (len : ℕ)

/-- What the target holds before. -/
def Target.before : Target → Bytes
  | own => []
  | caller store len => store.take len

inductive EncodeStatus where
  | ok
  | invalid
  | memory
  | panic
deriving DecidableEq, Repr

/-- The buffer a target starts with. -/
def Target.start (target : Target) (first : ℕ) : Wrote × Direct :=
  match target with
  | .own => (.written, { store := List.replicate first 0, len := 0, append := false, held := 0 })
  | .caller store len =>
    Direct.reserve { store := store, len := len, append := true, held := len } len (len + first)

/-- Hands the text out. -/
def commit (out : Direct) : EncodeStatus × Bytes :=
  if out.append then
    match out.reserve out.len out.len with
    | (.written, out) => (.ok, out.caller)
    | (_, out) => (.panic, out.caller)
  else (.ok, out.bytes)

/-- Gives the buffer up, or takes the caller's bytes back to their length. -/
def rollback (target : Target) (status : EncodeStatus) (out : Direct) : EncodeStatus × Bytes :=
  match target with
  | .own => (status, [])
  | .caller _ len =>
    match out.reserve len len with
    | (.written, out) => (status, out.caller)
    | (_, out) => (.panic, out.caller)

/-- The direct writer: how it ended, and the bytes handed out or left with the caller. -/
def directEncode (scan : Scan) (memory : Memory) (schema : EncodeSchema EncodeKind)
    (root : UInt64) (target : Target) : EncodeStatus × Bytes :=
  match andThen (fun _ => target.start (directFirstCap memory schema root))
      (directRoot scan memory schema root)
      { store := [], len := 0, append := false, held := 0 } with
  | (.written, out) => commit out
  | (.invalid, out) => rollback target .invalid out
  | (.memory, out) => rollback target .memory out
  | (.shape, out) => rollback target .memory out
  | (.panic, out) => (.panic, out.caller)

end Json
end Beans
