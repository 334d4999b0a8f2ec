import Beans.Json.Schema

/-!
# Struct types and their schemas

The types of a typed decode as the compiler sees them: which structs the native
decoder accepts, which of them it stores directly, which the checker admits, and
the schema emitted for a struct.
-/

namespace Beans
namespace Json

/-- A decoded value. -/
inductive Datum where
  | bool (flag : Bool)
  | int (number : ℤ)
  | f32 (bits : ℕ)
  | float (bits : UInt64)
  | string (text : Text)
  | absent
  | present (payload : Datum)
  | record (fields : List Datum)
  | list (items : List Datum)
  /-- What generated code makes of words it has no conversion for. -/
  | zero

/-- What a field declares beside its type. -/
structure FieldSpec where
  /-- The name in documents, and the further names accepted for it. -/
  jsonName : Text
  aliases : List Text
  ignored : Bool
  hasDefault : Bool
  /-- What the field's default expression evaluates to. -/
  defaultValue : Datum
  asBytes : Bool

structure HirField (τ : Type) where
  spec : FieldSpec
  type : τ

structure Declaration (τ : Type) where
  generic : Bool
  allowUnknown : Bool
  fields : List (HirField τ)

/-- The types a decode may meet. -/
inductive HirType where
  | bool
  | int (width : Width) (isUnsigned : Bool)
  | f32
  | float
  | string
  | option (payload : HirType)
  | list (element : HirType)
  | struct (declaration : Declaration HirType)
  /-- Any type without a place in typed documents. -/
  | other (size alignment : ℕ)

abbrev StructType : Type := Declaration HirType

/-- The names under which a document may give the field. -/
def FieldSpec.accepted (spec : FieldSpec) : List Text :=
  spec.jsonName :: spec.aliases

namespace HirType

def isOption : HirType → Bool
  | option _ => true
  | _ => false

def isList : HirType → Bool
  | list _ => true
  | _ => false

def isStruct : HirType → Bool
  | struct _ => true
  | _ => false

/-- The types whose values are pointers. -/
def isReference : HirType → Bool
  | string => true
  | list _ => true
  | option payload => payload.isReference
  | _ => false

def jsonNativePayload : HirType → HirType
  | option payload => payload
  | type => type

/-- The kind number of a type, zero where it has none. -/
def jsonNativeKind : HirType → ℕ
  | option (option _) => 0
  | option payload => payload.jsonNativeKind
  | bool => 1
  | int _ false => 2
  | int _ true => 3
  | f32 => 4
  | float => 5
  | string => 6
  | struct declaration => if declaration.generic then 0 else 7
  | list element =>
    if 1 ≤ element.jsonNativeKind ∧ element.jsonNativeKind ≤ 7 then 8 else 0
  | other _ _ => 0

mutual

/-- The struct a type leads to has kinds for its fields, within the nesting limit. -/
def nativeNested : HirType → ℕ → Bool
  | option payload, depth => nativeNested payload depth
  | list element, depth => nativeNested element depth
  | struct ⟨generic, _, fields⟩, depth =>
    if 64 < depth then false
    else !generic && nativeFields fields (depth + 1)
  | _, _ => true

/-- Every field has a native kind of its own, but for the ignored ones. -/
def nativeFields : List (HirField HirType) → ℕ → Bool
  | [], _ => true
  | ⟨spec, type⟩ :: rest, depth =>
    (spec.ignored || (type.jsonNativeKind != 0 && nativeNested type depth)) &&
      nativeFields rest depth

end

mutual

/-- The struct a type leads to has neither defaults nor ignored fields. -/
def directNested : HirType → ℕ → Bool
  | option payload, depth => directNested payload depth
  | list element, depth => directNested element depth
  | struct ⟨generic, allowUnknown, fields⟩, depth =>
    if 64 < depth || !nativeNested (struct ⟨generic, allowUnknown, fields⟩) depth
    then false
    else directFields fields (depth + 1)
  | _, _ => true

/-- No field has a default, none is ignored, and all can be stored directly. -/
def directFields : List (HirField HirType) → ℕ → Bool
  | [], _ => true
  | ⟨spec, type⟩ :: rest, depth =>
    !spec.hasDefault && !spec.ignored && directNested type depth &&
      directFields rest depth

end

def jsonScalarType : HirType → Bool
  | bool => true
  | int _ _ => true
  | f32 => true
  | float => true
  | string => true
  | _ => false

/-- The names of the fields that are not ignored, with their positions. -/
def fieldNames : List (HirField HirType) → ℕ → List (Text × ℕ)
  | [], _ => []
  | field :: rest, index =>
    (if field.spec.ignored then []
    else field.spec.accepted.map fun name => (name, index)) ++
      fieldNames rest (index + 1)

/-- No name is empty, and none stands for two fields. -/
def namesDistinct (fields : List (HirField HirType)) : Bool :=
  let names := (fieldNames fields 0).map Prod.fst
  decide (names.Nodup) && !names.contains []

mutual

/-- What the checker accepts of a type that is decoded. -/
def validateJsonType : HirType → Bool
  | option (option _) => false
  | option payload => validateJsonType payload
  | list element =>
    (element.jsonScalarType || element.isStruct) && validateJsonType element
  | struct ⟨generic, _, fields⟩ =>
    !generic && namesDistinct fields && validateFields fields
  | other _ _ => false
  | _ => true

/-- An ignored field needs a default, and no other field has one. -/
def validateFields : List (HirField HirType) → Bool
  | [] => true
  | ⟨spec, type⟩ :: rest =>
    (if spec.ignored then spec.hasDefault
    else !spec.hasDefault && !spec.asBytes && validateJsonType type) &&
      validateFields rest

end

mutual

/-- The marker of ignored fields, anywhere in the type. -/
def ignoredMarker : HirType → Bool
  | option payload => ignoredMarker payload
  | list element => ignoredMarker element
  | struct ⟨_, _, fields⟩ => ignoredMarkers fields
  | _ => false

def ignoredMarkers : List (HirField HirType) → Bool
  | [] => false
  | ⟨spec, type⟩ :: rest => spec.ignored || ignoredMarker type || ignoredMarkers rest

end

mutual

/-- The marker of nested structs and lists, anywhere in the type. -/
def nestedMarker : HirType → Bool
  | option payload => nestedMarker payload
  | list element => nestedMarker element
  | struct ⟨_, _, fields⟩ => nestedMarkers fields
  | _ => false

def nestedMarkers : List (HirField HirType) → Bool
  | [] => false
  | ⟨spec, type⟩ :: rest =>
    (!spec.ignored && (type.jsonNativePayload.isList ||
      type.jsonNativePayload.isStruct || nestedMarker type)) || nestedMarkers rest

end

def alignUp (value alignment : ℕ) : ℕ :=
  (value + alignment - 1) / alignment * alignment

mutual

/-- The size and alignment of a type, with pointers of eight bytes. -/
def layout : HirType → ℕ × ℕ
  | bool => (1, 1)
  | int width _ => (width.bits / 8, width.bits / 8)
  | f32 => (4, 4)
  | float => (8, 8)
  | string => (8, 8)
  | list _ => (8, 8)
  | option payload =>
    if payload.isReference then (8, 8)
    else
      let (size, alignment) := layout payload
      (alignUp (alignUp 1 alignment + size) alignment, alignment)
  | struct ⟨_, _, fields⟩ =>
    let (cursor, alignment) := recordLayout fields 0 1
    (alignUp cursor alignment, alignment)
  | other size alignment => (size, alignment)

/-- The end of the last field and the greatest alignment. -/
def recordLayout : List (HirField HirType) → ℕ → ℕ → ℕ × ℕ
  | [], cursor, alignment => (cursor, alignment)
  | ⟨_, type⟩ :: rest, cursor, alignment =>
    let (size, own) := layout type
    recordLayout rest (alignUp cursor own + size) (max alignment own)

end

end HirType

open HirType

/-- Doubles the size while the names outnumber half of it. -/
def tableSizeLoop (names : ℕ) : ℕ → ℕ → Option ℕ
  | 0, _ => none
  | fuel + 1, size =>
    if size < names * 2 then tableSizeLoop names fuel (size * 2) else some size

/-- The size of the key table. -/
def tableSize (names : ℕ) : ℕ :=
  (tableSizeLoop names (names * 2 + 1) 2).getD 0

/-- The bucket at which the compiler begins to look for room. -/
def jsonKeySlot (name : Text) (mask : ℕ) : ℕ :=
  name.foldl (fun hash byte => (hash * 33 + byte.toNat) &&& mask) 0

/-- Steps over the taken entries; a slot outside of the table is a fault. -/
def freeSlotLoop (keys : List Key) (mask : ℕ) : ℕ → ℕ → Option ℕ
  | 0, _ => none
  | fuel + 1, slot =>
    match keys[slot]? with
    | none => none
    | some key =>
      if key.field = 0 then some slot
      else freeSlotLoop keys mask fuel ((slot + 1) &&& mask)

/-- Enters the names one by one. -/
def enterNamesLoop (mask fuel : ℕ) : List (Text × ℕ) → List Key → Option (List Key)
  | [], keys => some keys
  | (name, index) :: rest, keys =>
    match freeSlotLoop keys mask fuel (jsonKeySlot name mask) with
    | none => none
    | some slot => enterNamesLoop mask fuel rest (keys.set slot ⟨name, index + 1⟩)

/-- The key table of `json_schema` and of `xml_key_table`, with its mask. -/
def keyTableLoop (names : List (Text × ℕ)) (fuel : ℕ) : Option (List Key × ℕ) :=
  match tableSizeLoop names.length fuel 2 with
  | none => none
  | some size =>
    let mask := size - 1
    (enterNamesLoop mask fuel names (List.replicate size ⟨[], 0⟩)).map fun keys => (keys, mask)

/-- The key table, with turns enough for its loops. -/
def keyTable (names : List (Text × ℕ)) : List Key :=
  ((keyTableLoop names (names.length * 2 + 1 + tableSize names.length)).map Prod.fst).getD []

/-- The descriptor of a field, its kind given. -/
def fieldDescriptor (spec : FieldSpec) (type : HirType) (kind : Kind) :
    TypedField Kind where
  kind := kind
  optional := type.isOption
  hasDefault := spec.hasDefault
  ignored := spec.ignored
  boxedOption := false
  hasPresence := type.isOption && !type.isReference
  primaryName := spec.jsonName
  missingValue := 0

/-- The schema of a struct, its field descriptors given. -/
def schemaOf (declaration : StructType) (rootArray : Bool)
    (fields : List (TypedField Kind)) : Schema Kind where
  fields := fields
  keyMask := tableSize (fieldNames declaration.fields 0).length - 1
  keys := keyTable (fieldNames declaration.fields 0)
  allowUnknown := declaration.allowUnknown
  rootArray := rootArray
  hasMissing := false
  recordSize := (layout (.struct declaration)).1

mutual

/-- The kind of a field, with the schema of the struct it nests. -/
def kindOf : HirType → Kind
  | .option payload => kindOf payload
  | .bool => .bool
  | .int width false => .sint width
  | .int width true => .uint width
  | .f32 => .f32
  | .float => .f64
  | .string => .string
  | .list element => .list (kindOf element)
  | .struct ⟨generic, allowUnknown, fields⟩ =>
    .struct (schemaOf ⟨generic, allowUnknown, fields⟩ false (descriptors fields))
  | .other _ _ => .unsupported

def descriptors : List (HirField HirType) → List (TypedField Kind)
  | [] => []
  | ⟨spec, type⟩ :: rest =>
    fieldDescriptor spec type
        (if type.jsonNativeKind = 0 then .unsupported else kindOf type) ::
      descriptors rest

end

end Json
end Beans
