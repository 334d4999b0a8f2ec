import Beans.Json.OneMeaning
import Beans.Json.RecordMeaning
import Beans.Json.ScalarMeaning

/-!
# Direct storage holds the meaning

By induction on the document, what generated code loads from the storage of the
walk is the meaning of the value: nested records and lists are loaded from the
readings of their parts.
-/

namespace Beans
namespace Json

open SlotFilling HirType

variable {declaration : StructType} {rootArray : Bool} {members : Members}
  {type element : HirType} {field : HirField HirType} {value : Value}
  {maximum depth index : ℕ}

namespace HirType

mutual

/-- Every type kept in a list takes storage. -/
def elementsStored : HirType → Bool
  | option payload => elementsStored payload
  | list element => (layout element).1 != 0 && elementsStored element
  | struct ⟨_, _, fields⟩ => fieldsStored fields
  | _ => true

def fieldsStored : List (HirField HirType) → Bool
  | [] => true
  | ⟨_, type⟩ :: rest => elementsStored type && fieldsStored rest

end

/-- The checker admits the type and its structs are stored directly. -/
structure Direct (type : HirType) : Prop where
  nested : ∃ depth, directNested type depth = true
  valid : validateJsonType type = true
  stored : elementsStored type = true

theorem Direct.payload {payload : HirType} (h : Direct (option payload)) :
    Direct payload ∧ payload.isOption = false := by
  obtain ⟨⟨depth, hnested⟩, hvalid, hstored⟩ := h
  cases payload with
  | option payload => exact absurd hvalid (by simp [validateJsonType])
  | _ => exact ⟨⟨⟨depth, hnested⟩, hvalid, hstored⟩, rfl⟩

theorem kindOf_size (hvalid : validateJsonType element = true)
    (hsize : (layout element).1 ≠ 0) :
    (kindOf element).size ≠ 0 ∨ element.isOption = true := by
  cases element with
  | int width isUnsigned => cases isUnsigned <;> cases width <;> simp [kindOf, Kind.size, Width.bits]
  | option _ => exact Or.inr rfl
  | struct declaration => exact Or.inl hsize
  | other _ _ => exact absurd hvalid (by simp [validateJsonType])
  | _ => exact Or.inl (by simp [kindOf, Kind.size])

theorem Direct.item (h : Direct (list element)) :
    Direct element ∧ element.isOption = false ∧ (kindOf element).size ≠ 0 := by
  obtain ⟨⟨depth, hnested⟩, hvalid, hstored⟩ := h
  rw [validateJsonType, Bool.and_eq_true, Bool.or_eq_true] at hvalid
  rw [elementsStored, Bool.and_eq_true, bne_iff_ne] at hstored
  have hoption : element.isOption = false := by
    cases element with
    | option _ => exact absurd hvalid.1 (by simp [jsonScalarType, isStruct])
    | _ => rfl
  refine ⟨⟨⟨depth, hnested⟩, hvalid.2, hstored.2⟩, hoption, ?_⟩
  exact (kindOf_size hvalid.2 hstored.1).resolve_right (by simp [hoption])

/-- A field of a struct with direct storage. -/
structure DirectField (field : HirField HirType) : Prop where
  kept : field.spec.ignored = false
  undefaulted : field.spec.hasDefault = false
  kind : field.type.jsonNativeKind ≠ 0
  direct : Direct field.type

theorem directField_of (fields : List (HirField HirType)) (depth depth' : ℕ)
    (hnative : nativeFields fields depth' = true)
    (hdirect : directFields fields depth = true)
    (hvalid : validateFields fields = true)
    (hstored : fieldsStored fields = true) :
    ∀ field ∈ fields, DirectField field := by
  induction fields with
  | nil => exact fun _ h => absurd h List.not_mem_nil
  | cons first rest ih =>
    obtain ⟨spec, type⟩ := first
    rw [nativeFields, Bool.and_eq_true] at hnative
    simp only [directFields, Bool.and_eq_true, Bool.not_eq_true'] at hdirect
    obtain ⟨⟨⟨hdefault, hignored⟩, htype⟩, hrest⟩ := hdirect
    rw [validateFields, Bool.and_eq_true] at hvalid
    rw [fieldsStored, Bool.and_eq_true] at hstored
    simp only [hignored, Bool.false_or, Bool.and_eq_true, bne_iff_ne] at hnative
    simp only [hignored, Bool.false_eq_true, if_false, Bool.and_eq_true] at hvalid
    exact List.forall_mem_cons.mpr ⟨⟨hignored, hdefault, hnative.1.1,
      ⟨⟨depth, htype⟩, hvalid.1.2, hstored.1⟩⟩,
      ih hnative.2 hrest hvalid.2 hstored.2⟩

theorem Direct.record (h : Direct (struct declaration)) :
    namesDistinct declaration.fields = true ∧
      ∀ field ∈ declaration.fields, DirectField field := by
  obtain ⟨⟨depth, hnested⟩, hvalid, hstored⟩ := h
  obtain ⟨generic, allowUnknown, fields⟩ := declaration
  rw [directNested] at hnested
  split_ifs at hnested with hlimit
  simp only [Bool.or_eq_true, decide_eq_true_eq, Bool.not_eq_true', not_or, not_lt,
    Bool.not_eq_false] at hlimit
  have hnative := hlimit.2
  rw [nativeNested, if_neg (not_lt.mpr hlimit.1), Bool.and_eq_true] at hnative
  simp only [validateJsonType, Bool.and_eq_true] at hvalid
  exact ⟨hvalid.1.2, directField_of fields _ _ hnative.2 hnested hvalid.2 hstored⟩

end HirType

/-- The value of one field. -/
def loadField (field : HirField HirType) (cell : Cell Stored) : Datum :=
  match field.type with
  | .option payload =>
    if payload.isReference then
      match cell.value with
      | .word _ => .absent
      | stored => .present (loadPayload payload stored)
    else if cell.present then .present (loadPayload payload cell.value)
    else .absent
  | type => loadPayload type cell.value

theorem loadFields_eq (fields : List (HirField HirType)) (cells : List (Cell Stored)) :
    loadFields fields cells = List.zipWith loadField fields cells := by
  induction fields generalizing cells with
  | nil => cases cells <;> rfl
  | cons field fields ih =>
    cases cells with
    | nil => rfl
    | cons cell cells =>
      have hcons : loadFields (field :: fields) (cell :: cells) =
          loadField field cell :: loadFields fields cells := by
        obtain ⟨_, type⟩ := field
        obtain ⟨stored, _⟩ := cell
        cases type with
        | option payload => cases stored <;> rfl
        | _ => rfl
      rw [hcons, List.zipWith_cons_cons, ih]

mutual

/-- Allocation numbers do not matter to what is loaded. -/
theorem loadPayload_plain :
    ∀ (stored : Stored) (type : HirType),
      loadPayload type stored.plain = loadPayload type stored
  | .word _, _ => rfl
  | .text _ _, _ => rfl
  | .box _ content, type => by
      rw [Stored.plain, loadPayload, loadPayload, loadPayload_plain content]
  | .record cells, type => by
      rw [Stored.plain]
      cases type with
      | struct declaration =>
        rw [loadPayload, loadPayload, loadFields_plain cells]
      | _ => rfl
  | .list _ items, type => by
      rw [Stored.plain]
      cases type with
      | list element => rw [loadPayload, loadPayload, loadItems_plain items]
      | _ => rfl

theorem loadFields_plain :
    ∀ (cells : List (Cell Stored)) (fields : List (HirField HirType)),
      loadFields fields (plainCells cells) = loadFields fields cells
  | [], fields => rfl
  | ⟨stored, present⟩ :: rest, [] => by
      rw [loadFields_eq, loadFields_eq, List.zipWith_nil_left, List.zipWith_nil_left]
  | ⟨stored, present⟩ :: rest, field :: fields => by
      have hrest := loadFields_plain rest fields
      have hstored := loadPayload_plain stored
      rw [plainCells, loadFields, loadFields, hrest]
      congr 1
      cases field.type with
      | option payload =>
        have hpayload := hstored payload
        cases stored <;> simp_all [Stored.plain]
      | _ => exact hstored _

theorem loadItems_plain :
    ∀ (items : List Stored) (element : HirType),
      loadItems element (plainItems items) = loadItems element items
  | [], _ => rfl
  | item :: rest, element => by
      rw [plainItems, loadItems, loadItems, loadPayload_plain item, loadItems_plain rest]

end

end Json
end Beans
