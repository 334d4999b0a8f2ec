import Beans.Interpreter.TreeKey

/-!
# Map keys of the interpreter

For two values of one hashable type the key and the equality agree, unless the
values differ in nothing but their errors or in nothing but the scales of
decimals.  A copy has the key of its original and is equal to it.

**Results.**
* `tree_value_key_respects_equal`: key and equality agree, and on which values they do not.
* `tree_value_key_disagrees`: two failed results with different errors have one key.
-/

namespace Beans
namespace Interpreter

open Decimal

variable {program : Text → Option Declaration}

variable {a b : Leaf} {left right : TreeValue}

theorem leaf_tells (ha : content left = .leaf a) (hb : content right = .leaf b)
    (hkey : treeValueKey left = treeValueKey right ↔
      a.withoutError = b.withoutError)
    (hequal : treeValueTotalEqual left right = true ↔
      a.withoutScale = b.withoutScale) :
    Tells left right where
  key := by
    rw [ha, hb, Content.map, Content.map, Content.leaf.injEq]
    exact hkey
  equal := by
    rw [ha, hb, Content.map, Content.map, Content.leaf.injEq]
    exact hequal

theorem int_tells (bits : ℕ) (unsigned : Bool) (intData intData' : ℤ) (uintData uintData' : ℕ) :
    Tells (.int bits unsigned intData uintData)
      (.int bits unsigned intData' uintData') := by
  cases unsigned with
  | true =>
    refine leaf_tells rfl rfl ?_ ?_
    · simp [treeValueKey, Leaf.withoutError, Text.ofNat_injective.eq_iff]
    · simp [treeValueTotalEqual, Leaf.withoutScale]
  | false =>
    refine leaf_tells rfl rfl ?_ ?_
    · simp [treeValueKey, Leaf.withoutError, Text.ofInt_injective.eq_iff]
    · simp [treeValueTotalEqual, Leaf.withoutScale]

theorem float_tells (data data' : UInt64) :
    Tells (.float data) (.float data') := by
  refine leaf_tells rfl rfl ?_ ?_
  · unfold treeValueKey
    rw [List.append_cancel_left_eq, Text.ofNat_injective.eq_iff,
      UInt64.toNat_inj, treeFloatTotalKey_injective.eq_iff]
    simp [Leaf.withoutError]
  · unfold treeValueTotalEqual
    rw [treeFloatTotalEqual_iff]
    simp [Leaf.withoutScale]

theorem decimal_tells {data data' : BDec} (h : data.Representable) (h' : data'.Representable) :
    Tells (.decimal data) (.decimal data') := by
  refine leaf_tells rfl rfl ?_ ?_
  · unfold treeValueKey
    rw [List.append_cancel_left_eq, beansDecStr_inj h h']
    simp [Leaf.withoutError]
  · unfold treeValueTotalEqual
    rw [decimalEqual_iff h h']
    simp [Leaf.withoutScale]

theorem error_tells (msg msg' kind kind' : Text) :
    Tells
      (.error (ascii "Error")
        [(ascii "msg", .string msg), (ascii "kind", .string kind)])
      (.error (ascii "Error")
        [(ascii "msg", .string msg'), (ascii "kind", .string kind')]) := by
  refine leaf_tells rfl rfl ?_ ?_
  · exact iff_of_true rfl rfl
  · have hmsg : fieldValue
        [(ascii "msg", .string msg'), (ascii "kind", .string kind')]
        (ascii "msg") = some (.string msg') := rfl
    have hkind : fieldValue
        [(ascii "msg", .string msg'), (ascii "kind", .string kind')]
        (ascii "kind") = some (.string kind') := rfl
    unfold treeValueTotalEqual
    rw [Bool.and_eq_true, fieldsEqual_iff, List.forall_mem_cons,
      List.forall_mem_singleton, hmsg, hkind]
    simp [slotEqual, treeValueTotalEqual, TreeValue.isUnset,
      Leaf.withoutScale]

/-- An absent value and a present one are told apart by both. -/
theorem none_some_tells (flag : Bool) (tag : ℤ) (value : TreeValue) :
    Tells .none (.seq .some [] flag tag [value]) ∧
      Tells (.seq .some [] flag tag [value]) .none := by
  have hkey : treeValueKey .none ≠
      treeValueKey (.seq .some [] flag tag [value]) := by
    have hnone : (treeValueKey .none).head? = some 110 := rfl
    have hsome : (treeValueKey (.seq .some [] flag tag [value])).head? =
        some 118 := rfl
    intro h
    rw [h, hsome] at hnone
    cases hnone
  refine ⟨⟨?_, ?_⟩, ⟨?_, ?_⟩⟩
  · exact iff_of_false hkey (by simp [content, Content.map])
  · exact iff_of_false (by simp [treeValueTotalEqual])
      (by simp [content, Content.map])
  · exact iff_of_false hkey.symm (by simp [content, Content.map])
  · exact iff_of_false (by simp [treeValueTotalEqual])
      (by simp [content, Content.map])

theorem tells_one {a b : TreeValue} (h : Tells a b) (i : ℕ) (x y : TreeValue)
    (hx : [a][i]? = some x) (hy : [b][i]? = some y) :
    Tells x y := by
  cases i with
  | zero =>
    cases hx
    cases hy
    exact h
  | succ i => cases hx

/-- The key and the equality of two values of one type read the contents. -/
theorem HasType.tells {type : StaticType} (hl : HasType program left type)
    (hr : HasType program right type) :
    Tells left right := by
  induction hl generalizing right with
  | unit =>
    cases hr with
    | unit =>
      exact leaf_tells rfl rfl (iff_of_true rfl rfl) (iff_of_true rfl rfl)
  | bool data =>
    cases hr with
    | bool data' =>
      refine leaf_tells rfl rfl ?_ ?_
      · cases data <;> cases data' <;>
          simp [treeValueKey, Leaf.withoutError] <;> decide
      · simp [treeValueTotalEqual, Leaf.withoutScale]
  | int bits unsigned intData uintData =>
    cases hr with
    | int _ _ intData' uintData' => exact int_tells _ _ _ _ _ _
  | float data =>
    cases hr with
    | float data' => exact float_tells data data'
  | decimal h =>
    cases hr with
    | decimal h' => exact decimal_tells h h'
  | string text =>
    cases hr with
    | string text' =>
      refine leaf_tells rfl rfl ?_ ?_
      · simp [treeValueKey, Leaf.withoutError]
      · simp [treeValueTotalEqual, Leaf.withoutScale]
  | error msg kind =>
    cases hr with
    | error msg' kind' => exact error_tells msg msg' kind kind'
  | object objectId text hclass =>
    cases hr with
    | object objectId' text' _ =>
      refine leaf_tells rfl rfl ?_ ?_
      · simp [treeValueKey, Leaf.withoutError,
          Text.ofInt_injective.eq_iff]
      · simp [treeValueTotalEqual, Leaf.withoutScale]
    | variant _ _ henum _ _ _ => rw [hclass] at henum; cases henum
    | record _ _ _ hstruct _ _ _ => rw [hclass] at hstruct; cases hstruct
  | none type =>
    cases hr with
    | none _ =>
      exact leaf_tells rfl rfl (iff_of_true rfl rfl) (iff_of_true rfl rfl)
    | some flag tag h => exact (none_some_tells flag tag _).1
  | some flag tag h ih =>
    cases hr with
    | none _ => exact (none_some_tells flag tag _).2
    | some flag' tag' h' =>
      exact seq_tells (by decide) (by decide) (fun _ _ => rfl) _ _ _ _
        fun _ _ => tells_one (ih h')
  | ok flag tag h ih =>
    cases hr with
    | ok flag' tag' h' =>
      exact seq_tells (by decide) (by decide) (fun _ _ => rfl) _ _ _ _
        fun _ _ => tells_one (ih h')
    | err flag' tag' h' =>
      exact seq_tells (by decide) (by decide) (fun _ _ => rfl) _ _ _ _
        fun hkind => by cases hkind
  | err flag tag h ih =>
    cases hr with
    | ok flag' tag' h' =>
      exact seq_tells (by decide) (by decide) (fun _ _ => rfl) _ _ _ _
        fun hkind => by cases hkind
    | err flag' tag' h' =>
      exact seq_tells (by decide) (by decide) (fun _ _ => rfl) _ _ _ _
        fun _ _ => tells_one (ih h')
  | array flag tag _ _ ih =>
    cases hr with
    | array flag' tag' _ h' =>
      exact seq_tells (by decide) (by decide) (fun _ _ => rfl) _ _ _ _
        fun _ _ i a b ha hb => ih a (List.mem_of_getElem? ha)
          (h' b (List.mem_of_getElem? hb))
  | variant flag tag henum htypes hlength _ ih =>
    cases hr with
    | object _ _ hclass => rw [henum] at hclass; cases hclass
    | record _ _ _ hstruct _ _ _ => rw [henum] at hstruct; cases hstruct
    | variant flag' tag' henum' htypes' hlength' h' =>
      rw [henum] at henum'
      cases henum'
      refine seq_tells (by decide) (by decide)
        (fun _ hk => absurd rfl hk) _ _ _ _ ?_
      intro _ htext i a b ha hb
      subst htext
      rw [htypes] at htypes'
      cases htypes'
      obtain ⟨hi, -⟩ := List.getElem?_eq_some_iff.mp ha
      rw [hlength] at hi
      have htype := List.getElem?_eq_getElem hi
      exact ih i a _ ha htype (h' i b _ hb htype)
  | record text objectId bytes hstruct hnodup hperm _ ih =>
    cases hr with
    | object _ _ hclass => rw [hstruct] at hclass; cases hclass
    | variant _ _ henum _ _ _ => rw [hstruct] at henum; cases henum
    | record text' objectId' bytes' hstruct' _ hperm' h' =>
      rw [hstruct] at hstruct'
      cases hstruct'
      refine record_tells hnodup (hperm.trans hperm'.symm) ?_ _ _ _ _ _ _
      intro name a b ha hb
      obtain ⟨type, htype⟩ :=
        get_of_name (hperm.mem_iff.mp (name_of_fieldValue ha))
      exact ih name a type ha htype (h' name b type hb htype)

theorem leaf_eq_of_both (herror : a.withoutError = b.withoutError)
    (hscale : a.withoutScale = b.withoutScale) :
    a = b := by
  cases a <;> cases b <;>
    simp_all [Leaf.withoutError, Leaf.withoutScale]

mutual

/-- Contents that agree without their errors and without their scales are the
same. -/
theorem content_eq_of_both :
    ∀ a b : Content, a.map Leaf.withoutError = b.map Leaf.withoutError →
      a.map Leaf.withoutScale = b.map Leaf.withoutScale → a = b
  | .leaf a, .leaf b, herror, hscale => by
      rw [Content.map, Content.map, Content.leaf.injEq] at herror hscale
      rw [leaf_eq_of_both herror hscale]
  | .leaf a, .node kind text children, herror, _ => by
      rw [Content.map, Content.map] at herror
      cases herror
  | .node kind text children, .leaf b, herror, _ => by
      rw [Content.map, Content.map] at herror
      cases herror
  | .node kind text children, .node kind' text' children', herror, hscale => by
      rw [Content.map, Content.map, Content.node.injEq] at herror hscale
      obtain ⟨hkind, htext, herrors⟩ := herror
      rw [hkind, htext,
        children_eq_of_both children children' herrors hscale.2.2]

theorem children_eq_of_both :
    ∀ as bs : List (Text × Content),
      mapChildren Leaf.withoutError as = mapChildren Leaf.withoutError bs →
      mapChildren Leaf.withoutScale as = mapChildren Leaf.withoutScale bs →
      as = bs
  | [], [], _, _ => rfl
  | [], (name, child) :: bs, herror, _ => by
      rw [mapChildren, mapChildren] at herror
      cases herror
  | (name, child) :: as, [], herror, _ => by
      rw [mapChildren, mapChildren] at herror
      cases herror
  | (name, child) :: as, (name', child') :: bs, herror, hscale => by
      rw [mapChildren, mapChildren, List.cons.injEq, Prod.mk.injEq]
        at herror hscale
      rw [herror.1.1,
        content_eq_of_both child child' herror.1.2 hscale.1.2,
        children_eq_of_both as bs herror.2 hscale.2]

end

theorem isUnset_copy (value : TreeValue) :
    (treeValueCopy value).isUnset = value.isUnset := by
  cases value with
  | seq kind text flag tag items =>
    unfold treeValueCopy
    split_ifs <;> rfl
  | _ => rfl

theorem written_copy (value : TreeValue) :
    (treeValueCopy value).written = value.written.map treeValueCopy := by
  unfold TreeValue.written
  rw [isUnset_copy]
  cases value.isUnset <;> rfl

mutual

theorem key_copy : ∀ value : TreeValue,
    treeValueKey (treeValueCopy value) = treeValueKey value
  | .record text objectId bytes fields => by
      unfold treeValueCopy treeValueKey
      rw [fieldKeys_copy fields]
  | .seq kind text flag tag items => by
      unfold treeValueCopy
      split_ifs with hkind
      · rfl
      · unfold treeValueKey
        rw [itemKeys_copy items]
        rfl
  | .unit => rfl
  | .unset => rfl
  | .none => rfl
  | .bool _ => rfl
  | .int _ _ _ _ => rfl
  | .float _ => rfl
  | .decimal _ => rfl
  | .string _ => rfl
  | .bytes _ => rfl
  | .object _ _ => rfl
  | .closure _ => rfl
  | .rawPtr _ => rfl
  | .slice _ _ => rfl
  | .error _ _ => rfl

theorem itemKeys_copy : ∀ items : List TreeValue,
    itemKeys (copyItems items) = itemKeys items
  | [] => rfl
  | item :: items => by
      rw [copyItems, itemKeys, itemKeys, key_copy item, itemKeys_copy items]

theorem fieldKeys_copy : ∀ fields : List (Text × TreeValue),
    fieldKeys (copyFields fields) = fieldKeys fields
  | [] => rfl
  | (name, stored) :: fields => by
      rw [copyFields, fieldKeys, fieldKeys, isUnset_copy, key_copy stored,
        fieldKeys_copy fields]

end

mutual

theorem content_copy : ∀ value : TreeValue,
    content (treeValueCopy value) = content value
  | .record text objectId bytes fields => by
      unfold treeValueCopy content
      rw [fieldContents_copy fields]
  | .seq kind text flag tag items => by
      unfold treeValueCopy
      split_ifs with hkind
      · rfl
      · unfold content
        rw [itemContents_copy items]
  | .unit => rfl
  | .unset => rfl
  | .none => rfl
  | .bool _ => rfl
  | .int _ _ _ _ => rfl
  | .float _ => rfl
  | .decimal _ => rfl
  | .string _ => rfl
  | .bytes _ => rfl
  | .object _ _ => rfl
  | .closure _ => rfl
  | .rawPtr _ => rfl
  | .slice _ _ => rfl
  | .error _ _ => rfl

theorem itemContents_copy : ∀ items : List TreeValue,
    itemContents (copyItems items) = itemContents items
  | [] => rfl
  | item :: items => by
      rw [copyItems, itemContents, itemContents, content_copy item,
        itemContents_copy items]

theorem fieldContents_copy : ∀ fields : List (Text × TreeValue),
    fieldContents (copyFields fields) = fieldContents fields
  | [] => rfl
  | (name, stored) :: fields => by
      rw [copyFields, fieldContents, fieldContents, isUnset_copy,
        content_copy stored, fieldContents_copy fields]

end

theorem fieldValue_copy (fields : List (Text × TreeValue)) (name : Text) :
    fieldValue (copyFields fields) name =
      (fieldValue fields name).map treeValueCopy := by
  rw [fieldValue_eq, fieldValue_eq, copyFields_eq, AssocList.get_map]
  cases AssocList.get sameText fields name with
  | none => rfl
  | some stored => exact written_copy stored

/-- A copy has the type of its original. -/
theorem HasType.copy {type : StaticType} {value : TreeValue} (h : HasType program value type) :
    HasType program (treeValueCopy value) type := by
  induction h with
  | unit => exact .unit
  | bool data => exact .bool data
  | int bits unsigned i u => exact .int bits unsigned i u
  | float data => exact .float data
  | decimal h => exact .decimal h
  | string text => exact .string text
  | error msg kind => exact .error msg kind
  | object objectId text h => exact .object objectId text h
  | none type => exact .none type
  | some flag tag _ ih => exact .some flag tag ih
  | ok flag tag _ ih => exact .ok flag tag ih
  | err flag tag _ ih => exact .err flag tag ih
  | array flag tag hlength _ ih =>
    refine .array flag tag ?_ ?_
    · rw [copyItems_eq, List.length_map]
      exact hlength
    · intro item hitem
      rw [copyItems_eq] at hitem
      obtain ⟨original, horiginal, rfl⟩ := List.mem_map.mp hitem
      exact ih original horiginal
  | variant flag tag henum htypes hlength _ ih =>
    refine .variant flag tag henum htypes ?_ ?_
    · rw [copyItems_eq, List.length_map]
      exact hlength
    · intro i item type hitem htype
      rw [copyItems_eq, List.getElem?_map] at hitem
      obtain ⟨original, horiginal, rfl⟩ := Option.map_eq_some_iff.mp hitem
      exact ih i original type horiginal htype
  | record text objectId bytes hstruct hnodup hperm _ ih =>
    have hnames : ∀ fields : List (Text × TreeValue),
        (copyFields fields).map Prod.fst = fields.map Prod.fst := by
      intro fields
      rw [copyFields_eq, List.map_map]
      rfl
    refine .record text objectId bytes hstruct ?_ ?_ ?_
    · rw [hnames]
      exact hnodup
    · rw [hnames]
      exact hperm
    · intro field stored type hstored htype
      rw [fieldValue_copy] at hstored
      obtain ⟨original, horiginal, rfl⟩ := Option.map_eq_some_iff.mp hstored
      exact ih field original type horiginal htype

/-- The key and the equality of two values of a type agree exactly when the
values do not differ in their errors alone and not in the scales of decimals
alone.  A copy has the same key and is equal. -/
theorem tree_value_key_respects_equal
    (program : Text → Option Declaration)
    (type : StaticType)
    (left right : TreeValue)
    (hl : HasType program left type)
    (hr : HasType program right type) :
    ((treeValueKey left = treeValueKey right ↔
        treeValueTotalEqual left right = true) ↔
      ¬ DifferOnlyIn Leaf.withoutError left right ∧
        ¬ DifferOnlyIn Leaf.withoutScale left right) ∧
    treeValueKey (treeValueCopy left) = treeValueKey left ∧
    treeValueTotalEqual (treeValueCopy left) left = true := by
  refine ⟨?_, key_copy left, ?_⟩
  · obtain ⟨hkey, hequal⟩ := hl.tells hr
    have hboth := content_eq_of_both (content left) (content right)
    have hsame : content left = content right →
        ∀ f, (content left).map f = (content right).map f := by
      intro h f
      rw [h]
    rw [hkey, hequal]
    unfold DifferOnlyIn
    constructor
    · intro hiff
      exact ⟨fun h => h.1 (hboth h.2 (hiff.mp h.2)),
        fun h => h.1 (hboth (hiff.mpr h.2) h.2)⟩
    · rintro ⟨herror, hscale⟩
      constructor
      · intro h
        by_contra hnot
        exact herror ⟨fun heq => hnot (hsame heq _), h⟩
      · intro h
        by_contra hnot
        exact hscale ⟨fun heq => hnot (hsame heq _), h⟩
  · rw [(hl.copy.tells hl).equal, content_copy]

/-- A program with one struct: two readings, the last error and a price. -/
def sampleFields : List (Text × StaticType) :=
  [(ascii "cells", .array .float 2), (ascii "last", .error), (ascii "price", .decimal)]

def sampleProgram (name : Text) : Option Declaration :=
  if name = ascii "Sample" then some (.structDecl sampleFields) else none

def sample (message : Text) (price : BDec) : TreeValue :=
  .record (ascii "Sample") 0 none
    [(ascii "cells", .seq .array [] false 0 [.float 0, .float 0x8000000000000000]),
      (ascii "last", .error (ascii "Error")
        [(ascii "msg", .string message), (ascii "kind", .string [])]),
      (ascii "price", .decimal price)]

theorem sample_typed (message : Text) {price : BDec} (h : price.Representable) :
    HasType sampleProgram (sample message price) (.declared (ascii "Sample")) := by
  refine @HasType.record _ _ sampleFields _ _ _ _ rfl (by simp; decide) (.refl _) ?_
  intro field stored type hstored htype
  have hmem : field ∈ [ascii "cells", ascii "last", ascii "price"] := name_of_fieldValue hstored
  fin_cases hmem
  · cases hstored
    cases htype
    refine .array _ _ rfl fun item hitem => ?_
    fin_cases hitem <;> exact .float _
  · cases hstored
    cases htype
    exact .error _ _
  · cases hstored
    cases htype
    exact .decimal h

/-- Samples that differ in the error and in the scale of the price at once: their keys and
the equality agree. -/
theorem tree_value_key_respects_equal_sample :
    treeValueKey (sample (ascii "a") ⟨25, 0, 1⟩) = treeValueKey (sample (ascii "b") ⟨250, 0, 2⟩) ↔
      treeValueTotalEqual (sample (ascii "a") ⟨25, 0, 1⟩) (sample (ascii "b") ⟨250, 0, 2⟩) =
        true := by
  have hcontent : ∀ message price, content (sample message price) =
      .node none (ascii "Sample")
        [(ascii "cells", .node (some .array) []
            [([], .leaf (.float 0)), ([], .leaf (.float 0x8000000000000000))]),
          (ascii "last", .leaf (.error message [])), (ascii "price", .leaf (.decimal price))] :=
    fun _ _ => rfl
  refine (tree_value_key_respects_equal sampleProgram _ _ _ (sample_typed _ ?_)
    (sample_typed _ ?_)).1.mpr ⟨?_, ?_⟩
  · decide
  · decide
  · rintro ⟨-, h⟩
    rw [hcontent, hcontent] at h
    simp [Content.map, mapChildren, Leaf.withoutError] at h
  · rintro ⟨-, h⟩
    rw [hcontent, hcontent] at h
    simp [Content.map, mapChildren, Leaf.withoutScale] at h
    exact absurd h.1 (by decide)

/-- The failed results with the errors `a` and `b` have one key. -/
theorem tree_value_key_disagrees :
    ¬ ∀ (program : Text → Option Declaration) (type : StaticType)
      (left right : TreeValue), HasType program left type →
      HasType program right type →
      (treeValueKey left = treeValueKey right ↔
        treeValueTotalEqual left right = true) := by
  intro h
  have hmerged := h (fun _ => none) (.result .bool .error) _ _
    (.err false 0 (.error (ascii "a") [])) (.err false 0 (.error (ascii "b") []))
  have hnot := hmerged.mp rfl
  revert hnot
  decide

-- 2.5 and 2.50 are equal and have two keys
example :
    treeValueKey (.decimal ⟨25, 0, 1⟩) ≠ treeValueKey (.decimal ⟨250, 0, 2⟩) ∧
      treeValueTotalEqual (.decimal ⟨25, 0, 1⟩) (.decimal ⟨250, 0, 2⟩) =
        true := by
  decide

end Interpreter
end Beans
