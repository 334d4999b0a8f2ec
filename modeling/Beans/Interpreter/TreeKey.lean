import Beans.Interpreter.TreeValue

/-!
# What a key stands for

The values of one hashable type, and the content of a value: its data without
the fields of its kind that no key depends on.  Two contents may differ only in
their errors, or only in the scales of decimals that are the same number.

Both the key of a value and its equality read its content.  The key forgets the
errors in it, and equality forgets the scales of its decimals, so they agree on
two values of one type unless those differ in nothing else.
-/

namespace Beans
namespace Interpreter

open Decimal

inductive StaticType where
  | unit
  | bool
  | int (bits : ℕ) (unsigned : Bool)
  | float
  | decimal
  | string
  | error
  | option (value : StaticType)
  | result (value error : StaticType)
  | array (element : StaticType) (length : ℕ)
  | declared (name : Text)

/-- A declaration with its type arguments put in. -/
inductive Declaration where
  | classDecl
  | structDecl (fields : List (Text × StaticType))
  | enumDecl (variants : List (Text × List StaticType))

/-- The value is one of the type.  A struct has a slot for each declared field,
which something was written to or not. -/
inductive HasType (program : Text → Option Declaration) :
    TreeValue → StaticType → Prop
  | unit : HasType program .unit .unit
  | bool (data : Bool) : HasType program (.bool data) .bool
  | int (bits : ℕ) (unsigned : Bool) (intData : ℤ) (uintData : ℕ) :
      HasType program (.int bits unsigned intData uintData)
        (.int bits unsigned)
  | float (data : UInt64) : HasType program (.float data) .float
  | decimal {data : BDec} :
      data.Representable → HasType program (.decimal data) .decimal
  | string (text : Text) : HasType program (.string text) .string
  | error (msg kind : Text) :
      HasType program
        (.error (ascii "Error")
          [(ascii "msg", .string msg), (ascii "kind", .string kind)])
        .error
  | object {name : Text} (objectId : ℤ) (text : Text) :
      program name = some .classDecl →
      HasType program (.object objectId text) (.declared name)
  | none (type : StaticType) : HasType program .none (.option type)
  | some {value : TreeValue} {type : StaticType} (flag : Bool) (tag : ℤ) :
      HasType program value type →
      HasType program (.seq .some [] flag tag [value]) (.option type)
  | ok {value : TreeValue} {type other : StaticType} (flag : Bool) (tag : ℤ) :
      HasType program value type →
      HasType program (.seq .ok [] flag tag [value]) (.result type other)
  | err {value : TreeValue} {type other : StaticType} (flag : Bool) (tag : ℤ) :
      HasType program value type →
      HasType program (.seq .err [] flag tag [value]) (.result other type)
  | array {items : List TreeValue} {type : StaticType} {length : ℕ}
      (flag : Bool) (tag : ℤ) :
      items.length = length →
      (∀ item ∈ items, HasType program item type) →
      HasType program (.seq .array [] flag tag items) (.array type length)
  | variant {name text : Text} {variants : List (Text × List StaticType)}
      {types : List StaticType} {items : List TreeValue} (flag : Bool)
      (tag : ℤ) :
      program name = some (.enumDecl variants) →
      AssocList.get sameText variants text = some types →
      items.length = types.length →
      (∀ (i : ℕ) (item : TreeValue) (type : StaticType),
        items[i]? = some item → types[i]? = some type →
        HasType program item type) →
      HasType program (.seq .variant text flag tag items) (.declared name)
  | record {name : Text} {declared : List (Text × StaticType)}
      {fields : List (Text × TreeValue)} (text : Text) (objectId : ℤ)
      (bytes : Option (List UInt8)) :
      program name = some (.structDecl declared) →
      (fields.map Prod.fst).Nodup →
      (fields.map Prod.fst).Perm (declared.map Prod.fst) →
      (∀ field stored type, fieldValue fields field = some stored →
        AssocList.get sameText declared field = some type →
        HasType program stored type) →
      HasType program (.record text objectId bytes fields) (.declared name)

inductive Leaf where
  | unit
  | none
  | bool (data : Bool)
  | int (data : ℤ)
  | float (data : UInt64)
  | decimal (data : BDec)
  | number (data : ℚ)
  | string (text : Text)
  | object (objectId : ℤ)
  | error (msg kind : Text)

inductive Content where
  | leaf (data : Leaf)
  | node (kind : Option SeqKind) (text : Text)
      (children : List (Text × Content))

mutual

/-- The content of a value of a hashable type. -/
def content : TreeValue → Content
  | .none => .leaf .none
  | .bool data => .leaf (.bool data)
  | .int _ unsigned intData uintData =>
    .leaf (.int (if unsigned then uintData else intData))
  | .float data => .leaf (.float data)
  | .decimal data => .leaf (.decimal data)
  | .string text => .leaf (.string text)
  | .object objectId _ => .leaf (.object objectId)
  | .error _ [(_, .string msg), (_, .string kind)] => .leaf (.error msg kind)
  | .record text _ _ fields => .node none text (arrange (fieldContents fields))
  | .seq kind text _ _ items => .node (some kind) text (itemContents items)
  | _ => .leaf .unit

def itemContents : List TreeValue → List (Text × Content)
  | [] => []
  | item :: items => ([], content item) :: itemContents items

def fieldContents :
    List (Text × TreeValue) → List (Text × Option Content)
  | [] => []
  | (name, stored) :: fields =>
    (name, if stored.isUnset then none else some (content stored)) ::
      fieldContents fields

end

mutual

def Content.map (f : Leaf → Leaf) : Content → Content
  | .leaf data => .leaf (f data)
  | .node kind text children => .node kind text (mapChildren f children)

def mapChildren (f : Leaf → Leaf) :
    List (Text × Content) → List (Text × Content)
  | [] => []
  | (name, child) :: children =>
    (name, child.map f) :: mapChildren f children

end

def Leaf.withoutError : Leaf → Leaf
  | .error _ _ => .error [] []
  | data => data

/-- A decimal as the number it is. -/
def Leaf.withoutScale : Leaf → Leaf
  | .decimal data => .number data.toRat
  | data => data

/-- The values differ, and no longer when `f` changes their data. -/
def DifferOnlyIn (f : Leaf → Leaf) (left right : TreeValue) : Prop :=
  content left ≠ content right ∧
    (content left).map f = (content right).map f

open SelfDelimiting Decimal

theorem numerals : Numerals Text.ofNat 58 where
  injective := Text.ofNat_injective
  avoids n hmem := by
    have := Text.mem_ofNat hmem
    revert this
    decide

theorem textPiece_delimited : Delimited textPiece :=
  numerals.piece_delimited

theorem sameText_iff (a b : Text) : sameText a b = true ↔ a = b :=
  beq_iff_eq

theorem sameText_equivalence : AssocList.KeyEquivalence sameText where
  refl a := (sameText_iff a a).mpr rfl
  symm a b h := (sameText_iff b a).mpr ((sameText_iff a b).mp h).symm
  trans a b c hab hbc := (sameText_iff a c).mpr
    (((sameText_iff a b).mp hab).trans ((sameText_iff b c).mp hbc))

instance : Std.Total textLe :=
  ⟨fun a b => le_total (a.map UInt8.toNat) (b.map UInt8.toNat)⟩

instance : IsTrans Text textLe :=
  ⟨fun _ _ _ hab hbc => le_trans (α := List ℕ) hab hbc⟩

theorem textLe_antisymm {a b : Text} (hab : textLe a b) (hba : textLe b a) :
    a = b := by
  have hmap : a.map UInt8.toNat = b.map UInt8.toNat := le_antisymm hab hba
  exact List.map_injective_iff.mpr (fun _ _ => UInt8.toNat_inj.mp) hmap

/-- Names in whatever order sort to the same list. -/
theorem sort_perm {names names' : List Text} (h : names.Perm names') :
    names.insertionSort textLe = names'.insertionSort textLe := by
  refine List.Perm.eq_of_pairwise
    (fun a b _ _ hab hba => textLe_antisymm hab hba)
    (List.pairwise_insertionSort textLe names)
    (List.pairwise_insertionSort textLe names') ?_
  exact (List.perm_insertionSort textLe names).trans
    (h.trans (List.perm_insertionSort textLe names').symm)

section Arrange

variable {α β : Type*}

theorem filterMap_pair_eq_iff {names : List Text} (hnodup : names.Nodup)
    (f g : Text → Option α) :
    (names.filterMap fun name => (f name).map fun a => (name, a)) =
        (names.filterMap fun name => (g name).map fun a => (name, a)) ↔
      ∀ name ∈ names, f name = g name := by
  induction names with
  | nil => simp
  | cons name names ih =>
    obtain ⟨hnot, hrest⟩ := List.nodup_cons.mp hnodup
    -- an entry of the rest has another name
    have hother : ∀ (h : Text → Option α) (a : α),
        (name, a) ∉ names.filterMap fun n => (h n).map fun a => (n, a) := by
      intro h a hmem
      obtain ⟨n, hn, heq⟩ := List.mem_filterMap.mp hmem
      obtain ⟨b, -, hb⟩ := Option.map_eq_some_iff.mp heq
      exact hnot ((Prod.mk.inj hb).1 ▸ hn)
    rw [List.forall_mem_cons, ← ih hrest, List.filterMap_cons,
      List.filterMap_cons]
    cases hf : f name with
    | none =>
      cases hg : g name with
      | none => simp
      | some b =>
        simp only [Option.map_none, Option.map_some, reduceCtorEq,
          false_and, iff_false]
        intro heq
        exact hother f b (heq ▸ List.mem_cons_self)
    | some a =>
      cases hg : g name with
      | none =>
        simp only [Option.map_none, Option.map_some, reduceCtorEq,
          false_and, iff_false]
        intro heq
        exact hother g a (heq ▸ List.mem_cons_self)
      | some b => simp

variable {name : Text}

theorem get_join_of_notMem {fields : List (Text × Option α)} (h : name ∉ fields.map Prod.fst) :
    (AssocList.get sameText fields name).join = none := by
  have hnone : AssocList.get sameText fields name = none := by
    rw [AssocList.get_eq_none_iff]
    intro e he
    rw [← Bool.not_eq_true, sameText_iff]
    exact fun heq => h (heq ▸ List.mem_map_of_mem he)
  rw [hnone]
  rfl

theorem get_of_name {entries : List (Text × α)} (h : name ∈ entries.map Prod.fst) :
    ∃ entry, AssocList.get sameText entries name = some entry := by
  rw [← Option.isSome_iff_exists, Option.isSome_iff_ne_none]
  intro hnone
  rw [AssocList.get_eq_none_iff] at hnone
  obtain ⟨e, he, rfl⟩ := List.mem_map.mp h
  have hself := (sameText_iff e.1 e.1).mpr rfl
  rw [hnone e he] at hself
  cases hself

/-- Arranged fields are the same when each name has the same written under
it. -/
theorem arrange_eq_iff {fields fields' : List (Text × Option α)}
    (hnodup : (fields.map Prod.fst).Nodup)
    (hperm : (fields.map Prod.fst).Perm (fields'.map Prod.fst)) :
    arrange fields = arrange fields' ↔
      ∀ name, (AssocList.get sameText fields name).join =
        (AssocList.get sameText fields' name).join := by
  have hsorted := List.perm_insertionSort textLe (fields.map Prod.fst)
  unfold arrange
  rw [← sort_perm hperm,
    filterMap_pair_eq_iff (hsorted.nodup_iff.mpr hnodup)]
  constructor
  · intro h name
    by_cases hmem : name ∈ fields.map Prod.fst
    · exact h name (hsorted.mem_iff.mpr hmem)
    · rw [get_join_of_notMem hmem,
        get_join_of_notMem fun hm => hmem (hperm.mem_iff.mpr hm)]
  · exact fun h name _ => h name

theorem arrange_map (f : α → β) (fields : List (Text × Option α)) :
    (arrange fields).map (fun field => (field.1, f field.2)) =
      arrange (fields.map fun field => (field.1, field.2.map f)) := by
  unfold arrange
  rw [List.map_filterMap, List.map_map]
  refine List.filterMap_congr fun name _ => ?_
  rw [AssocList.get_map]
  cases AssocList.get sameText fields name with
  | none => rfl
  | some stored => cases stored <;> rfl

end Arrange

def TreeValue.written (value : TreeValue) : Option TreeValue :=
  if value.isUnset then Option.none else Option.some value

theorem itemKeys_eq (items : List TreeValue) :
    itemKeys items = items.map treeValueKey := by
  induction items with
  | nil => rfl
  | cons item items ih => exact congrArg _ ih

theorem itemContents_eq (items : List TreeValue) :
    itemContents items = items.map fun item => ([], content item) := by
  induction items with
  | nil => rfl
  | cons item items ih => exact congrArg _ ih

theorem copyItems_eq (items : List TreeValue) :
    copyItems items = items.map treeValueCopy := by
  induction items with
  | nil => rfl
  | cons item items ih => exact congrArg _ ih

theorem mapChildren_eq (f : Leaf → Leaf) (children : List (Text × Content)) :
    mapChildren f children =
      children.map fun child => (child.1, child.2.map f) := by
  induction children with
  | nil => rfl
  | cons child children ih => exact congrArg _ ih

theorem fieldKeys_eq (fields : List (Text × TreeValue)) :
    fieldKeys fields =
      fields.map fun field => (field.1, field.2.written.map treeValueKey) := by
  induction fields with
  | nil => rfl
  | cons field fields ih =>
    unfold fieldKeys TreeValue.written
    rw [ih, List.map_cons]
    cases field.2.isUnset <;> rfl

theorem fieldContents_eq (fields : List (Text × TreeValue)) :
    fieldContents fields =
      fields.map fun field => (field.1, field.2.written.map content) := by
  induction fields with
  | nil => rfl
  | cons field fields ih =>
    unfold fieldContents TreeValue.written
    rw [ih, List.map_cons]
    cases field.2.isUnset <;> rfl

theorem copyFields_eq (fields : List (Text × TreeValue)) :
    copyFields fields =
      fields.map fun field => (field.1, treeValueCopy field.2) := by
  induction fields with
  | nil => rfl
  | cons field fields ih => exact congrArg _ ih

theorem fieldValue_eq (fields : List (Text × TreeValue)) (name : Text) :
    fieldValue fields name =
      (AssocList.get sameText fields name).bind TreeValue.written := by
  unfold fieldValue TreeValue.written
  cases AssocList.get sameText fields name with
  | none => rfl
  | some stored =>
    cases h : stored.isUnset <;> simp [h]

/-- What is written under a name, read by `f`. -/
theorem get_written {α : Type*} (f : TreeValue → α) (fields : List (Text × TreeValue))
    (name : Text) :
    (AssocList.get sameText
        (fields.map fun field => (field.1, field.2.written.map f))
        name).join = (fieldValue fields name).map f := by
  rw [AssocList.get_map (fun stored : TreeValue => stored.written.map f),
    fieldValue_eq]
  cases AssocList.get sameText fields name <;> rfl

variable {bits : UInt64} {left right : BDec} {kind kind' : SeqKind}
  {items items' : List TreeValue}

theorem toNat_lt_of_positive (h : ¬ bits >>> 63 = 1) :
    bits.toNat < 2 ^ 63 := by
  by_contra hge
  apply h
  rw [← UInt64.toNat_inj, UInt64.toNat_shiftRight]
  have := bits.toNat_lt
  change bits.toNat >>> 63 = 1
  rw [Nat.shiftRight_eq_div_pow]
  omega

theorem toNat_setTop (h : ¬ bits >>> 63 = 1) :
    (bits ||| 9223372036854775808).toNat = bits.toNat + 2 ^ 63 := by
  have hor := Nat.two_pow_add_eq_or_of_lt (toNat_lt_of_positive h) 1
  rw [UInt64.toNat_or, Nat.or_comm]
  change 9223372036854775808 ||| bits.toNat = _
  norm_num at hor ⊢
  omega

/-- A negative float lands below every positive one. -/
theorem toNat_flip_lt (h : bits >>> 63 = 1) :
    (bits ^^^ 18446744073709551615).toNat < 2 ^ 63 := by
  refine toNat_lt_of_positive ?_
  rw [UInt64.shiftRight_xor, h]
  decide

theorem treeFloatTotalKey_injective :
    Function.Injective treeFloatTotalKey := by
  intro a b h
  unfold treeFloatTotalKey at h
  split_ifs at h with ha hb hb
  · exact (UInt64.xor_left_inj _).mp h
  · have hlow := toNat_flip_lt ha
    rw [h, toNat_setTop hb] at hlow
    omega
  · have hlow := toNat_flip_lt hb
    rw [← h, toNat_setTop ha] at hlow
    omega
  · have hsame := congrArg UInt64.toNat h
    rw [toNat_setTop ha, toNat_setTop hb] at hsame
    exact UInt64.toNat_inj.mp (by omega)

theorem ieeeEqual_zero (bits : UInt64) :
    ieeeEqual bits 0 = (!isNan bits && (bits == 0 || isZero bits)) := by
  have hnan : isNan 0 = false := by decide
  have hzero : isZero 0 = true := by decide
  unfold ieeeEqual
  rw [hnan, hzero]
  simp

/-- The `Eq` of floats compares the bits. -/
theorem treeFloatTotalEqual_iff (left right : UInt64) :
    treeFloatTotalEqual left right = true ↔ left = right := by
  have hkey : (treeFloatTotalKey left == treeFloatTotalKey right) = true ↔
      left = right := by
    rw [beq_iff_eq]
    exact treeFloatTotalKey_injective.eq_iff
  unfold treeFloatTotalEqual
  by_cases hieee : ieeeEqual left right = true
  · rw [if_pos hieee]
    by_cases hzero : ieeeEqual left 0 = true
    · rw [if_neg (by simp [hzero])]
      exact hkey
    · rw [if_pos (by simp [hzero])]
      -- not a zero, so only its own bits are equal to it
      rw [ieeeEqual_zero] at hzero
      unfold ieeeEqual at hieee
      simp only [Bool.and_eq_true, Bool.or_eq_true, beq_iff_eq,
        Bool.not_eq_true'] at hieee hzero
      refine ⟨fun _ => ?_, fun _ => rfl⟩
      obtain ⟨⟨hnan, -⟩, heq | ⟨hleft, -⟩⟩ := hieee
      · exact heq
      · exact absurd ⟨hnan, Or.inr hleft⟩ hzero
  · rw [if_neg hieee]
    by_cases hself : (ieeeEqual left left || ieeeEqual right right) = true
    · rw [if_pos hself]
      refine ⟨fun h => absurd h Bool.false_ne_true, fun heq => ?_⟩
      rw [heq, Bool.or_self] at hself
      rw [heq] at hieee
      exact absurd hself hieee
    · rw [if_neg hself]
      exact hkey

theorem decimalEqual_iff (hl : left.Representable) (hr : right.Representable) :
    decimalEqual left right = true ↔ left.toRat = right.toRat := by
  have hsign : ∀ s : SignType, (s : ℤ) = 0 ↔ s = 0 := by decide
  unfold decimalEqual
  rw [beansDecCmp_spec hl hr]
  dsimp only
  rw [beq_iff_eq, hsign, sign_eq_zero_iff, sub_eq_zero]

theorem beansDecStr_inj (hl : left.Representable) (hr : right.Representable) :
    beansDecStr left = beansDecStr right ↔ left = right := by
  constructor
  · intro h
    have hback := decParseText_beansDecStr hl
    rw [h, decParseText_beansDecStr hr] at hback
    exact (Option.some.inj hback).symm
  · exact congrArg _

theorem SeqKind.name_injective : Function.Injective SeqKind.name := by
  have hall : ∀ a b : SeqKind, a.name = b.name → a = b := by
    intro a b h
    cases a <;> cases b <;> first | rfl | exact absurd h (by decide)
  exact fun a b => hall a b

theorem head_inj {mark : Text} {a b r q : Text} :
    mark ++ textPiece a ++ r = mark ++ textPiece b ++ q ↔ a = b ∧ r = q := by
  constructor
  · intro h
    rw [List.append_assoc, List.append_assoc, List.append_cancel_left_eq] at h
    exact textPiece_delimited.append_inj a b r q h
  · rintro ⟨rfl, rfl⟩
    rfl

theorem seq_key_eq_iff (hk : kind ≠ .simd) (hk' : kind' ≠ .simd) (text text' : Text)
    (flag flag' : Bool) (tag tag' : ℤ) (items items' : List TreeValue) :
    treeValueKey (.seq kind text flag tag items) =
        treeValueKey (.seq kind' text' flag' tag' items') ↔
      kind = kind' ∧ text = text' ∧
        items.map treeValueKey = items'.map treeValueKey := by
  unfold treeValueKey
  rw [if_neg hk, if_neg hk', itemKeys_eq, itemKeys_eq, List.append_assoc,
    List.append_assoc _ (textPiece text'), head_inj,
    SeqKind.name_injective.eq_iff]
  refine and_congr_right fun _ => ?_
  constructor
  · intro h
    obtain ⟨htext, hitems⟩ := textPiece_delimited.append_inj _ _ _ _ h
    exact ⟨htext, textPiece_delimited.flatMap_inj hitems⟩
  · rintro ⟨htext, hitems⟩
    rw [htext, hitems]

theorem record_key_eq_iff (text text' : Text) (objectId objectId' : ℤ)
    (bytes bytes' : Option (List UInt8)) (fields fields' : List (Text × TreeValue)) :
    treeValueKey (.record text objectId bytes fields) =
        treeValueKey (.record text' objectId' bytes' fields') ↔
      text = text' ∧
        arrange (fieldKeys fields) = arrange (fieldKeys fields') := by
  unfold treeValueKey
  rw [head_inj]
  refine and_congr_right fun _ => ?_
  constructor
  · exact (textPiece_delimited.pair textPiece_delimited).flatMap_inj
  · intro h
    rw [h]

/-- The key of a value and its equality with another read the contents. -/
structure Tells (left right : TreeValue) : Prop where
  key : treeValueKey left = treeValueKey right ↔
    (content left).map Leaf.withoutError = (content right).map Leaf.withoutError
  equal : treeValueTotalEqual left right = true ↔
    (content left).map Leaf.withoutScale = (content right).map Leaf.withoutScale

/-- Functions that tell the elements of two lists apart alike tell the lists
apart alike. -/
theorem map_eq_map_iff {α β γ : Type*} {f : α → β} {g : α → γ} {as bs : List α}
    (h : ∀ (i : ℕ) (a b : α), as[i]? = some a → bs[i]? = some b →
      (f a = f b ↔ g a = g b)) :
    as.map f = bs.map f ↔ as.map g = bs.map g := by
  induction as generalizing bs with
  | nil => cases bs <;> simp
  | cons a as ih =>
    cases bs with
    | nil => simp
    | cons b bs =>
      rw [List.map_cons, List.map_cons, List.map_cons, List.map_cons,
        List.cons.injEq, List.cons.injEq, h 0 a b rfl rfl,
        ih fun i a' b' ha hb => h (i + 1) a' b' ha hb]

theorem itemsEqual_iff {γ : Type*} {g : TreeValue → γ}
    (h : ∀ (i : ℕ) (a b : TreeValue), items[i]? = some a →
      items'[i]? = some b → (treeValueTotalEqual a b = true ↔ g a = g b)) :
    (items.length == items'.length && itemsEqual items items') = true ↔
      items.map g = items'.map g := by
  induction items generalizing items' with
  | nil => cases items' <;> simp [itemsEqual]
  | cons a items ih =>
    cases items' with
    | nil => simp
    | cons b items' =>
      have hrest := ih fun i a' b' ha hb => h (i + 1) a' b' ha hb
      rw [Bool.and_eq_true, beq_iff_eq] at hrest ⊢
      unfold itemsEqual
      rw [Bool.and_eq_true, h 0 a b rfl rfl, List.map_cons, List.map_cons,
        List.cons.injEq, ← hrest, List.length_cons, List.length_cons,
        Nat.succ_inj]
      exact and_left_comm

theorem content_seq_map (f : Leaf → Leaf) (kind : SeqKind) (text : Text) (flag : Bool) (tag : ℤ)
    (items : List TreeValue) :
    (content (.seq kind text flag tag items)).map f =
      .node (some kind) text
        ((items.map fun item => (content item).map f).map fun c => ([], c)) := by
  have hcontent : content (.seq kind text flag tag items) =
      .node (some kind) text (itemContents items) := rfl
  rw [hcontent, Content.map, mapChildren_eq, itemContents_eq, List.map_map,
    List.map_map]
  rfl

theorem content_seq_eq_iff (f : Leaf → Leaf) (text text' : Text) (flag flag' : Bool)
    (tag tag' : ℤ) (items items' : List TreeValue) :
    (content (.seq kind text flag tag items)).map f =
        (content (.seq kind' text' flag' tag' items')).map f ↔
      kind = kind' ∧ text = text' ∧
        (items.map fun item => (content item).map f) =
          items'.map fun item => (content item).map f := by
  have hpair : Function.Injective fun c : Content => (([] : Text), c) :=
    fun _ _ h => (Prod.mk.inj h).2
  rw [content_seq_map, content_seq_map, Content.node.injEq, Option.some.injEq,
    (List.map_injective_iff.mpr hpair).eq_iff]

theorem seq_tells (hk : kind ≠ .simd) (hk' : kind' ≠ .simd) {text text' : Text}
    (htext : kind = kind' → kind ≠ .variant → text = text') (flag flag' : Bool) (tag tag' : ℤ)
    (h : kind = kind' → text = text' → ∀ (i : ℕ) (a b : TreeValue),
      items[i]? = some a → items'[i]? = some b → Tells a b) :
    Tells (.seq kind text flag tag items)
      (.seq kind' text' flag' tag' items') where
  key := by
    rw [seq_key_eq_iff hk hk', content_seq_eq_iff]
    refine and_congr_right fun hkind => and_congr_right fun ht => ?_
    exact map_eq_map_iff fun i a b ha hb => (h hkind ht i a b ha hb).key
  equal := by
    rw [content_seq_eq_iff]
    unfold treeValueTotalEqual
    rw [Bool.and_eq_true, Bool.and_eq_true, Bool.and_eq_true, beq_iff_eq,
      if_neg (by rw [beq_iff_eq]; exact hk), and_assoc, and_assoc]
    refine and_congr_right fun hkind => ?_
    have hsame : (!(kind == .variant || kind == .simd) || text == text') =
        true ↔ text = text' := by
      by_cases hv : kind = .variant
      · simp [hv]
      · simp [htext hkind hv]
    rw [hsame]
    refine and_congr_right fun ht => ?_
    rw [← Bool.and_eq_true]
    exact itemsEqual_iff fun i a b ha hb => (h hkind ht i a b ha hb).equal

theorem content_record_map (f : Leaf → Leaf) (text : Text) (objectId : ℤ)
    (bytes : Option (List UInt8)) (fields : List (Text × TreeValue)) :
    (content (.record text objectId bytes fields)).map f =
      .node none text (arrange (fields.map fun field =>
        (field.1, field.2.written.map fun value => (content value).map f))) := by
  have hcontent : content (.record text objectId bytes fields) =
      .node none text (arrange (fieldContents fields)) := rfl
  have hfields : (fieldContents fields).map
      (fun field => (field.1, field.2.map (Content.map f))) =
      fields.map fun field =>
        (field.1, field.2.written.map fun value => (content value).map f) := by
    rw [fieldContents_eq, List.map_map]
    refine List.map_congr_left fun field _ => ?_
    dsimp only [Function.comp]
    rw [Option.map_map]
    rfl
  rw [hcontent, Content.map, mapChildren_eq, arrange_map, hfields]

/-- One slot against what the other record has under its name. -/
def slotEqual (stored : TreeValue) : Option TreeValue → Bool
  | some value => !stored.isUnset && treeValueTotalEqual stored value
  | none => stored.isUnset

/-- Two records compare field by field. -/
theorem fieldsEqual_iff (fields fields' : List (Text × TreeValue)) :
    fieldsEqual fields fields' = true ↔
      ∀ field ∈ fields,
        slotEqual field.2 (fieldValue fields' field.1) = true := by
  induction fields with
  | nil => simp [fieldsEqual]
  | cons field fields ih =>
    unfold fieldsEqual
    rw [Bool.and_eq_true, ih, List.forall_mem_cons]
    exact Iff.rfl

theorem map_fst_written {α : Type*} (f : TreeValue → α) (fields : List (Text × TreeValue)) :
    ((fields.map fun field => (field.1, field.2.written.map f)).map
      Prod.fst) = fields.map Prod.fst := by
  rw [List.map_map]
  rfl

section Records

variable {fields fields' : List (Text × TreeValue)}

/-- Arranged readings are the same when the readings under each name are. -/
theorem arrange_written_eq_iff {α : Type*} (f : TreeValue → α)
    (hnodup : (fields.map Prod.fst).Nodup)
    (hperm : (fields.map Prod.fst).Perm (fields'.map Prod.fst)) :
    arrange (fields.map fun field => (field.1, field.2.written.map f)) =
        arrange (fields'.map fun field => (field.1, field.2.written.map f)) ↔
      ∀ name, (fieldValue fields name).map f =
        (fieldValue fields' name).map f := by
  rw [arrange_eq_iff (by rw [map_fst_written]; exact hnodup)
    (by rw [map_fst_written, map_fst_written]; exact hperm)]
  refine forall_congr' fun name => ?_
  rw [get_written, get_written]

theorem fieldValue_of_mem (hnodup : (fields.map Prod.fst).Nodup) {field : Text × TreeValue}
    (hmem : field ∈ fields) :
    fieldValue fields field.1 = field.2.written := by
  have hdistinct : AssocList.Distinct sameText fields := by
    refine (List.pairwise_map.mp hnodup).imp fun {a b} hne => ?_
    rw [← Bool.not_eq_true, sameText_iff]
    exact hne
  rw [fieldValue_eq, AssocList.get_of_mem sameText_equivalence hdistinct hmem
    ((sameText_iff _ _).mpr rfl)]
  rfl

variable {name : Text}

theorem fieldValue_of_notMem (h : name ∉ fields.map Prod.fst) :
    fieldValue fields name = none := by
  rw [fieldValue_eq]
  have hnone : AssocList.get sameText fields name = none := by
    rw [AssocList.get_eq_none_iff]
    intro e he
    rw [← Bool.not_eq_true, sameText_iff]
    exact fun heq => h (heq ▸ List.mem_map_of_mem he)
  rw [hnone]
  rfl

theorem name_of_fieldValue {value : TreeValue} (h : fieldValue fields name = some value) :
    name ∈ fields.map Prod.fst := by
  by_contra hnot
  rw [fieldValue_of_notMem hnot] at h
  cases h

theorem option_map_eq_iff {α β γ : Type*} {f : α → β} {g : α → γ} {x y : Option α}
    (h : ∀ a b, x = some a → y = some b → (f a = f b ↔ g a = g b)) :
    x.map f = y.map f ↔ x.map g = y.map g := by
  cases x with
  | none => cases y <;> simp
  | some a =>
    cases y with
    | none => simp
    | some b => simpa using h a b rfl rfl

/-- Records with the same names are told apart by what stands under them. -/
theorem record_tells (hnodup : (fields.map Prod.fst).Nodup)
    (hperm : (fields.map Prod.fst).Perm (fields'.map Prod.fst))
    (h : ∀ name a b, fieldValue fields name = some a →
      fieldValue fields' name = some b → Tells a b)
    (text text' : Text)
    (objectId objectId' : ℤ)
    (bytes bytes' : Option (List UInt8)) :
    Tells (.record text objectId bytes fields)
      (.record text' objectId' bytes' fields') where
  key := by
    rw [record_key_eq_iff, content_record_map, content_record_map,
      Content.node.injEq, fieldKeys_eq, fieldKeys_eq,
      arrange_written_eq_iff _ hnodup hperm,
      arrange_written_eq_iff _ hnodup hperm]
    rw [eq_self_iff_true, true_and]
    refine and_congr_right fun _ => forall_congr' fun name => ?_
    exact option_map_eq_iff fun a b ha hb => (h name a b ha hb).key
  equal := by
    have hlength : fields.length = fields'.length := by
      simpa using hperm.length_eq
    rw [content_record_map, content_record_map, Content.node.injEq,
      arrange_written_eq_iff _ hnodup hperm, eq_self_iff_true, true_and]
    unfold treeValueTotalEqual
    rw [Bool.and_eq_true, Bool.and_eq_true, beq_iff_eq, hlength,
      beq_self_eq_true, eq_self_iff_true, and_true, fieldsEqual_iff]
    refine and_congr_right fun _ => ?_
    -- one field, in the words of the loop and of the contents
    have hone : ∀ field ∈ fields,
        (slotEqual field.2 (fieldValue fields' field.1) = true ↔
        (fieldValue fields field.1).map
            (fun value => (content value).map Leaf.withoutScale) =
          (fieldValue fields' field.1).map
            fun value => (content value).map Leaf.withoutScale) := by
      intro field hmem
      have hmine := fieldValue_of_mem hnodup hmem
      have htells := h field.1
      rw [hmine] at htells ⊢
      unfold TreeValue.written at htells ⊢
      unfold slotEqual
      cases hu : field.2.isUnset with
      | true => cases fieldValue fields' field.1 <;> simp
      | false =>
        rw [hu] at htells
        cases hv : fieldValue fields' field.1 with
        | none => simp
        | some value =>
          simpa using (htells field.2 value rfl hv).equal
    constructor
    · intro hall name
      by_cases hmem : name ∈ fields.map Prod.fst
      · obtain ⟨field, hfield, rfl⟩ := List.mem_map.mp hmem
        exact (hone field hfield).mp (hall field hfield)
      · rw [fieldValue_of_notMem hmem, fieldValue_of_notMem
          fun hm => hmem (hperm.mem_iff.mpr hm)]
    · exact fun hall field hfield => (hone field hfield).mpr (hall field.1)

end Records

end Interpreter
end Beans
