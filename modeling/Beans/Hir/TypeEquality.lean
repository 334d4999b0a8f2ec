import Beans.Hir.TypeKeys

/-!
# Equal types have one key

The comparison without keys walks two types and answers whether they mean the same
shape, which is whether their keys are the same.  Types that are identical part by
part are equal.

Arguments left out have a default (the error of a `Result`, the unit result of a function),
so that two spellings of a type have one shape.

**Results.**
* `type_keys`: the walk, the keys and the shapes make the same types equal.
-/

namespace Beans
namespace Hir

/-- The comparison of the arguments at an index, as the comparison of types makes it. -/
def argumentsEqual (left right : HirType) (index : ℕ) : Bool :=
  if _h : index < left.args.length then
    match right.args[index]? with
    | some second => hirTypeKeysEqual left.args[index] second
    | none => false
  else false

theorem hirTypeKeysEqual_eq (left right : HirType) :
    hirTypeKeysEqual left right =
      if canonicalHirName left.name ≠ canonicalHirName right.name then false
      else if canonicalHirName left.name = ascii "array" then
        left.arrayLength == right.arrayLength && argumentsEqual left right 0
      else if canonicalHirName left.name = ascii "fn" then
        left.fnParameterCount == right.fnParameterCount && left.fnSendable == right.fnSendable &&
          (List.range left.fnParameterCount.toNat).all (argumentsEqual left right) &&
          hirTypeKeysEqual (hirFnResult left) (hirFnResult right)
      else if canonicalHirName left.name = ascii "Result" ∧
          1 ≤ left.args.length ∧ left.args.length ≤ 2 ∧
          1 ≤ right.args.length ∧ right.args.length ≤ 2 then
        argumentsEqual left right 0 &&
          hirTypeKeysEqual (hirResultError left) (hirResultError right)
      else
        left.args.length == right.args.length &&
          (List.range left.args.length).all (argumentsEqual left right) := by
  rw [hirTypeKeysEqual]
  rfl

/-- Types that compare as their shapes do. -/
def ComparesShapes (left right : HirType) : Prop :=
  hirTypeKeysEqual left right = true ↔ left.shape = right.shape

theorem argumentsEqual_iff {left right : HirType} {index : ℕ}
    (hleft : index < left.args.length)
    (h : ∀ first ∈ left.args, ∀ second ∈ right.args, ComparesShapes first second) :
    argumentsEqual left right index = true ↔
      (left.args.map HirType.shape)[index]? = (right.args.map HirType.shape)[index]? := by
  rw [argumentsEqual, dif_pos hleft, List.getElem?_map, List.getElem?_map,
    List.getElem?_eq_getElem hleft]
  cases _hright : right.args[index]? with
  | none => simp
  | some second =>
    simp only [Option.map_some, Option.some.injEq]
    exact h _ (List.getElem_mem hleft) _ (List.mem_of_getElem? _hright)

theorem all_argumentsEqual_iff {left right : HirType} {count : ℕ}
    (hleft : count ≤ left.args.length)
    (_hright : count ≤ right.args.length)
    (h : ∀ first ∈ left.args, ∀ second ∈ right.args, ComparesShapes first second) :
    (List.range count).all (argumentsEqual left right) = true ↔
      (left.args.map HirType.shape).take count = (right.args.map HirType.shape).take count := by
  rw [List.all_eq_true]
  constructor
  · intro hall
    refine List.ext_getElem? fun index => ?_
    rw [List.getElem?_take, List.getElem?_take]
    split_ifs with hindex
    · exact (argumentsEqual_iff (by omega) h).mp (hall index (List.mem_range.mpr hindex))
    · rfl
  · intro heq index hmem
    have hindex := List.mem_range.mp hmem
    refine (argumentsEqual_iff (by omega) h).mpr ?_
    have hget := congrArg (fun l : List Shape => l[index]?) heq
    simpa only [List.getElem?_take, if_pos hindex] using hget

theorem wellFormed_args {type : HirType} (h : type.WellFormed) :
    ∀ arg ∈ type.args, arg.WellFormed := by
  obtain ⟨name, args, arrayLength, fnParameterCount, fnSendable⟩ := type
  rw [HirType.WellFormed, allWellFormed_iff] at h
  exact h.2

theorem wellFormed_new {name : Text} (h : IsTypeName name) : (HirType.new name).WellFormed := by
  rw [HirType.new, HirType.WellFormed, if_neg h.2.1, if_neg h.2.2.1]
  exact ⟨h, trivial⟩

theorem isTypeName_unit : IsTypeName (ascii "unit") :=
  Shape.unit_ok.1

theorem isTypeName_error : IsTypeName (ascii "Error") :=
  Shape.error_ok.1

theorem shape_array {type : HirType}
    (h : type.WellFormed)
    (hname : type.name = ascii "array") :
    ∃ element, type.args = [element] ∧ type.shape = .array element.shape type.arrayLength := by
  obtain ⟨name, args, arrayLength, fnParameterCount, fnSendable⟩ := type
  obtain rfl : name = ascii "array" := hname
  rw [HirType.WellFormed, if_pos rfl] at h
  obtain ⟨element, rfl⟩ := List.length_eq_one_iff.mp h.1
  exact ⟨element, rfl, by rw [HirType.shape, if_pos rfl]; rfl⟩

theorem shape_named {type : HirType}
    (harray : type.name ≠ ascii "array")
    (hfn : type.name ≠ ascii "fn") :
    type.shape = .named (canonicalHirName type.name)
      (if canonicalHirName type.name = ascii "Result" ∧ type.args.length = 1 then
        type.args.map HirType.shape ++ [.error]
      else type.args.map HirType.shape) := by
  obtain ⟨name, args, arrayLength, fnParameterCount, fnSendable⟩ := type
  have harray' : name ≠ ascii "array" := harray
  have hfn' : name ≠ ascii "fn" := hfn
  rw [HirType.shape, if_neg harray', if_neg hfn', shapes_eq]
  rfl

theorem shape_unit : (HirType.new (ascii "unit")).shape = .unit := by
  rw [shape_named (by decide) (by decide), if_neg (by decide)]
  rfl

theorem shape_error : (HirType.new (ascii "Error")).shape = .error := by
  rw [shape_named (by decide) (by decide), if_neg (by decide)]
  rfl

/-- The result of a function, written or not. -/
theorem hirFnResult_cases (type : HirType) (h : 0 ≤ type.fnParameterCount) :
    (∃ result, type.args[type.fnParameterCount.toNat]? = some result ∧
      type.fnParameterCount < type.args.length ∧ hirFnResult type = result) ∨
    (¬ type.fnParameterCount < type.args.length ∧
      hirFnResult type = .new (ascii "unit")) := by
  rw [hirFnResult]
  by_cases hwritten : type.fnParameterCount < type.args.length
  · have hlt : type.fnParameterCount.toNat < type.args.length := by omega
    rw [if_pos ⟨h, hwritten⟩, List.getD_eq_getElem _ _ hlt]
    exact Or.inl ⟨_, List.getElem?_eq_getElem hlt, hwritten, rfl⟩
  · rw [if_neg fun h => hwritten h.2]
    exact Or.inr ⟨hwritten, rfl⟩

theorem shape_fn {type : HirType}
    (h : type.WellFormed)
    (hname : type.name = ascii "fn") :
    0 ≤ type.fnParameterCount ∧ type.fnParameterCount ≤ type.args.length ∧
      (hirFnResult type).WellFormed ∧
      type.shape = .fn type.fnSendable
        ((type.args.map HirType.shape).take type.fnParameterCount.toNat)
        (hirFnResult type).shape := by
  have hargs := wellFormed_args h
  have hcounts : 0 ≤ type.fnParameterCount ∧
      type.fnParameterCount ≤ type.args.length := by
    obtain ⟨name, args, arrayLength, fnParameterCount, fnSendable⟩ := type
    obtain rfl : name = ascii "fn" := hname
    rw [HirType.WellFormed, if_neg (by decide), if_pos rfl] at h
    obtain ⟨⟨hnonneg, hcount⟩, -⟩ := h
    simp only [HirType.args, HirType.fnParameterCount]
    omega
  have hshape : type.shape = .fn type.fnSendable
      ((type.args.map HirType.shape).take type.fnParameterCount.toNat)
      (if type.fnParameterCount < type.args.length then
        (type.args.map HirType.shape).getD type.fnParameterCount.toNat .unit
      else .unit) := by
    obtain ⟨name, args, arrayLength, fnParameterCount, fnSendable⟩ := type
    obtain rfl : name = ascii "fn" := hname
    rw [HirType.shape, if_neg (by decide), if_pos rfl, shapes_eq]
    rfl
  refine ⟨hcounts.1, hcounts.2, ?_⟩
  rcases hirFnResult_cases type hcounts.1 with ⟨result, hget, hwritten, hresult⟩ |
    ⟨hwritten, hresult⟩
  · rw [hresult, hshape, if_pos hwritten, List.getD_eq_getElem?_getD, List.getElem?_map, hget]
    exact ⟨hargs result (List.mem_of_getElem? hget), rfl⟩
  · rw [hresult, hshape, if_neg hwritten, shape_unit]
    exact ⟨wellFormed_new isTypeName_unit, rfl⟩

/-- A `Result` with one argument or two. -/
theorem shape_result {type : HirType}
    (h : type.WellFormed)
    (hname : canonicalHirName type.name = ascii "Result")
    (hargs : 1 ≤ type.args.length ∧ type.args.length ≤ 2) :
    (hirResultError type).WellFormed ∧
      ∃ value, type.args[0]? = some value ∧
        type.shape = .named (ascii "Result") [value.shape, (hirResultError type).shape] := by
  have hwell := wellFormed_args h
  have harray : type.name ≠ ascii "array" := by
    intro h
    rw [h] at hname
    exact absurd hname (by decide)
  have hfn : type.name ≠ ascii "fn" := by
    intro h
    rw [h] at hname
    exact absurd hname (by decide)
  rw [shape_named harray hfn, hname, hirResultError]
  rcases hlist : type.args with _ | ⟨value, _ | ⟨error, _ | ⟨third, rest⟩⟩⟩
  · simp [hlist] at hargs
  · refine ⟨?_, value, rfl, ?_⟩
    · exact wellFormed_new isTypeName_error
    · rw [if_pos ⟨rfl, rfl⟩, if_neg (by simp), shape_error]
      rfl
  · refine ⟨?_, value, rfl, ?_⟩
    · exact hwell error (by simp [hlist])
    · simp
  · simp [hlist] at hargs

section Comparing

variable {left right : HirType}
  (hleft : left.WellFormed)
  (hright : right.WellFormed)
  (hargs : ∀ first ∈ left.args, ∀ second ∈ right.args, ComparesShapes first second)

include hleft hright hargs

theorem compares_array (hname : left.name = ascii "array")
    (hname' : right.name = ascii "array") :
    (left.arrayLength == right.arrayLength && argumentsEqual left right 0) = true ↔
      left.shape = right.shape := by
  obtain ⟨element, helement, hshape⟩ := shape_array hleft hname
  obtain ⟨element', helement', hshape'⟩ := shape_array hright hname'
  have hfirst := @argumentsEqual_iff left right 0 (by simp [helement]) hargs
  rw [helement, helement'] at hfirst
  rw [Bool.and_eq_true, hfirst, beq_iff_eq, hshape, hshape', Shape.array.injEq]
  simp [and_comm]

theorem compares_fn (hname : left.name = ascii "fn") (hname' : right.name = ascii "fn")
    (hresult : ComparesShapes (hirFnResult left) (hirFnResult right)) :
    (left.fnParameterCount == right.fnParameterCount && left.fnSendable == right.fnSendable &&
        (List.range left.fnParameterCount.toNat).all (argumentsEqual left right) &&
        hirTypeKeysEqual (hirFnResult left) (hirFnResult right)) = true ↔
      left.shape = right.shape := by
  obtain ⟨hnonneg, hcount, -, hshape⟩ := shape_fn hleft hname
  obtain ⟨hnonneg', hcount', -, hshape'⟩ := shape_fn hright hname'
  rw [hshape, hshape', Shape.fn.injEq]
  simp only [Bool.and_eq_true, beq_iff_eq]
  constructor
  · rintro ⟨⟨⟨hsame, hsend⟩, hparams⟩, hresults⟩
    refine ⟨hsend, ?_, hresult.mp hresults⟩
    rw [← hsame]
    exact (all_argumentsEqual_iff (by omega) (by omega) hargs).mp hparams
  · rintro ⟨hsend, hparams, hresults⟩
    have hsame : left.fnParameterCount = right.fnParameterCount := by
      have hlength := congrArg List.length hparams
      simp only [List.length_take, List.length_map] at hlength
      omega
    refine ⟨⟨⟨hsame, hsend⟩, ?_⟩, hresult.mpr hresults⟩
    rw [← hsame] at hparams
    exact (all_argumentsEqual_iff (by omega) (by omega) hargs).mpr hparams

theorem compares_result (hname : canonicalHirName left.name = ascii "Result")
    (hname' : canonicalHirName right.name = ascii "Result")
    (hcount : 1 ≤ left.args.length ∧ left.args.length ≤ 2)
    (hcount' : 1 ≤ right.args.length ∧ right.args.length ≤ 2)
    (herror : ComparesShapes (hirResultError left) (hirResultError right)) :
    (argumentsEqual left right 0 &&
        hirTypeKeysEqual (hirResultError left) (hirResultError right)) = true ↔
      left.shape = right.shape := by
  obtain ⟨-, value, hvalue, hshape⟩ := shape_result hleft hname hcount
  obtain ⟨-, value', hvalue', hshape'⟩ := shape_result hright hname' hcount'
  rw [Bool.and_eq_true, argumentsEqual_iff (by omega) hargs, List.getElem?_map,
    List.getElem?_map, hvalue, hvalue', hshape, hshape']
  rw [ComparesShapes] at herror
  simp [herror]

omit hleft hright in
theorem compares_named (hname : canonicalHirName left.name = canonicalHirName right.name)
    (harray : canonicalHirName left.name ≠ ascii "array")
    (hfn : canonicalHirName left.name ≠ ascii "fn")
    (hresult : ¬ (canonicalHirName left.name = ascii "Result" ∧
      1 ≤ left.args.length ∧ left.args.length ≤ 2 ∧
      1 ≤ right.args.length ∧ right.args.length ≤ 2)) :
    (left.args.length == right.args.length &&
        (List.range left.args.length).all (argumentsEqual left right)) = true ↔
      left.shape = right.shape := by
  have harray' : canonicalHirName right.name ≠ ascii "array" := by rwa [← hname]
  have hfn' : canonicalHirName right.name ≠ ascii "fn" := by rwa [← hname]
  rw [shape_named (fun h => harray (canonicalHirName_array.mpr h))
      (fun h => hfn (canonicalHirName_fn.mpr h)),
    shape_named (fun h => harray' (canonicalHirName_array.mpr h))
      (fun h => hfn' (canonicalHirName_fn.mpr h)), ← hname]
  simp only [Bool.and_eq_true, beq_iff_eq, Shape.named.injEq, true_and]
  constructor
  · rintro ⟨hsame, hall⟩
    have hequal := (all_argumentsEqual_iff le_rfl (by omega) hargs).mp hall
    rw [List.take_of_length_le (by simp), List.take_of_length_le (by simp [hsame])] at hequal
    rw [hequal, hsame]
  · intro hequal
    have hlength := congrArg List.length hequal
    have hplain : left.args.length = right.args.length ∧
        left.args.map HirType.shape = right.args.map HirType.shape := by
      split_ifs at hequal hlength with h h' h'
      · exact absurd ⟨h.1, by omega, by omega, by omega, by omega⟩ hresult
      · simp only [List.length_append, List.length_map, List.length_singleton] at hlength
        exact absurd ⟨h.1, by omega, by omega, by omega, by omega⟩ hresult
      · simp only [List.length_append, List.length_map, List.length_singleton] at hlength
        exact absurd ⟨h'.1, by omega, by omega, by omega, by omega⟩ hresult
      · simp only [List.length_map] at hlength
        exact ⟨hlength, hequal⟩
    refine ⟨hplain.1, (all_argumentsEqual_iff le_rfl (by omega) hargs).mpr ?_⟩
    rw [hplain.2]

end Comparing

/-- The comparison without keys compares shapes. -/
theorem comparesShapes {left right : HirType}
    (hleft : left.WellFormed)
    (hright : right.WellFormed) :
    ComparesShapes left right := by
  induction hrank : left.rank using Nat.strong_induction_on generalizing left right with
  | _ rank ih =>
  have hargs : ∀ first ∈ left.args, ∀ second ∈ right.args, ComparesShapes first second := by
    intro first hfirst second hsecond
    obtain ⟨i, hi⟩ := List.mem_iff_getElem?.mp hfirst
    exact ih _ (hrank ▸ rank_arg hi) (wellFormed_args hleft first hfirst)
      (wellFormed_args hright second hsecond) rfl
  rw [ComparesShapes, hirTypeKeysEqual_eq]
  by_cases hname : canonicalHirName left.name = canonicalHirName right.name
  · rw [if_neg (not_not.mpr hname)]
    by_cases harray : canonicalHirName left.name = ascii "array"
    · rw [if_pos harray]
      exact compares_array hleft hright hargs (canonicalHirName_array.mp harray)
        (canonicalHirName_array.mp (hname ▸ harray))
    rw [if_neg harray]
    by_cases hfn : canonicalHirName left.name = ascii "fn"
    · rw [if_pos hfn]
      have hfn' := canonicalHirName_fn.mp hfn
      have hfn'' := canonicalHirName_fn.mp (hname ▸ hfn)
      refine compares_fn hleft hright hargs hfn' hfn'' ?_
      exact ih _ (hrank ▸ rank_fnResult hfn) (shape_fn hleft hfn').2.2.1
        (shape_fn hright hfn'').2.2.1 rfl
    rw [if_neg hfn]
    by_cases hresult : canonicalHirName left.name = ascii "Result" ∧
        1 ≤ left.args.length ∧ left.args.length ≤ 2 ∧
        1 ≤ right.args.length ∧ right.args.length ≤ 2
    · rw [if_pos hresult]
      obtain ⟨hresult, hlow, hhigh, hlow', hhigh'⟩ := hresult
      refine compares_result hleft hright hargs hresult (hname ▸ hresult) ⟨hlow, hhigh⟩
        ⟨hlow', hhigh'⟩ ?_
      exact ih _ (hrank ▸ rank_resultError hresult)
        (shape_result hleft hresult ⟨hlow, hhigh⟩).1
        (shape_result hright (hname ▸ hresult) ⟨hlow', hhigh'⟩).1 rfl
    · rw [if_neg hresult]
      exact compares_named hargs hname harray hfn hresult
  · rw [if_pos hname]
    refine iff_of_false (by simp) fun hshape => hname ?_
    rw [← left.head_shape, ← right.head_shape, hshape]

theorem argumentsIdentical_shapes {lefts rights : List HirType}
    (hlength : lefts.length = rights.length)
    (ih : ∀ left ∈ lefts, ∀ right, hirTypesIdentical left right = true →
      left.shape = right.shape)
    (h : argumentsIdentical lefts rights = true) :
    shapes lefts = shapes rights := by
  induction lefts generalizing rights with
  | nil =>
    cases rights with
    | nil => rfl
    | cons right rights => simp at hlength
  | cons left lefts ihl =>
    cases rights with
    | nil => simp at hlength
    | cons right rights =>
      rw [argumentsIdentical, Bool.and_eq_true] at h
      rw [List.forall_mem_cons] at ih
      rw [shapes, shapes, ih.1 right h.1, ihl (by simpa using hlength) ih.2 h.2]

/-- Identical types mean the same. -/
theorem shape_of_identical {left : HirType} :
    ∀ right, hirTypesIdentical left right = true → left.shape = right.shape := by
  induction left using HirType.induction with
  | h left ih =>
  intro right h
  obtain ⟨name, args, arrayLength, fnParameterCount, fnSendable⟩ := left
  obtain ⟨name', args', arrayLength', fnParameterCount', fnSendable'⟩ := right
  rw [hirTypesIdentical] at h
  simp only [Bool.and_eq_true, beq_iff_eq, HirType.name, HirType.args, HirType.arrayLength,
    HirType.fnParameterCount, HirType.fnSendable] at h
  obtain ⟨⟨⟨⟨⟨hname, hlength⟩, rfl⟩, rfl⟩, rfl⟩, hargs⟩ := h
  have hshapes := argumentsIdentical_shapes hlength ih hargs
  have harray : name = ascii "array" ↔ name' = ascii "array" := by
    rw [← canonicalHirName_array, hname, canonicalHirName_array]
  have hfn : name = ascii "fn" ↔ name' = ascii "fn" := by
    rw [← canonicalHirName_fn, hname, canonicalHirName_fn]
  rw [HirType.shape, HirType.shape]
  simp only [harray, hfn, hname, hlength, hshapes]

/-- A type as the checker builds it. -/
def CheckedType : Type :=
  { type : HirType // type.WellFormed }

theorem shape_iff_key (left right : CheckedType) :
    left.1.shape = right.1.shape ↔ hirTypeKey left.1 = hirTypeKey right.1 := by
  rw [hirTypeKey_eq left.2, hirTypeKey_eq right.2]
  refine ⟨congrArg Shape.key, fun h => ?_⟩
  refine (Shape.key_append_inj _ (HirType.shape_ok left.2) _ (HirType.shape_ok right.2) [] []
    (by simp [Ends]) (by simp [Ends]) ?_).1
  rw [List.append_nil, List.append_nil, h]

/-- Equal types are the ones with one key, and a key belongs to one shape. -/
theorem type_keys :
    (∀ left right : CheckedType,
      (hirTypeKeysEqual left.1 right.1 = true ↔ hirTypeKey left.1 = hirTypeKey right.1) ∧
      (hirTypeKey left.1 = hirTypeKey right.1 ↔ left.1.shape = right.1.shape) ∧
      (hirTypesIdentical left.1 right.1 = true →
        hirTypeKeysEqual left.1 right.1 = true ∧ hirTypeKey left.1 = hirTypeKey right.1)) ∧
      Equivalence fun left right : CheckedType => hirTypeKeysEqual left.1 right.1 = true := by
  have hequal : ∀ left right : CheckedType,
      hirTypeKeysEqual left.1 right.1 = true ↔ hirTypeKey left.1 = hirTypeKey right.1 :=
    fun left right => (comparesShapes left.2 right.2).trans (shape_iff_key left right)
  refine ⟨fun left right => ⟨hequal left right, (shape_iff_key left right).symm,
    fun h => ?_⟩, ?_, ?_, ?_⟩
  · have hkey := (shape_iff_key left right).mp (shape_of_identical right.1 h)
    exact ⟨(hequal left right).mpr hkey, hkey⟩
  · exact fun type => (hequal type type).mpr rfl
  · exact fun {left right} h => (hequal right left).mpr ((hequal left right).mp h).symm
  · exact fun {first second third} h h' =>
      (hequal first third).mpr (((hequal first second).mp h).trans ((hequal second third).mp h'))

instance : DecidablePred IsTypeName := fun _ =>
  inferInstanceAs (Decidable (_ ∧ _ ∧ _ ∧ ∀ b ∈ _, isNameByte b = true))

theorem results_wellFormed :
    (HirType.mk (ascii "Result") [.new (ascii "i64")] (-1) (-1) false).WellFormed ∧
      (HirType.mk (ascii "Result") [.new (ascii "int"), .new (ascii "Error")] (-1) (-1)
        false).WellFormed := by
  simp only [HirType.WellFormed, AllWellFormed, HirType.new]
  decide +kernel

/-- A result that leaves its error out, of a number under an alias, and one that names
both. -/
def briefResult : CheckedType :=
  ⟨.mk (ascii "Result") [.new (ascii "i64")] (-1) (-1) false, results_wellFormed.1⟩

def fullResult : CheckedType :=
  ⟨.mk (ascii "Result") [.new (ascii "int"), .new (ascii "Error")] (-1) (-1) false,
    results_wellFormed.2⟩

theorem visitors_wellFormed :
    (HirType.mk (ascii "fn") [.mk (ascii "array") [briefResult.1] 4 (-1) false] (-1) 1
        true).WellFormed ∧
      (HirType.mk (ascii "fn") [.mk (ascii "array") [fullResult.1] 4 (-1) false,
        .new (ascii "unit")] (-1) 1 true).WellFormed :=
  ⟨⟨by decide +kernel, ⟨by decide +kernel, briefResult.2, trivial⟩, trivial⟩,
    ⟨by decide +kernel, ⟨by decide +kernel, fullResult.2, trivial⟩,
      ⟨by decide +kernel, trivial⟩, trivial⟩⟩

/-- A sendable function of four results that leaves out that it gives `unit`, and one
that says so. -/
def briefVisitor : CheckedType :=
  ⟨.mk (ascii "fn") [.mk (ascii "array") [briefResult.1] 4 (-1) false] (-1) 1 true,
    visitors_wellFormed.1⟩

def fullVisitor : CheckedType :=
  ⟨.mk (ascii "fn") [.mk (ascii "array") [fullResult.1] 4 (-1) false, .new (ascii "unit")]
      (-1) 1 true,
    visitors_wellFormed.2⟩

/-- The same `send fn` over an array of results, with and without its defaults written out. -/
theorem type_keys_visitor :
    hirTypeKeysEqual briefVisitor.1 fullVisitor.1 = true ∧
      briefVisitor.1.shape = fullVisitor.1.shape ∧
      hirTypeKeysEqual briefVisitor.1 briefResult.1 = false := by
  have hsame : hirTypeKey briefVisitor.1 = hirTypeKey fullVisitor.1 := by decide +kernel
  have hapart : hirTypeKey briefVisitor.1 ≠ hirTypeKey briefResult.1 := by decide +kernel
  refine ⟨(type_keys.1 _ _).1.mpr hsame, (type_keys.1 _ _).2.1.mp hsame, ?_⟩
  rw [← Bool.not_eq_true, (type_keys.1 _ _).1]
  exact hapart

end Hir
end Beans
