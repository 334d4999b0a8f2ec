import Beans.Runtime.Text

/-!
# Types of the checked program

A type is a name with arguments; fixed arrays and functions are types under names of
their own.  Several spellings mean one type: aliases of the builtin names, an
omitted result of a function, and the omitted error of a `Result`.  A key is the
flat spelling of what a type means.
-/

namespace Beans
namespace Hir

/-- A type; the last three parts are those of arrays and functions. -/
inductive HirType where
  | mk (name : Text) (args : List HirType) (arrayLength fnParameterCount : ℤ)
      (fnSendable : Bool)

namespace HirType

def name : HirType → Text
  | mk name _ _ _ _ => name

def args : HirType → List HirType
  | mk _ args _ _ _ => args

def arrayLength : HirType → ℤ
  | mk _ _ arrayLength _ _ => arrayLength

def fnParameterCount : HirType → ℤ
  | mk _ _ _ fnParameterCount _ => fnParameterCount

def fnSendable : HirType → Bool
  | mk _ _ _ _ fnSendable => fnSendable

/-- `new HirType(name)`. -/
def new (name : Text) : HirType :=
  mk name [] (-1) (-1) false

end HirType

/-- Three names have an alias. -/
def canonicalHirName (name : Text) : Text :=
  if name = ascii "i64" then ascii "int"
  else if name = ascii "byte" then ascii "u8"
  else if name = ascii "f64" then ascii "float"
  else name

/-- A function without a result type gives `unit`. -/
def hirFnResult (type : HirType) : HirType :=
  if 0 ≤ type.fnParameterCount ∧ type.fnParameterCount < type.args.length then
    type.args.getD type.fnParameterCount.toNat (.new (ascii "unit"))
  else .new (ascii "unit")

/-- A result without an error type has `Error`. -/
def hirResultError (type : HirType) : HirType :=
  if 2 ≤ type.args.length then type.args.getD 1 (.new (ascii "Error"))
  else .new (ascii "Error")

/-- The pieces of several spellings, with commas in between. -/
def separated (pieces : List (List Text)) : List Text :=
  List.intercalate [ascii ","] pieces

mutual

/-- What `append_hir_type_key` appends. -/
def appendHirTypeKey : HirType → List Text
  | .mk name args arrayLength fnParameterCount fnSendable =>
    if name = ascii "array" then
      [ascii "["] ++ (argumentKeys args).headD [] ++
        [ascii ";" ++ Text.ofInt arrayLength ++ ascii "]"]
    else if name = ascii "fn" then
      (if fnSendable then [ascii "send "] else []) ++ [ascii "fn("] ++
        separated ((argumentKeys args).take fnParameterCount.toNat) ++ [ascii ")->"] ++
        (if fnParameterCount < args.length then
          (argumentKeys args).getD fnParameterCount.toNat []
        else [ascii "unit"])
    else
      let name := canonicalHirName name
      if args.length = 0 then [name]
      else
        [name, ascii "<"] ++ separated (argumentKeys args) ++
          (if name = ascii "Result" ∧ args.length = 1 then [ascii ",Error"] else []) ++
          [ascii ">"]

def argumentKeys : List HirType → List (List Text)
  | [] => []
  | type :: rest => appendHirTypeKey type :: argumentKeys rest

end

/-- The key of a type: its pieces, one after the other. -/
def hirTypeKey (type : HirType) : Text :=
  (appendHirTypeKey type).flatten

mutual

/-- The same, part by part, with nothing filled in. -/
def hirTypesIdentical : HirType → HirType → Bool
  | .mk name args arrayLength fnParameterCount fnSendable, right =>
    canonicalHirName name == canonicalHirName right.name &&
      args.length == right.args.length && arrayLength == right.arrayLength &&
      fnParameterCount == right.fnParameterCount && fnSendable == right.fnSendable &&
      argumentsIdentical args right.args

def argumentsIdentical : List HirType → List HirType → Bool
  | left :: lefts, right :: rights =>
    hirTypesIdentical left right && argumentsIdentical lefts rights
  | _, _ => true

end

mutual

/-- Bounds the comparisons below a type. -/
def HirType.rank : HirType → ℕ
  | .mk name args _ _ _ =>
    1 + (if name = ascii "fn" ∨ canonicalHirName name = ascii "Result" then 1 else 0) +
      rankSum args

def rankSum : List HirType → ℕ
  | [] => 0
  | type :: rest => type.rank + rankSum rest

end

theorem rank_le_rankSum {type : HirType} {args : List HirType} (h : type ∈ args) :
    type.rank ≤ rankSum args := by
  induction args with
  | nil => exact absurd h List.not_mem_nil
  | cons first rest ih =>
    rw [rankSum]
    rcases List.mem_cons.mp h with rfl | hrest
    · exact Nat.le_add_right _ _
    · exact (ih hrest).trans (Nat.le_add_left _ _)

theorem rank_arg {type : HirType} {i : ℕ} {arg : HirType} (h : type.args[i]? = some arg) :
    arg.rank < type.rank := by
  obtain ⟨name, args, arrayLength, fnParameterCount, fnSendable⟩ := type
  have := rank_le_rankSum (List.mem_of_getElem? h)
  rw [HirType.rank]
  rw [HirType.args] at this
  omega

theorem canonicalHirName_eq_fn {name : Text} (h : canonicalHirName name = ascii "fn") :
    name = ascii "fn" := by
  rw [canonicalHirName] at h
  split_ifs at h with hint hbyte hfloat
  · exact absurd h (by decide)
  · exact absurd h (by decide)
  · exact absurd h (by decide)
  · exact h

theorem rank_new (name : Text) (h : name ≠ ascii "fn") (h' : canonicalHirName name ≠ ascii "Result") :
    (HirType.new name).rank = 1 := by
  rw [HirType.new, HirType.rank, if_neg (not_or.mpr ⟨h, h'⟩), rankSum]

theorem rank_fnResult {type : HirType} (h : canonicalHirName type.name = ascii "fn") :
    (hirFnResult type).rank < type.rank := by
  rw [hirFnResult]
  split_ifs with hwritten
  · have hlt : type.fnParameterCount.toNat < type.args.length := by omega
    refine @rank_arg type type.fnParameterCount.toNat _ ?_
    rw [List.getD_eq_getElem _ _ hlt, List.getElem?_eq_getElem hlt]
  · rw [rank_new _ (by decide) (by decide)]
    obtain ⟨name, args, arrayLength, fnParameterCount, fnSendable⟩ := type
    have hname : name = ascii "fn" := canonicalHirName_eq_fn h
    rw [HirType.rank, if_pos (Or.inl hname)]
    omega

theorem rank_resultError {type : HirType} (h : canonicalHirName type.name = ascii "Result") :
    (hirResultError type).rank < type.rank := by
  rw [hirResultError]
  split_ifs with hwritten
  · have hlt : 1 < type.args.length := by omega
    refine @rank_arg type 1 _ ?_
    rw [List.getD_eq_getElem _ _ hlt, List.getElem?_eq_getElem hlt]
  · rw [rank_new _ (by decide) (by decide)]
    obtain ⟨name, args, arrayLength, fnParameterCount, fnSendable⟩ := type
    have hname : canonicalHirName name = ascii "Result" := h
    rw [HirType.rank, if_pos (Or.inr hname)]
    omega

/-- The comparison that builds no keys. -/
def hirTypeKeysEqual (left right : HirType) : Bool :=
  let name := canonicalHirName left.name
  let argumentsEqual := fun index : ℕ =>
    if _hleft : index < left.args.length then
      match right.args[index]? with
      | some second => hirTypeKeysEqual left.args[index] second
      | none => false
    else false
  if name ≠ canonicalHirName right.name then false
  else if name = ascii "array" then
    left.arrayLength == right.arrayLength && argumentsEqual 0
  else if _hfn : name = ascii "fn" then
    left.fnParameterCount == right.fnParameterCount && left.fnSendable == right.fnSendable &&
      (List.range left.fnParameterCount.toNat).all argumentsEqual &&
      hirTypeKeysEqual (hirFnResult left) (hirFnResult right)
  else if _hresult : name = ascii "Result" ∧
      1 ≤ left.args.length ∧ left.args.length ≤ 2 ∧
      1 ≤ right.args.length ∧ right.args.length ≤ 2 then
    argumentsEqual 0 && hirTypeKeysEqual (hirResultError left) (hirResultError right)
  else
    left.args.length == right.args.length &&
      (List.range left.args.length).all argumentsEqual
termination_by left.rank
decreasing_by
  · exact rank_arg (List.getElem?_eq_getElem _hleft)
  · exact rank_fnResult _hfn
  · exact rank_resultError _hresult.1

/-- The comparison of the checker: what was refused before equals anything. -/
def hirTypesEqual (left right : HirType) : Bool :=
  if left.name = ascii "poison" ∨ right.name = ascii "poison" then true
  else hirTypeKeysEqual left right

end Hir
end Beans
