import Mathlib

/-!
# Parsed JSON values and their depth

The tree the parser hands over, the number of its levels, and the walk that
measures a subtree against the depth limit.
-/

namespace Beans
namespace Json

/-- The bytes of a string. -/
abbrev Text : Type := List UInt8

/-- A parsed value.  Non-negative integers arrive unsigned. -/
inductive Value where
  | null
  | bool (flag : Bool)
  | sint (number : Int64)
  | uint (number : UInt64)
  | real (number : Float)
  | str (text : Text)
  | arr (items : List Value)
  | obj (members : List (Text × Value))

/-- The members of an object in document order. -/
abbrev Members : Type := List (Text × Value)

namespace Value

def isNull : Value → Bool
  | null => true
  | _ => false

def isCtn : Value → Bool
  | arr _ => true
  | obj _ => true
  | _ => false

mutual

/-- The number of levels of a value, itself included. -/
def height : Value → ℕ
  | arr items => 1 + itemsHeight items
  | obj members => 1 + membersHeight members
  | _ => 1

def itemsHeight : List Value → ℕ
  | [] => 0
  | item :: rest => max item.height (itemsHeight rest)

def membersHeight : List (Text × Value) → ℕ
  | [] => 0
  | (_, value) :: rest => max value.height (membersHeight rest)

end

mutual

/-- No value of the tree lies deeper than the maximum.  Scalars are measured at
their container, which also covers their own level. -/
def withinDepth (maximum : ℕ) : Value → ℕ → Bool
  | arr items, depth =>
    if maximum < depth then false
    else if 0 < items.length && maximum < depth + 1 then false
    else itemsWithin maximum items (depth + 1)
  | obj members, depth =>
    if maximum < depth then false
    else if 0 < members.length && maximum < depth + 1 then false
    else membersWithin maximum members (depth + 1)
  | _, depth => if maximum < depth then false else true

def itemsWithin (maximum : ℕ) : List Value → ℕ → Bool
  | [], _ => true
  | item :: rest, depth =>
    if item.isCtn && !withinDepth maximum item depth then false
    else itemsWithin maximum rest depth

def membersWithin (maximum : ℕ) : List (Text × Value) → ℕ → Bool
  | [], _ => true
  | (_, value) :: rest, depth =>
    if value.isCtn && !withinDepth maximum value depth then false
    else membersWithin maximum rest depth

end

theorem height_pos (value : Value) : 0 < value.height := by
  cases value <;> simp [height]

theorem height_of_scalar {value : Value} (h : value.isCtn = false) :
    value.height = 1 := by
  cases value <;> simp_all [height, isCtn]

theorem itemsHeight_pos {items : List Value} (h : 0 < items.length) :
    0 < itemsHeight items := by
  cases items with
  | nil => simp at h
  | cons item rest =>
    rw [itemsHeight]
    exact lt_max_of_lt_left (height_pos item)

theorem membersHeight_pos {members : Members} (h : 0 < members.length) :
    0 < membersHeight members := by
  cases members with
  | nil => simp at h
  | cons member rest =>
    rw [membersHeight]
    exact lt_max_of_lt_left (height_pos member.2)

/-- A scalar is on the level its container has checked. -/
private theorem scalar_within {value : Value} {maximum depth : ℕ}
    (hscalar : value.isCtn = false)
    (hdepth : depth ≤ maximum) :
    depth + value.height ≤ maximum + 1 := by
  rw [height_of_scalar hscalar]
  omega

mutual

/-- The walk measures the levels of the whole subtree. -/
theorem withinDepth_iff (maximum : ℕ) :
    ∀ (value : Value) (depth : ℕ),
      withinDepth maximum value depth = true ↔
        depth + value.height ≤ maximum + 1
  | arr items, depth => by
      have ih := itemsWithin_iff maximum items (depth + 1)
      have hpos := @itemsHeight_pos items
      rw [withinDepth, height]
      split_ifs with hdeep hchild
      · simp only [false_iff]
        omega
      · simp only [Bool.and_eq_true, decide_eq_true_eq] at hchild
        have := hpos hchild.1
        simp only [false_iff]
        omega
      · simp only [Bool.and_eq_true, decide_eq_true_eq, not_and, not_lt] at hchild
        rcases Nat.eq_zero_or_pos items.length with hnil | hsome
        · rw [List.length_eq_zero_iff.mp hnil, itemsWithin, itemsHeight]
          simp only [true_iff]
          omega
        · rw [ih (hchild hsome)]
          omega
  | obj members, depth => by
      have ih := membersWithin_iff maximum members (depth + 1)
      have hpos := @membersHeight_pos members
      rw [withinDepth, height]
      split_ifs with hdeep hchild
      · simp only [false_iff]
        omega
      · simp only [Bool.and_eq_true, decide_eq_true_eq] at hchild
        have := hpos hchild.1
        simp only [false_iff]
        omega
      · simp only [Bool.and_eq_true, decide_eq_true_eq, not_and, not_lt] at hchild
        rcases Nat.eq_zero_or_pos members.length with hnil | hsome
        · rw [List.length_eq_zero_iff.mp hnil, membersWithin, membersHeight]
          simp only [true_iff]
          omega
        · rw [ih (hchild hsome)]
          omega
  | null, depth | bool _, depth | sint _, depth | uint _, depth
  | real _, depth | str _, depth => by
      simp only [withinDepth, height]
      split_ifs <;> simp <;> omega

theorem itemsWithin_iff (maximum : ℕ) :
    ∀ (items : List Value) (depth : ℕ), depth ≤ maximum →
      (itemsWithin maximum items depth = true ↔
        depth + itemsHeight items ≤ maximum + 1)
  | [], depth, hdepth => by
      simp only [itemsWithin, itemsHeight, true_iff]
      omega
  | item :: rest, depth, hdepth => by
      have hitem := withinDepth_iff maximum item depth
      have ih := itemsWithin_iff maximum rest depth hdepth
      have hscalar := @scalar_within item maximum depth
      rw [itemsWithin, itemsHeight]
      cases hctn : item.isCtn
      · have := hscalar hctn hdepth
        simp only [Bool.false_and, Bool.false_eq_true, if_false, ih]
        omega
      · cases hwithin : withinDepth maximum item depth
        · simp only [hwithin, Bool.false_eq_true, false_iff] at hitem
          simp only [Bool.not_false, Bool.and_true, if_true, Bool.false_eq_true,
            false_iff]
          omega
        · simp only [hwithin, true_iff] at hitem
          simp only [Bool.not_true, Bool.and_false, Bool.false_eq_true, if_false, ih]
          omega

theorem membersWithin_iff (maximum : ℕ) :
    ∀ (members : List (Text × Value)) (depth : ℕ), depth ≤ maximum →
      (membersWithin maximum members depth = true ↔
        depth + membersHeight members ≤ maximum + 1)
  | [], depth, hdepth => by
      simp only [membersWithin, membersHeight, true_iff]
      omega
  | (name, value) :: rest, depth, hdepth => by
      have hitem := withinDepth_iff maximum value depth
      have ih := membersWithin_iff maximum rest depth hdepth
      have hscalar := @scalar_within value maximum depth
      rw [membersWithin, membersHeight]
      cases hctn : value.isCtn
      · have := hscalar hctn hdepth
        simp only [Bool.false_and, Bool.false_eq_true, if_false, ih]
        omega
      · cases hwithin : withinDepth maximum value depth
        · simp only [hwithin, Bool.false_eq_true, false_iff] at hitem
          simp only [Bool.not_false, Bool.and_true, if_true, Bool.false_eq_true,
            false_iff]
          omega
        · simp only [hwithin, true_iff] at hitem
          simp only [Bool.not_true, Bool.and_false, Bool.false_eq_true, if_false, ih]
          omega

end

end Value

end Json
end Beans
