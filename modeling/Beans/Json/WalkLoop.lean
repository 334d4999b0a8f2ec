import Beans.Json.Accepts
import Beans.Json.Walk

/-!
# The member loop of the walk

Whether the loop still expects the declaration order or already probes the key
table, it stands for one set of fields taken.  Each key is placed from that
state, and the loop as a whole is one pass over the places.
-/

namespace Beans
namespace Json

open SlotFilling

variable {schema : Schema Kind} {loop : Loop} {maximum depth : ℕ} {name : Text}
  {value : Value}

/-- The field the next key is measured against, while the order holds. -/
def Loop.turn (loop : Loop) : Option ℕ :=
  if loop.ordered then some loop.expected else none

/-- The field of a key. -/
def placeKey (schema : Schema Kind) (name : Text) : Option ℕ → Option ℕ
  | some expected =>
    if schema.fields[expected]?.map TypedField.primaryName = some name then
      some expected
    else schema.findKey name
  | none => schema.findKey name

/-- The order after a key. -/
def nextTurn (schema : Schema Kind) (name : Text) : Option ℕ → Option ℕ
  | some expected =>
    if schema.fields[expected]?.map TypedField.primaryName = some name then
      some (expected + 1)
    else none
  | none => none

/-- The loop has stored or skipped a value for the field. -/
def Loop.taken (loop : Loop) (index : ℕ) : Bool :=
  if loop.ordered then decide (index < loop.expected)
  else loop.seen.getD index false

/-- Fields still free hold their initial words. -/
structure LoopInv (schema : Schema Kind) (loop : Loop) : Prop where
  cells : loop.cells.length = schema.fields.length
  bitmap : loop.ordered = false → loop.seen.length = schema.fields.length
  free : ∀ index, index < schema.fields.length → loop.taken index = false →
    loop.cells[index]? = (initRecord schema)[index]?

theorem loopInv_init (progress : Progress) : LoopInv schema (Loop.init schema progress) where
  cells := by simp [Loop.init, initRecord]
  bitmap := fun h => absurd h (by simp [Loop.init])
  free := fun _ _ _ => rfl

theorem leaveOrder_cells : (loop.leaveOrder schema).cells = loop.cells := by
  unfold Loop.leaveOrder
  split_ifs <;> rfl

theorem leaveOrder_progress : (loop.leaveOrder schema).progress = loop.progress := by
  unfold Loop.leaveOrder
  split_ifs <;> rfl

theorem leaveOrder_report (error : TypedError) :
    ((loop.leaveOrder schema).report error).cells = loop.cells ∧
      ((loop.leaveOrder schema).report error).progress.allocated =
        loop.progress.allocated := by
  refine ⟨leaveOrder_cells, ?_⟩
  change (loop.leaveOrder schema).progress.allocated = loop.progress.allocated
  rw [leaveOrder_progress]

theorem leaveOrder_ordered : (loop.leaveOrder schema).ordered = false := by
  unfold Loop.leaveOrder
  split_ifs with h
  · rfl
  · simpa using h

theorem leaveOrder_taken {index : ℕ} (hindex : index < schema.fields.length) :
    (loop.leaveOrder schema).taken index = loop.taken index := by
  unfold Loop.leaveOrder
  split_ifs with h
  · simp [Loop.taken, h, hindex]
  · rfl

theorem leaveOrder_seen {index : ℕ} (hindex : index < schema.fields.length) :
    (loop.leaveOrder schema).seen.getD index false = loop.taken index := by
  rw [← leaveOrder_taken hindex, Loop.taken, leaveOrder_ordered]
  simp

theorem LoopInv.leaveOrder (h : LoopInv schema loop) :
    LoopInv schema (loop.leaveOrder schema) where
  cells := by rw [leaveOrder_cells, h.cells]
  bitmap := by
    intro _
    by_cases hordered : loop.ordered = true
    · simp [Loop.leaveOrder, hordered]
    · simpa [Loop.leaveOrder, hordered] using h.bitmap (by simpa using hordered)
  free := by
    intro index hindex htaken
    rw [leaveOrder_taken hindex] at htaken
    rw [leaveOrder_cells]
    exact h.free index hindex htaken

/-- The loop after a key: nothing is stored yet, and at most `index` has been
taken. -/
structure Turned (schema : Schema Kind) (name : Text) (loop loop' : Loop)
    (index : Option ℕ) : Prop where
  cells : loop'.cells = loop.cells
  progress : loop'.progress = loop.progress
  turn : loop'.turn = nextTurn schema name loop.turn
  bitmap : loop'.ordered = false → loop'.seen.length = schema.fields.length
  taken : ∀ i, i < schema.fields.length →
    loop'.taken i = (decide (index = some i) || loop.taken i)

theorem LoopInv.turned_leaveOrder (h : LoopInv schema loop)
    (hturn : ¬ (loop.ordered = true ∧
      schema.fields[loop.expected]?.map TypedField.primaryName = some name)) :
    Turned schema name loop (loop.leaveOrder schema) none where
  cells := leaveOrder_cells
  progress := leaveOrder_progress
  turn := by
    rw [Loop.turn, leaveOrder_ordered]
    unfold Loop.turn
    by_cases hordered : loop.ordered = true
    · simp only [hordered, true_and] at hturn
      simp [hordered, nextTurn, hturn]
    · simp [hordered, nextTurn]
  bitmap := h.leaveOrder.bitmap
  taken := fun i hi => by rw [leaveOrder_taken hi]; simp

/-- What the loop does with a key, from the field the key is placed at. -/
theorem keyStep_spec (h : LoopInv schema loop) :
    match placeKey schema name loop.turn with
    | some index =>
      if index < schema.fields.length ∧ loop.taken index = true then
        ∃ loop', keyStep maximum schema depth name value loop =
            (.refuse .invalid, loop') ∧
          loop'.cells = loop.cells ∧
          loop'.progress.allocated = loop.progress.allocated
      else
        ∃ loop', keyStep maximum schema depth name value loop =
            (.store index, loop') ∧
          Turned schema name loop loop' (some index)
    | none =>
      if schema.allowUnknown && value.withinDepth maximum (depth + 1) then
        ∃ loop', keyStep maximum schema depth name value loop = (.skip, loop') ∧
          Turned schema name loop loop' none
      else
        ∃ loop', keyStep maximum schema depth name value loop =
            (.refuse .invalid, loop') ∧
          loop'.cells = loop.cells ∧
          loop'.progress.allocated = loop.progress.allocated := by
  by_cases hturn : loop.ordered = true ∧
      schema.fields[loop.expected]?.map TypedField.primaryName = some name
  · obtain ⟨hordered, hname⟩ := hturn
    have hplace : placeKey schema name loop.turn = some loop.expected := by
      simp [Loop.turn, hordered, placeKey, hname]
    have hfree : loop.taken loop.expected = false := by
      simp [Loop.taken, hordered]
    rw [hplace]
    simp only [hfree, Bool.false_eq_true, and_false, if_false]
    refine ⟨{ loop with expected := loop.expected + 1 }, ?_, rfl, rfl, ?_, ?_, ?_⟩
    · rw [keyStep, if_pos ⟨hordered, hname⟩]
    · simp [Loop.turn, hordered, nextTurn, hname]
    · exact fun hfalse => absurd (hordered.symm.trans hfalse) (by simp)
    · intro i _
      simp only [Loop.taken, hordered, if_true, Option.some.injEq]
      rw [Bool.eq_iff_iff]
      simp
      omega
  · have hplace : placeKey schema name loop.turn = schema.findKey name := by
      unfold Loop.turn
      by_cases hordered : loop.ordered = true
      · simp only [hordered, true_and] at hturn
        simp [hordered, placeKey, hturn]
      · simp [hordered, placeKey]
    have hleft := h.turned_leaveOrder hturn
    rw [hplace, keyStep, if_neg hturn]
    cases hfind : schema.findKey name with
    | none =>
      cases hallow : schema.allowUnknown with
      | false =>
        exact ⟨_, rfl, leaveOrder_report .unknown⟩
      | true =>
        cases hwithin : value.withinDepth maximum (depth + 1) with
        | false =>
          exact ⟨_, rfl, leaveOrder_report .depth⟩
        | true => exact ⟨_, rfl, hleft⟩
    | some index =>
      by_cases hindex : index < schema.fields.length
      · simp only [leaveOrder_seen hindex, hindex, true_and]
        cases htaken : loop.taken index with
        | true => exact ⟨_, rfl, leaveOrder_report .duplicate⟩
        | false =>
          have hordered : (loop.leaveOrder schema).ordered = false :=
            leaveOrder_ordered
          have hbitmap := h.leaveOrder.bitmap hordered
          refine ⟨_, rfl, leaveOrder_cells, leaveOrder_progress, ?_, ?_, ?_⟩
          · exact hleft.turn
          · intro _
            simpa using hbitmap
          · intro i hi
            have hold := @leaveOrder_seen schema loop i hi
            simp only [Loop.taken, hordered, Bool.false_eq_true, if_false,
              List.getD_eq_getElem?_getD, List.getElem?_set, hbitmap,
              Option.some.injEq] at hold ⊢
            by_cases hi' : index = i
            · simp [hi', hi]
            · simp [hi', ← hold]
      · have hordered : (loop.leaveOrder schema).ordered = false :=
          leaveOrder_ordered
        have hbitmap := h.leaveOrder.bitmap hordered
        have hout : (loop.leaveOrder schema).seen.length ≤ index := by omega
        simp only [hindex, false_and, if_false]
        rw [List.getD_eq_default _ _ hout]
        refine ⟨_, rfl, leaveOrder_cells, leaveOrder_progress, ?_, ?_, ?_⟩
        · exact hleft.turn
        · intro _
          simpa using hbitmap
        · intro i hi
          have hne : index ≠ i := by omega
          rw [List.set_eq_of_length_le hout]
          have := hleft.taken i hi
          simpa [hne] using this

end Json
end Beans
