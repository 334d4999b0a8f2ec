import Beans.Foundation.BlockStack
import Beans.Collections.Deque

/-!
# The sides of a deque

A side of the deque is a stack of blocks whose elements its counter counts.  A
push and a pop at the outer end return and act on the last element of the side;
a rebalance returns, hands the empty side something and changes no element.
-/

namespace Beans
namespace Collections

open BlockStack

universe u

variable {T : Type u}

/-- Full inner blocks, no empty block, and a counter that counts. -/
structure Side (blocks : List (List T)) (count : ℤ) : Prop where
  filled : Filled 512 blocks
  counted : count = blocks.flatten.length

/-- Every recycled block is empty. -/
def EmptyBlocks (spare : List (List T)) : Prop := ∀ b ∈ spare, b = []

/-- Head first: the front side is stored backwards. -/
def DequeShape.elements (shape : DequeShape T) : List T :=
  shape.front.flatten.reverse ++ shape.back.flatten

theorem Side.nil : Side ([] : List (List T)) 0 where
  filled := .nil
  counted := rfl

variable {blocks spare : List (List T)} {count : ℤ} {shape : DequeShape T}

/-- A side that counts nothing has no block. -/
theorem Side.eq_nil_iff
    (h : Side blocks count) : count = 0 ↔ blocks = [] := by
  rw [← h.filled.flatten_eq_nil_iff, ← List.length_eq_zero_iff, h.counted]
  exact Int.natCast_eq_zero

/-- A nonempty side split at its outermost block, with its count. -/
theorem Side.outermost {blocks : List (List T)} {count : ℤ}
    (h : Side blocks count) (hne : blocks ≠ []) :
    ∃ inner outer, blocks = inner ++ [outer] ∧
      (∀ b ∈ inner, b.length = 512) ∧ outer ≠ [] ∧ outer.length ≤ 512 ∧
      count = inner.length * 512 + outer.length := by
  obtain ⟨inner, outer, rfl, hfull, hout, hle⟩ :=
    h.filled.outermost (by omega) hne
  refine ⟨inner, outer, rfl, hfull, hout, hle, ?_⟩
  rw [h.counted, length_flatten_snoc hfull]
  push_cast
  ring

theorem EmptyBlocks.nil : EmptyBlocks ([] : List (List T)) := by
  intro b hb
  cases hb

theorem EmptyBlocks.recycle {spare : List (List T)}
    (h : EmptyBlocks spare) : EmptyBlocks (recycle spare []) := by
  intro b hb
  unfold Collections.recycle at hb
  split at hb
  · rcases List.mem_append.mp hb with hb | hb
    · exact h b hb
    · exact List.mem_singleton.mp hb
  · exact h b hb

/-- A block to fill is empty. -/
theorem takeBlock_spec (h : EmptyBlocks spare) :
    ∃ spare', takeBlock spare = .ok ([], spare') ∧ EmptyBlocks spare' := by
  rcases List.eq_nil_or_concat' spare with rfl | ⟨rest, block, rfl⟩
  · exact ⟨[], rfl, .nil⟩
  · have hblock : block = [] := h block (by simp)
    have hpos : ((rest ++ [block]).length : ℤ) > 0 := by simp
    have hlast : ((rest ++ [block]).length : ℤ) - 1 = rest.length := by simp
    have hget : (rest ++ [block])[rest.length]? = some block := by simp
    refine ⟨rest, ?_, fun b hb => h b (by simp [hb])⟩
    rw [takeBlock, if_pos hpos, listRemove_ok _ hlast hget, hblock,
      eraseIdx_outermost]

/-- A push appends one element to its side. -/
theorem pushSide_spec (h : Side blocks count)
    (hspare : EmptyBlocks spare) (value : T) (site : Site) :
    ∃ blocks' spare',
      pushSide blocks count spare value site =
        .ok ((blocks', count + 1), spare') ∧
      Side blocks' (count + 1) ∧ EmptyBlocks spare' ∧
      blocks'.flatten = blocks.flatten ++ [value] := by
  by_cases hopen :
      (blocks.length : ℤ) - 1 < 0 ∨
        count = ((blocks.length : ℤ) - 1 + 1) * 512
  · -- every block is full, so the value opens a new one
    obtain ⟨spare', htake, hspare'⟩ := takeBlock_spec hspare
    have hfull : ∀ b ∈ blocks, b.length = 512 := by
      rcases eq_or_ne blocks [] with rfl | hne
      · simp
      · obtain ⟨inner, outer, rfl, hfull, -, -, hcount⟩ := h.outermost hne
        have houter : outer.length = 512 := by
          simp only [List.length_append, List.length_singleton] at hopen
          push_cast at hopen
          omega
        intro b hb
        rcases List.mem_append.mp hb with hb | hb
        · exact hfull b hb
        · rw [List.mem_singleton.mp hb, houter]
    have hflat : (blocks ++ [[value]]).flatten = blocks.flatten ++ [value] := by
      simp
    refine ⟨blocks ++ [[value]], spare', ?_, ⟨.open (by omega) hfull value, ?_⟩,
      hspare', hflat⟩
    · simp only [pushSide, hopen, if_true, htake, ok_bind, List.nil_append]
      rfl
    · rw [hflat, h.counted]
      simp
  · -- the outermost block has room
    have hne : blocks ≠ [] := by
      intro hnil
      exact hopen (.inl (by simp [hnil]))
    obtain ⟨inner, outer, rfl, hfull, -, hle, hcount⟩ := h.outermost hne
    have hroom : outer.length < 512 := by
      simp only [List.length_append, List.length_singleton] at hopen
      push_cast at hopen
      omega
    have hlast : ((inner ++ [outer]).length : ℤ) - 1 = inner.length := by simp
    have hget : (inner ++ [outer])[inner.length]? = some outer := by simp
    rw [hlast] at hopen
    refine ⟨inner ++ [outer ++ [value]], spare, ?_,
      ⟨.extend (by omega) hfull hroom value, ?_⟩, hspare,
      flatten_extend inner outer value⟩
    · simp only [pushSide, hlast, hopen, if_false, listGet_ok site rfl hget,
        ok_bind, Int.toNat_natCast, set_outermost]
      rfl
    · rw [flatten_extend, h.counted, List.length_append,
        List.length_singleton]
      push_cast
      rfl

/-- A pop takes the last element of its side. -/
theorem takeSide_spec (h : Side blocks count) (hne : blocks ≠ [])
    (hspare : EmptyBlocks spare) (site site' : Site) :
    ∃ blocks' spare',
      takeSide blocks count spare site site' =
        .ok (blocks.flatten.getLast?, (blocks', count - 1), spare') ∧
      Side blocks' (count - 1) ∧ EmptyBlocks spare' ∧
      blocks'.flatten = blocks.flatten.dropLast := by
  obtain ⟨inner, outer, rfl, hfull, hout, hle, hcount⟩ := h.outermost hne
  have hlast : ((inner ++ [outer]).length : ℤ) - 1 = inner.length := by simp
  have hget : (inner ++ [outer])[inner.length]? = some outer := by simp
  have hflat := flatten_shrink inner hout
  have hlen : count - 1 = ((inner ++ [outer]).flatten.dropLast.length : ℤ) := by
    have hpos : 0 < outer.length := List.length_pos_iff.mpr hout
    rw [List.length_dropLast, length_flatten_snoc hfull]
    omega
  have hunfold : takeSide (inner ++ [outer]) count spare site site' =
      (if count - 1 = inner.length * 512 then do
        let removed ← listRemove (inner ++ [outer.dropLast])
          inner.length site'
        return (outer.getLast?, (removed.2, count - 1),
          recycle spare removed.1)
      else return (outer.getLast?, (inner ++ [outer.dropLast], count - 1),
        spare)) := by
    simp only [takeSide, hlast, listGet_ok site rfl hget, ok_bind,
      Int.toNat_natCast, set_outermost]
  rw [getLast?_flatten inner hout, hunfold]
  by_cases hempty : count - 1 = inner.length * 512
  · -- the block came empty and is recycled
    have hnil : outer.dropLast = [] := by
      rw [← List.length_eq_zero_iff, List.length_dropLast]
      omega
    have hgetNil : (inner ++ [outer.dropLast])[inner.length]? = some [] := by
      simp [hnil]
    have hinner : inner.flatten = (inner ++ [outer]).flatten.dropLast := by
      rw [← hflat, hnil]
      simp
    refine ⟨inner, recycle spare [], ?_,
      ⟨.ofFull (by omega) hfull, ?_⟩, hspare.recycle, hinner⟩
    · simp only [hempty, if_true, listRemove_ok site' rfl hgetNil, ok_bind,
        eraseIdx_outermost]
      rfl
    · rw [hinner, hlen]
  · have hpos : 0 < outer.length := List.length_pos_iff.mpr hout
    have hrest : outer.dropLast ≠ [] := by
      intro hnil
      rw [← List.length_eq_zero_iff, List.length_dropLast] at hnil
      omega
    refine ⟨inner ++ [outer.dropLast], spare, ?_, ⟨?_, ?_⟩, hspare, hflat⟩
    · simp only [hempty, if_false]
      rfl
    · rw [filled_snoc_iff (by omega)]
      refine ⟨hfull, hrest, ?_⟩
      rw [List.length_dropLast]
      omega
    · rw [hflat, hlen]

theorem half_eq (n : ℕ) : ((n : ℤ) + 1).tdiv 2 = ((n + 1) / 2 : ℕ) := by
  rw [Int.tdiv_eq_ediv_of_nonneg (by omega)]
  omega

/-- A flipped copy of some blocks holds their elements backwards. -/
theorem flatten_flipped (blocks : List (List T)) :
    (blocks.map List.reverse).reverse.flatten = blocks.flatten.reverse := by
  rw [List.reverse_flatten]

/-- Full blocks, flipped, are a side. -/
theorem Side.flipped (hfull : ∀ b ∈ blocks, b.length = 512) :
    Side (blocks.map List.reverse).reverse (blocks.flatten.length : ℤ) where
  filled := by
    refine .ofFull (by omega) ?_
    intro b hb
    obtain ⟨c, hc, rfl⟩ := List.mem_map.mp (List.mem_reverse.mp hb)
    rw [List.length_reverse]
    exact hfull c hc
  counted := by rw [flatten_flipped, List.length_reverse]

/-- What is left of a side above its first `n` blocks is a side. -/
theorem Side.drop {blocks : List (List T)} {count : ℤ}
    (h : Side blocks count) (n : ℕ) :
    Side (blocks.drop n) (count - (blocks.take n).flatten.length) where
  filled := h.filled.drop n
  counted := by
    have hsplit : (blocks.take n).flatten ++ (blocks.drop n).flatten =
        blocks.flatten := by
      rw [← List.flatten_append, List.take_append_drop]
    rw [h.counted, ← hsplit, List.length_append]
    push_cast
    ring

/-- The copying loop, upwards. -/
theorem copyBlocks_up (source : List (List T)) (site : Site)
    (flip : List T → List T) (n : ℕ) :
    ∀ (m : ℕ) (built : List (List T)) (moved : ℤ), m + n ≤ source.length →
      copyBlocks source site 1 flip n m built moved =
        .ok (built ++ ((source.drop m).take n).map flip,
          moved + (((source.drop m).take n).flatten.length : ℤ)) := by
  induction n with
  | zero =>
    intro m built moved _
    simp [copyBlocks]
  | succ n ih =>
    intro m built moved hle
    have hm : m < source.length := by omega
    have hstep := ih (m + 1) (built ++ [flip source[m]])
      (moved + source[m].length) (by omega)
    rw [copyBlocks, listGet_ok site rfl (List.getElem?_eq_getElem hm),
      ok_bind, ← Nat.cast_succ, hstep, List.drop_eq_getElem_cons hm]
    simp only [List.take_succ_cons, List.map_cons, List.flatten_cons,
      List.length_append, List.append_assoc, List.singleton_append]
    push_cast
    rw [add_assoc]

/-- The copying loop, downwards. -/
theorem copyBlocks_down (source : List (List T)) (site : Site)
    (flip : List T → List T) (n : ℕ) :
    ∀ (built : List (List T)) (moved : ℤ), n ≤ source.length →
      copyBlocks source site (-1) flip n ((n : ℤ) - 1) built moved =
        .ok (built ++ ((source.take n).map flip).reverse,
          moved + ((source.take n).flatten.length : ℤ)) := by
  induction n with
  | zero =>
    intro built moved _
    simp [copyBlocks]
  | succ n ih =>
    intro built moved hle
    have hn : n < source.length := by omega
    have hindex : ((n + 1 : ℕ) : ℤ) - 1 = n := by omega
    have hstep := ih (built ++ [flip source[n]])
      (moved + source[n].length) (by omega)
    have htake : source.take (n + 1) = source.take n ++ [source[n]] :=
      (List.take_append_getElem hn).symm
    rw [copyBlocks, hindex,
      listGet_ok site rfl (List.getElem?_eq_getElem hn), ok_bind,
      ← sub_eq_add_neg, hstep, htake]
    simp only [List.map_append, List.map_cons, List.map_nil,
      List.reverse_append, List.reverse_singleton, List.flatten_append,
      List.flatten_cons, List.flatten_nil, List.append_nil,
      List.length_append, List.append_assoc, List.singleton_append]
    push_cast
    rw [add_assoc, add_comm (source[n].length : ℤ)]

/-- Splitting one block gives the other side its first half. -/
theorem splitBlock_spec {block : List T} {total : ℤ}
    (h : Side [block] total) (s₁ s₂ s₃ s₄ : Site) :
    ∃ moved kept m k,
      splitBlock [block] total s₁ s₂ s₃ s₄ =
        .ok ((moved, m), (kept, k)) ∧
      Side moved m ∧ Side kept k ∧ moved ≠ [] ∧
      block = moved.flatten.reverse ++ kept.flatten := by
  have hne : block ≠ [] := h.filled.nonempty block (by simp)
  have hpos : 0 < block.length := List.length_pos_iff.mpr hne
  have hle : block.length ≤ 512 := h.filled.bounded block (by simp)
  have htotal : total = block.length := by simpa using h.counted
  subst htotal
  obtain ⟨m, hmid⟩ : ∃ m, m = (block.length + 1) / 2 := ⟨_, rfl⟩
  have hm : m ≤ block.length := by omega
  have hget (site : Site) : listGet [block] 0 site = .ok block := rfl
  have hhalf : listSlice block 0 m s₂ = .ok (block.take m) := by
    simpa using listSlice_ok s₂ Nat.cast_zero.symm rfl (Nat.zero_le m) hm
  have hmoved : Side [(block.take m).reverse] (m : ℤ) := by
    constructor
    · refine .single ?_ ?_
      · rw [← List.length_pos_iff, List.length_reverse, List.length_take]
        omega
      · rw [List.length_reverse, List.length_take]
        omega
    · simp [hm]
  have hunfold : splitBlock [block] block.length s₁ s₂ s₃ s₄ =
      (if (block.length : ℤ) > m then do
        let keptBlock ← listSlice block m block.length s₄
        return (([(block.take m).reverse], (m : ℤ)),
          ([keptBlock], block.length - (m : ℤ)))
      else return (([(block.take m).reverse], (m : ℤ)), ([], 0))) := by
    simp only [splitBlock, half_eq, ← hmid, hget, ok_bind, hhalf]
  rw [hunfold]
  by_cases hmore : (block.length : ℤ) > m
  · have hrest : listSlice block m block.length s₄ = .ok (block.drop m) := by
      rw [listSlice_ok s₄ rfl rfl hm le_rfl, List.take_of_length_le]
      rw [List.length_drop]
    have hkept : Side [block.drop m] ((block.length : ℤ) - m) := by
      constructor
      · refine .single ?_ ?_
        · rw [← List.length_pos_iff, List.length_drop]
          omega
        · rw [List.length_drop]
          omega
      · simp only [List.flatten_singleton, List.length_drop]
        omega
    refine ⟨_, _, _, _, ?_, hmoved, hkept, by simp, by simp⟩
    rw [if_pos hmore, hrest]
    rfl
  · have hall : block.take m = block := by
      rw [List.take_of_length_le]
      omega
    refine ⟨_, _, _, _, ?_, hmoved, .nil, by simp, by simp [hall]⟩
    rw [if_neg hmore]
    rfl

/-- A side of several blocks is cut in the middle. -/
theorem Side.cut (h : Side blocks count) (hne : blocks ≠ [])
    (hmany : ¬(blocks.length : ℤ) = 1) :
    ∃ m, ((blocks.length : ℤ) + 1).tdiv 2 = (m : ℕ) ∧
      0 < m ∧ m < blocks.length ∧
      (∀ b ∈ blocks.take m, b.length = 512) := by
  have hpos : 0 < blocks.length := List.length_pos_iff.mpr hne
  refine ⟨(blocks.length + 1) / 2, half_eq _, by omega, by omega, ?_⟩
  exact h.filled.full_take (by omega)

/-- The copying loops of a rebalance over a side cut at `m`. -/
theorem copyBlocks_rest (blocks : List (List T)) (site : Site) {m : ℕ}
    (hm : m ≤ blocks.length) :
    copyBlocks blocks site 1 id ((blocks.length : ℤ) - m).toNat m [] 0 =
      .ok (blocks.drop m, ((blocks.drop m).flatten.length : ℤ)) := by
  have hturns : ((blocks.length : ℤ) - m).toNat = blocks.length - m := by
    omega
  have hall : (blocks.drop m).take (blocks.length - m) = blocks.drop m := by
    rw [List.take_of_length_le]
    rw [List.length_drop]
  rw [hturns, copyBlocks_up _ _ _ _ _ _ _ (by omega), hall, List.map_id,
    List.nil_append, zero_add]

/-- `crossover_to_front` moves the head half of the back side. -/
theorem crossoverToFront_spec (hback : Side shape.back shape.backCount) (hne : shape.back ≠ [])
    (hfront : shape.front = []) :
    ∃ shape', crossoverToFront shape = .ok shape' ∧
      Side shape'.front shape'.frontCount ∧
      Side shape'.back shape'.backCount ∧ shape'.front ≠ [] ∧
      shape'.elements = shape.elements := by
  obtain ⟨front, back, frontCount, backCount⟩ := shape
  dsimp only at hback hne hfront
  subst hfront
  by_cases hone : (back.length : ℤ) = 1
  · obtain ⟨block, rfl⟩ := List.length_eq_one_iff.mp (by exact_mod_cast hone)
    obtain ⟨moved, kept, m, k, hsplit, hmoved, hkept, hmne, hflat⟩ :=
      splitBlock_spec hback ⟨281, 54⟩ ⟨281, 58⟩ ⟨289, 36⟩ ⟨289, 40⟩
    refine ⟨⟨moved, kept, m, k⟩, ?_, hmoved, hkept, hmne, ?_⟩
    · simp only [crossoverToFront, hone, if_true, hsplit, ok_bind]
      rfl
    · simp [DequeShape.elements, hflat]
  · obtain ⟨m, hmid, hpos, hlt, hfull⟩ := hback.cut hne hone
    have hhead := copyBlocks_up back ⟨305, 49⟩ List.reverse m 0 [] 0 (by omega)
    simp only [Nat.cast_zero, List.drop_zero, List.nil_append, zero_add]
      at hhead
    have hlast : ∃ block, listGet (back.drop m)
        (((back.drop m).length : ℤ) - 1) ⟨323, 19⟩ = .ok block := by
      have hlen : (back.drop m).length = back.length - m := List.length_drop
      have hin : back.length - m - 1 < (back.drop m).length := by omega
      exact ⟨_, listGet_ok _ (by omega) (List.getElem?_eq_getElem hin)⟩
    obtain ⟨block, hlast⟩ := hlast
    refine ⟨⟨((back.take m).map List.reverse).reverse, back.drop m,
      ((back.take m).flatten.length : ℤ),
      backCount - (back.take m).flatten.length⟩, ?_, .flipped hfull,
      hback.drop m, ?_, ?_⟩
    · simp only [crossoverToFront, hone, if_false, hmid, Int.toNat_natCast,
        hhead, ok_bind, copyBlocks_rest back _ hlt.le, hlast]
      rfl
    · rw [← List.length_pos_iff]
      simp only [List.length_reverse, List.length_map, List.length_take]
      omega
    · simp only [DequeShape.elements, flatten_flipped, List.reverse_reverse,
        List.flatten_nil, List.reverse_nil, List.nil_append]
      rw [← List.flatten_append, List.take_append_drop]

/-- `crossover_to_back` moves the tail half of the front side. -/
theorem crossoverToBack_spec
    (hfront : Side shape.front shape.frontCount) (hne : shape.front ≠ [])
    (hback : shape.back = []) :
    ∃ shape', crossoverToBack shape = .ok shape' ∧
      Side shape'.front shape'.frontCount ∧
      Side shape'.back shape'.backCount ∧ shape'.back ≠ [] ∧
      shape'.elements = shape.elements := by
  obtain ⟨front, back, frontCount, backCount⟩ := shape
  dsimp only at hback hne hfront
  subst hback
  by_cases hone : (front.length : ℤ) = 1
  · obtain ⟨block, rfl⟩ := List.length_eq_one_iff.mp (by exact_mod_cast hone)
    obtain ⟨moved, kept, m, k, hsplit, hmoved, hkept, hmne, hflat⟩ :=
      splitBlock_spec hfront ⟨338, 55⟩ ⟨338, 59⟩ ⟨346, 37⟩ ⟨346, 41⟩
    refine ⟨⟨kept, moved, k, m⟩, ?_, hkept, hmoved, hmne, ?_⟩
    · simp only [crossoverToBack, hone, if_true, hsplit, ok_bind]
      rfl
    · simp [DequeShape.elements, hflat]
  · obtain ⟨m, hmid, hpos, hlt, hfull⟩ := hfront.cut hne hone
    have htail := copyBlocks_down front ⟨362, 50⟩ List.reverse m [] 0 hlt.le
    simp only [List.nil_append, zero_add] at htail
    have hlast : ∃ block, listGet (front.drop m)
        (((front.drop m).length : ℤ) - 1) ⟨376, 20⟩ = .ok block := by
      have hlen : (front.drop m).length = front.length - m := List.length_drop
      have hin : front.length - m - 1 < (front.drop m).length := by omega
      exact ⟨_, listGet_ok _ (by omega) (List.getElem?_eq_getElem hin)⟩
    obtain ⟨block, hlast⟩ := hlast
    refine ⟨⟨front.drop m, ((front.take m).map List.reverse).reverse,
      frontCount - (front.take m).flatten.length,
      ((front.take m).flatten.length : ℤ)⟩, ?_, hfront.drop m,
      .flipped hfull, ?_, ?_⟩
    · simp only [crossoverToBack, hone, if_false, hmid, Int.toNat_natCast,
        htail, ok_bind, copyBlocks_rest front _ hlt.le, hlast]
      rfl
    · rw [← List.length_pos_iff]
      simp only [List.length_reverse, List.length_map, List.length_take]
      omega
    · simp only [DequeShape.elements, flatten_flipped, List.flatten_nil,
        List.append_nil]
      rw [← List.reverse_append, ← List.flatten_append,
        List.take_append_drop]

end Collections
end Beans
