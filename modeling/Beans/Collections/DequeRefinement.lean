import Beans.Collections.DequeBlocks

/-!
# The deque refines a list

Every operation on a deque in shape returns, leaves it in shape and acts on its
elements like the same operation on a list, and every read answers from that
list.  By induction on the program this holds after every sequence of
operations.

**Results.**
* `deque_refines_list`: the answers, the elements and the counters of a deque are those of
  the list, and its blocks are in shape, after every sequence of operations.
-/

namespace Beans
namespace Collections

open BlockStack

universe u

variable {T : Type u}

/-- What holds of a deque between operations. -/
structure DequeInv (d : Deque T) : Prop where
  front : Side d.shape.front d.shape.frontCount
  back : Side d.shape.back d.shape.backCount
  spare : EmptyBlocks d.spare

/-- The deque as a plain sequence. -/
def Deque.elements (d : Deque T) : List T := d.shape.elements

variable {d : Deque T} {blocks : List (List T)} {count : ℤ} {q : ℕ} {b : List T}

/-- The length is the counters' sum. -/
theorem Deque.len_eq (h : DequeInv d) :
    d.len = d.elements.length := by
  simp only [Deque.len, Deque.elements, DequeShape.elements,
    List.length_append, List.length_reverse, h.front.counted, h.back.counted]
  push_cast
  rfl

/-- Reading a side by block and slot. -/
theorem Side.read (h : Side blocks count) {r n : ℕ} (hr : r < 512)
    (hn : q * 512 + r = n) (hlt : n < blocks.flatten.length) {i j : ℤ}
    (hi : i = q) (hj : j = r) (site site' : Site) :
    ∃ a, (do
        let block ← listGet blocks i site
        let value ← listGet block j site'
        return some value) = (.ok (some a) : Except Panic (Option T)) ∧
      blocks.flatten[n]? = some a := by
  subst hn
  obtain ⟨block, a, hblock, ha, hflat⟩ := h.filled.slot hr hlt
  refine ⟨a, ?_, hflat⟩
  rw [listGet_ok site hi hblock, ok_bind, listGet_ok site' hj ha, ok_bind]
  rfl

/-- `get` reads the sequence. -/
theorem Deque.get_spec (h : DequeInv d) (index : ℤ) :
    d.get index = .ok
      (if 0 ≤ index then d.elements[index.toNat]? else none) := by
  have hlen := Deque.len_eq h
  by_cases hout : index < 0 ∨ index ≥ d.shape.frontCount + d.shape.backCount
  · simp only [Deque.get, hout, if_true]
    split
    · rw [List.getElem?_eq_none]
      unfold Deque.len at hlen
      omega
    · rfl
  · obtain ⟨n, rfl⟩ : ∃ n : ℕ, index = n := ⟨index.toNat, by omega⟩
    have hf := h.front.counted
    have hb := h.back.counted
    have hrevlen : d.shape.front.flatten.reverse.length =
        d.shape.front.flatten.length := List.length_reverse
    simp only [Deque.get, hout, if_false, Int.natCast_nonneg, if_true,
      Int.toNat_natCast]
    by_cases hside : (n : ℤ) < d.shape.frontCount
    · -- the front side, stored backwards
      have hne : d.shape.front ≠ [] := by
        intro hnil
        simp only [hnil, List.flatten_nil, List.length_nil] at hf
        omega
      obtain ⟨inner, outer, hblocks, hfull, -, hle, hcount⟩ :=
        h.front.outermost hne
      have hflat : d.elements[n]? =
          d.shape.front.flatten[d.shape.front.flatten.length - 1 - n]? := by
        rw [Deque.elements, DequeShape.elements,
          List.getElem?_append_left (by omega),
          List.getElem?_reverse (by omega)]
      have hhead : (d.shape.front.length : ℤ) - 1 = inner.length := by
        simp [hblocks]
      simp only [hside, if_true, hhead]
      by_cases hin : (n : ℤ) < d.shape.frontCount - inner.length * 512
      · obtain ⟨a, hread, ha⟩ := h.front.read (q := inner.length)
          (r := outer.length - 1 - n)
          (n := d.shape.front.flatten.length - 1 - n) (by omega) (by omega)
          (by omega) rfl (j := d.shape.frontCount - inner.length * 512 - 1 - n)
          (by omega) ⟨174, 45⟩ ⟨174, 51⟩
        rw [if_pos hin, hread, hflat, ha]
      · have hdiv : ((n : ℤ) - (d.shape.frontCount - inner.length * 512)).tdiv
            512 = ((n - outer.length) / 512 : ℕ) := by
          rw [Int.tdiv_eq_ediv_of_nonneg (by omega)]
          omega
        have hmod : ((n : ℤ) - (d.shape.frontCount - inner.length * 512)).tmod
            512 = ((n - outer.length) % 512 : ℕ) := by
          rw [Int.tmod_eq_emod_of_nonneg (by omega)]
          omega
        obtain ⟨a, hread, ha⟩ := h.front.read
          (q := inner.length - 1 - (n - outer.length) / 512)
          (r := 512 - 1 - (n - outer.length) % 512)
          (n := d.shape.front.flatten.length - 1 - n) (by omega) (by omega)
          (by omega)
          (i := inner.length - 1 - ((n - outer.length) / 512 : ℕ)) (by omega)
          (j := 512 - 1 - ((n - outer.length) % 512 : ℕ)) (by omega)
          ⟨178, 41⟩ ⟨178, 47⟩
        rw [if_neg hin, hdiv, hmod, hread, hflat, ha]
    · -- the back side
      have hflat : d.elements[n]? =
          d.shape.back.flatten[n - d.shape.front.flatten.length]? := by
        rw [Deque.elements, DequeShape.elements,
          List.getElem?_append_right (by omega), hrevlen]
      have hdiv : ((n : ℤ) - d.shape.frontCount).tdiv 512 =
          ((n - d.shape.front.flatten.length) / 512 : ℕ) := by
        rw [Int.tdiv_eq_ediv_of_nonneg (by omega)]
        omega
      have hmod : ((n : ℤ) - d.shape.frontCount).tmod 512 =
          ((n - d.shape.front.flatten.length) % 512 : ℕ) := by
        rw [Int.tmod_eq_emod_of_nonneg (by omega)]
        omega
      obtain ⟨a, hread, ha⟩ := h.back.read
        (q := (n - d.shape.front.flatten.length) / 512)
        (r := (n - d.shape.front.flatten.length) % 512)
        (n := n - d.shape.front.flatten.length) (by omega) (by omega)
        (by omega) rfl rfl ⟨181, 36⟩ ⟨181, 50⟩
      rw [if_neg hside, hdiv, hmod, hread, hflat, ha]

theorem Deque.first_spec (h : DequeInv d) :
    d.first = .ok d.elements.head? := by
  rw [Deque.first, Deque.get_spec h, List.head?_eq_getElem?]
  rfl

theorem Deque.last_spec (h : DequeInv d) :
    d.last = .ok d.elements.getLast? := by
  rw [Deque.last, Deque.get_spec h, Deque.len_eq h,
    List.getLast?_eq_getElem?]
  split
  · have hindex : ((d.elements.length : ℤ) - 1).toNat =
        d.elements.length - 1 := by omega
    rw [hindex]
  · rw [List.getElem?_eq_none]
    omega

theorem Deque.isEmpty_spec (h : DequeInv d) :
    d.isEmpty = d.elements.isEmpty := by
  rw [Deque.isEmpty, Deque.len_eq h]
  cases d.elements with
  | nil => rfl
  | cons a l =>
    rw [List.isEmpty_cons, decide_eq_false_iff_not, List.length_cons]
    omega

theorem readDown_spec {block : ℤ}
    (hblock : block = q) (hb : blocks[q]? = some b)
    (site site' : Site) (n : ℕ) :
    ∀ out, n ≤ b.length →
      readDown blocks block site site' n out =
        .ok (out ++ (b.take n).reverse) := by
  induction n with
  | zero =>
    intro out _
    simp [readDown]
  | succ n ih =>
    intro out hle
    have hn : n < b.length := by omega
    rw [readDown, listGet_ok site hblock hb, ok_bind,
      listGet_ok site' rfl (List.getElem?_eq_getElem hn), ok_bind,
      ih _ (by omega), ← List.take_append_getElem hn]
    rw [List.reverse_append, List.reverse_singleton, List.append_assoc]

/-- The full blocks under the head block. -/
theorem readBlocksDown_spec (blocks : List (List T)) (n : ℕ) :
    ∀ out, n ≤ blocks.length → (∀ b ∈ blocks.take n, b.length = 512) →
      readBlocksDown blocks n out =
        .ok (out ++ (blocks.take n).flatten.reverse) := by
  induction n with
  | zero =>
    intro out _ _
    simp [readBlocksDown]
  | succ n ih =>
    intro out hle hfull
    have hn : n < blocks.length := by omega
    have htake := List.take_append_getElem hn
    have hlen : blocks[n].length = 512 := by
      refine hfull _ ?_
      rw [← htake]
      exact List.mem_append_right _ List.mem_cons_self
    have hrest : ∀ b ∈ blocks.take n, b.length = 512 := by
      intro b hb
      refine hfull b ?_
      rw [← htake]
      exact List.mem_append_left _ hb
    have hall : blocks[n].take 512 = blocks[n] := by
      rw [List.take_of_length_le hlen.le]
    rw [readBlocksDown,
      readDown_spec rfl (List.getElem?_eq_getElem hn) _ _ _ _ hlen.ge,
      ok_bind, ih _ (by omega) hrest, ← htake, hall]
    rw [List.flatten_append, List.flatten_singleton, List.reverse_append,
      List.append_assoc]

theorem readUp_spec (hb : blocks[q]? = some b) (n : ℕ) :
    ∀ (slot : ℕ) out, slot + n ≤ b.length →
      readUp blocks q n slot out = .ok (out ++ (b.drop slot).take n) := by
  induction n with
  | zero =>
    intro slot out _
    simp [readUp]
  | succ n ih =>
    intro slot out hle
    have hs : slot < b.length := by omega
    rw [readUp, listGet_ok _ rfl hb, ok_bind,
      listGet_ok _ rfl (List.getElem?_eq_getElem hs), ok_bind,
      ← Nat.cast_succ, ih _ _ (by omega), List.drop_eq_getElem_cons hs,
      List.take_succ_cons, List.append_assoc, List.singleton_append]

/-- The room a turn of the listing loop finds is the block's length. -/
theorem Side.room {blocks : List (List T)} {count : ℤ}
    (h : Side blocks count) {k : ℕ} (hk : k < blocks.length) :
    let room := count - ((blocks.take k).flatten.length : ℤ)
    (if room > 512 then 512 else room) = (blocks[k].length : ℤ) ∧
      0 < room := by
  have hrest := (h.drop k).counted
  rw [List.drop_eq_getElem_cons hk, List.flatten_cons, List.length_append]
    at hrest
  have hmem : blocks[k] ∈ blocks := List.getElem_mem hk
  have hpos : 0 < blocks[k].length :=
    List.length_pos_iff.mpr (h.filled.nonempty _ hmem)
  have hle := h.filled.bounded _ hmem
  intro room
  change room = _ at hrest
  by_cases hlast : k + 1 = blocks.length
  · have hnil : blocks.drop (k + 1) = [] := by
      rw [List.drop_eq_nil_of_le hlast.ge]
    simp only [hnil, List.flatten_nil, List.length_nil] at hrest
    constructor
    · split <;> omega
    · omega
  · have hfull : blocks[k].length = 512 := by
      refine h.filled.full_take (n := k + 1) (by omega) _ ?_
      rw [← List.take_append_getElem hk]
      exact List.mem_append_right _ List.mem_cons_self
    have hnext : k + 1 < blocks.length := by omega
    have hmore : 0 < (blocks.drop (k + 1)).flatten.length := by
      rw [List.length_pos_iff, ne_eq, (h.filled.drop (k + 1)).flatten_eq_nil_iff,
        List.drop_eq_nil_iff]
      omega
    constructor
    · split <;> omega
    · omega

/-- The listing loop, with `n` blocks to go. -/
theorem readBack_spec (h : Side blocks count) (n : ℕ) :
    ∀ k out, k + n = blocks.length →
      readBack blocks count ((blocks.take k).flatten.length : ℤ) k out =
        .ok (out ++ (blocks.drop k).flatten) := by
  induction n with
  | zero =>
    intro k out hk
    have hall : blocks.take k = blocks := by
      rw [List.take_of_length_le (by omega)]
    have hnone : blocks.drop k = [] := by
      rw [List.drop_eq_nil_of_le (by omega)]
    rw [readBack, hall, if_neg (by rw [h.counted]; omega), hnone]
    simp
  | succ n ih =>
    intro k out hk
    have hlt : k < blocks.length := by omega
    obtain ⟨hroom, hpos⟩ := h.room hlt
    have htake := List.take_append_getElem hlt
    have htaken : ((blocks.take k).flatten.length : ℤ) + blocks[k].length =
        ((blocks.take (k + 1)).flatten.length : ℤ) := by
      rw [← htake, List.flatten_append]
      simp
    have hall : blocks[k].take blocks[k].length = blocks[k] :=
      List.take_length
    have hread := readUp_spec (List.getElem?_eq_getElem hlt)
      blocks[k].length 0 out (by omega)
    rw [List.drop_zero, hall, Nat.cast_zero] at hread
    rw [readBack, if_pos (by omega)]
    simp only [hroom, Int.toNat_natCast, hread, ok_bind, htaken]
    rw [← Nat.cast_succ, ih _ _ (by omega), List.drop_eq_getElem_cons hlt,
      List.flatten_cons, List.append_assoc]

/-- `to_list` answers the sequence. -/
theorem Deque.toList_spec (h : DequeInv d) :
    d.toList = .ok d.elements := by
  have hback := readBack_spec h.back d.shape.back.length 0
    d.shape.front.flatten.reverse (by omega)
  simp only [List.take_zero, List.flatten_nil, List.length_nil, Nat.cast_zero,
    List.drop_zero] at hback
  rcases eq_or_ne d.shape.front [] with hnil | hne
  · simp only [hnil, List.flatten_nil, List.reverse_nil] at hback
    simp [Deque.toList, Deque.elements, DequeShape.elements, hnil, hback]
  · obtain ⟨inner, outer, hblocks, hfull, -, -, hcount⟩ :=
      h.front.outermost hne
    have hhead : (d.shape.front.length : ℤ) - 1 = inner.length := by
      simp [hblocks]
    have hget : d.shape.front[inner.length]? = some outer := by
      simp [hblocks]
    have hslots : (d.shape.frontCount - inner.length * 512 - 1 + 1).toNat =
        outer.length := by omega
    have htake : d.shape.front.take inner.length = inner := by
      simp [hblocks]
    have hdown := readBlocksDown_spec d.shape.front inner.length outer.reverse
      (by simp [hblocks]) (by rw [htake]; exact hfull)
    have hfront : outer.reverse ++ inner.flatten.reverse =
        d.shape.front.flatten.reverse := by
      rw [hblocks]
      simp
    have hread := readDown_spec rfl hget ⟨221, 42⟩ ⟨221, 48⟩ outer.length []
      le_rfl
    rw [List.take_length, List.nil_append] at hread
    rw [htake, hfront] at hdown
    simp only [Deque.toList, hhead, ge_iff_le, Int.natCast_nonneg, if_true,
      hslots, hread, ok_bind, Int.toNat_natCast, hdown, hback]
    rfl

theorem DequeInv.empty : DequeInv (Deque.empty : Deque T) where
  front := .nil
  back := .nil
  spare := .nil

theorem Deque.pushFront_spec (h : DequeInv d) (value : T) :
    ∃ d', d.pushFront value = .ok d' ∧ DequeInv d' ∧
      d'.elements = value :: d.elements := by
  obtain ⟨front, spare, hpush, hside, hspare, hflat⟩ :=
    pushSide_spec h.front h.spare value ⟨88, 25⟩
  refine ⟨⟨{ d.shape with
      front := front
      frontCount := d.shape.frontCount + 1 }, spare⟩, ?_,
    ⟨hside, h.back, hspare⟩, ?_⟩
  · rw [Deque.pushFront, hpush, ok_bind]
    rfl
  · simp [Deque.elements, DequeShape.elements, hflat]

theorem Deque.pushBack_spec (h : DequeInv d) (value : T) :
    ∃ d', d.pushBack value = .ok d' ∧ DequeInv d' ∧
      d'.elements = d.elements ++ [value] := by
  obtain ⟨back, spare, hpush, hside, hspare, hflat⟩ :=
    pushSide_spec h.back h.spare value ⟨103, 24⟩
  refine ⟨⟨{ d.shape with
      back := back
      backCount := d.shape.backCount + 1 }, spare⟩, ?_,
    ⟨h.front, hside, hspare⟩, ?_⟩
  · rw [Deque.pushBack, hpush, ok_bind]
    rfl
  · simp [Deque.elements, DequeShape.elements, hflat]

/-- The head of a deque whose front side holds something. -/
theorem Deque.takeFront_spec (h : DequeInv d)
    (hne : d.shape.front ≠ []) :
    ∃ d', d.takeFront = .ok (d.elements.head?, d') ∧ DequeInv d' ∧
      d'.elements = d.elements.tail := by
  obtain ⟨front, spare, htake, hside, hspare, hflat⟩ :=
    takeSide_spec h.front hne h.spare ⟨120, 46⟩ ⟨124, 51⟩
  have hstored : d.shape.front.flatten ≠ [] := by
    rwa [ne_eq, h.front.filled.flatten_eq_nil_iff]
  obtain ⟨init, value, hsplit⟩ :=
    (List.eq_nil_or_concat' d.shape.front.flatten).resolve_left hstored
  refine ⟨⟨{ d.shape with
      front := front
      frontCount := d.shape.frontCount - 1 }, spare⟩, ?_,
    ⟨hside, h.back, hspare⟩, ?_⟩
  · rw [Deque.takeFront, htake, ok_bind]
    simp only [Deque.elements, DequeShape.elements, hsplit,
      List.getLast?_append, List.getLast?_singleton, List.reverse_append,
      List.reverse_singleton, List.cons_append,
      List.head?_cons]
    rfl
  · simp [Deque.elements, DequeShape.elements, hflat, hsplit]

/-- The tail of a deque whose back side holds something. -/
theorem Deque.takeBack_spec (h : DequeInv d)
    (hne : d.shape.back ≠ []) :
    ∃ d', d.takeBack = .ok (d.elements.getLast?, d') ∧ DequeInv d' ∧
      d'.elements = d.elements.dropLast := by
  obtain ⟨back, spare, htake, hside, hspare, hflat⟩ :=
    takeSide_spec h.back hne h.spare ⟨140, 45⟩ ⟨142, 50⟩
  have hstored : d.shape.back.flatten ≠ [] := by
    rwa [ne_eq, h.back.filled.flatten_eq_nil_iff]
  refine ⟨⟨{ d.shape with
      back := back
      backCount := d.shape.backCount - 1 }, spare⟩, ?_,
    ⟨h.front, hside, hspare⟩, ?_⟩
  · rw [Deque.takeBack, htake, ok_bind, Deque.elements, DequeShape.elements,
      List.getLast?_append_of_ne_nil _ hstored]
    rfl
  · rw [Deque.elements, Deque.elements, DequeShape.elements,
      DequeShape.elements, List.dropLast_append_of_ne_nil hstored, ← hflat]

/-- A deque whose two sides are empty. -/
theorem Deque.elements_eq_nil (hfront : d.shape.front = [])
    (hback : d.shape.back = []) : d.elements = [] := by
  simp [Deque.elements, DequeShape.elements, hfront, hback]

theorem Deque.popFront_spec (h : DequeInv d) :
    ∃ d', d.popFront = .ok (d.elements.head?, d') ∧ DequeInv d' ∧
      d'.elements = d.elements.tail := by
  by_cases hfront : d.shape.frontCount = 0
  · have hnil := h.front.eq_nil_iff.mp hfront
    by_cases hback : d.shape.backCount = 0
    · have hnone := Deque.elements_eq_nil hnil (h.back.eq_nil_iff.mp hback)
      refine ⟨d, ?_, h, by simp [hnone]⟩
      simp only [Deque.popFront, hfront, hback, if_true, hnone,
        List.head?_nil]
    · -- the front side is filled from the back side first
      obtain ⟨shape, hcross, hsf, hsb, hne, helems⟩ :=
        crossoverToFront_spec h.back (mt h.back.eq_nil_iff.mpr hback) hnil
      have hinv : DequeInv { d with shape := shape } :=
        ⟨hsf, hsb, h.spare⟩
      obtain ⟨d', htake, hd', htail⟩ := Deque.takeFront_spec hinv hne
      have hsame : Deque.elements { d with shape := shape } = d.elements :=
        helems
      rw [hsame] at htake htail
      refine ⟨d', ?_, hd', htail⟩
      simp only [Deque.popFront, hfront, hback, if_true, if_false, hcross,
        ok_bind, htake]
  · obtain ⟨d', htake, hd', htail⟩ :=
      Deque.takeFront_spec h (mt h.front.eq_nil_iff.mpr hfront)
    refine ⟨d', ?_, hd', htail⟩
    simp only [Deque.popFront, hfront, if_false, htake]

theorem Deque.popBack_spec (h : DequeInv d) :
    ∃ d', d.popBack = .ok (d.elements.getLast?, d') ∧ DequeInv d' ∧
      d'.elements = d.elements.dropLast := by
  by_cases hback : d.shape.backCount = 0
  · have hnil := h.back.eq_nil_iff.mp hback
    by_cases hfront : d.shape.frontCount = 0
    · have hnone := Deque.elements_eq_nil (h.front.eq_nil_iff.mp hfront) hnil
      refine ⟨d, ?_, h, by simp [hnone]⟩
      simp only [Deque.popBack, hfront, hback, if_true, hnone,
        List.getLast?_nil]
    · -- the back side is filled from the front side first
      obtain ⟨shape, hcross, hsf, hsb, hne, helems⟩ :=
        crossoverToBack_spec h.front (mt h.front.eq_nil_iff.mpr hfront) hnil
      have hinv : DequeInv { d with shape := shape } :=
        ⟨hsf, hsb, h.spare⟩
      obtain ⟨d', htake, hd', hinit⟩ := Deque.takeBack_spec hinv hne
      have hsame : Deque.elements { d with shape := shape } = d.elements :=
        helems
      rw [hsame] at htake hinit
      refine ⟨d', ?_, hd', hinit⟩
      simp only [Deque.popBack, hfront, hback, if_true, if_false, hcross,
        ok_bind, htake]
  · obtain ⟨d', htake, hd', hinit⟩ :=
      Deque.takeBack_spec h (mt h.back.eq_nil_iff.mpr hback)
    refine ⟨d', ?_, hd', hinit⟩
    simp only [Deque.popBack, hback, if_false, htake]

/-- The same operation on a plain sequence, with its answer. -/
def listStep (l : List T) : DequeOp T → List T × Option (Option T)
  | .pushFront value => (value :: l, none)
  | .pushBack value => (l ++ [value], none)
  | .popFront => (l.tail, some l.head?)
  | .popBack => (l.dropLast, some l.getLast?)
  | .clear => ([], none)

/-- A sequence of operations on a plain sequence. -/
def listRun (l : List T) :
    List (DequeOp T) → List T × List (Option (Option T))
  | [] => (l, [])
  | op :: ops =>
    let (l, answer) := listStep l op
    let (l, answers) := listRun l ops
    (l, answer :: answers)

/-- One operation, whatever it is. -/
theorem dequeStep_spec (h : DequeInv d) (op : DequeOp T) :
    ∃ d', dequeStep d op = .ok (d', (listStep d.elements op).2) ∧
      DequeInv d' ∧ d'.elements = (listStep d.elements op).1 := by
  cases op with
  | pushFront value =>
    obtain ⟨d', hop, hinv, helems⟩ := Deque.pushFront_spec h value
    refine ⟨d', ?_, hinv, helems⟩
    simp only [dequeStep, hop, ok_bind]
    rfl
  | pushBack value =>
    obtain ⟨d', hop, hinv, helems⟩ := Deque.pushBack_spec h value
    refine ⟨d', ?_, hinv, helems⟩
    simp only [dequeStep, hop, ok_bind]
    rfl
  | popFront =>
    obtain ⟨d', hop, hinv, helems⟩ := Deque.popFront_spec h
    refine ⟨d', ?_, hinv, helems⟩
    simp only [dequeStep, hop, ok_bind]
    rfl
  | popBack =>
    obtain ⟨d', hop, hinv, helems⟩ := Deque.popBack_spec h
    refine ⟨d', ?_, hinv, helems⟩
    simp only [dequeStep, hop, ok_bind]
    rfl
  | clear => exact ⟨Deque.empty, rfl, .empty, rfl⟩

/-- A whole program, from a deque in shape. -/
theorem dequeRun_spec (ops : List (DequeOp T))
    (h : DequeInv d) :
    ∃ d', dequeRun d ops = .ok (d', (listRun d.elements ops).2) ∧
      DequeInv d' ∧ d'.elements = (listRun d.elements ops).1 := by
  induction ops generalizing d with
  | nil => exact ⟨d, rfl, h, rfl⟩
  | cons op ops ih =>
    obtain ⟨d₁, hstep, h₁, helems₁⟩ := dequeStep_spec h op
    obtain ⟨d₂, hrun, h₂, helems₂⟩ := ih h₁
    rw [helems₁] at hrun helems₂
    refine ⟨d₂, ?_, h₂, helems₂⟩
    simp only [dequeRun, hstep, ok_bind, hrun]
    rfl

/--
After every program on the empty deque: no operation panics, the pops answer
and the reads agree with the plain sequence, inner blocks hold exactly 512
elements, no block is empty and the counters count.
-/
theorem deque_refines_list (ops : List (DequeOp T)) :
    ∃ d, dequeRun .empty ops = .ok (d, (listRun [] ops).2) ∧
      d.toList = .ok (listRun [] ops).1 ∧
      d.len = (listRun [] ops).1.length ∧
      d.isEmpty = (listRun [] ops).1.isEmpty ∧
      d.first = .ok (listRun [] ops).1.head? ∧
      d.last = .ok (listRun [] ops).1.getLast? ∧
      (∀ index : ℤ, d.get index = .ok
        (if 0 ≤ index then (listRun [] ops).1[index.toNat]? else none)) ∧
      Filled 512 d.shape.front ∧ Filled 512 d.shape.back ∧
      d.shape.frontCount = d.shape.front.flatten.length ∧
      d.shape.backCount = d.shape.back.flatten.length := by
  obtain ⟨d, hrun, hinv, helems⟩ := dequeRun_spec ops DequeInv.empty
  have hempty : (Deque.empty : Deque T).elements = [] := rfl
  rw [hempty] at hrun helems
  rw [← helems]
  exact ⟨d, hrun, Deque.toList_spec hinv, Deque.len_eq hinv,
    Deque.isEmpty_spec hinv, Deque.first_spec hinv, Deque.last_spec hinv,
    Deque.get_spec hinv, hinv.front.filled, hinv.back.filled,
    hinv.front.counted, hinv.back.counted⟩

end Collections
end Beans
