import Beans.Collections.ListSortStable

/-!
# The counting passes and the two paths of sorting by key

The distance of a key to the minimum orders keys as signed integers, and the
number of passes is enough for the greatest distance.  Each pass sorts by one
digit more, so after the last one the list is the stable sort, and so is what
the merge path answers.

**Results.**
* `listSorts_stable`: integers, items with keys of their own, keys that a callback answers, and
  merging by a comparison that may be anything: permutations, and stable sorts where the
  comparison is a strict weak order.
-/

namespace Beans
namespace ListSort

open CountingSort StableSort

theorem toInt_eq_toNat (k : Int64) :
    k.toInt = if k.toUInt64.toNat < 2 ^ 63 then (k.toUInt64.toNat : ℤ)
      else k.toUInt64.toNat - 2 ^ 64 := by
  have h : k.toInt = k.toBitVec.toInt := rfl
  rw [h, BitVec.toInt_eq_toNat_cond]
  have hnat : k.toBitVec.toNat = k.toUInt64.toNat := rfl
  rw [hnat]
  norm_num
  split_ifs <;> omega

variable {k minimum : Int64} {hi lo n passes : ℕ} {m : KeyMerging}

/-- The distance is the exact difference. -/
theorem distance_toNat (h : minimum.toInt ≤ k.toInt) :
    ((distance minimum k).toNat : ℤ) = k.toInt - minimum.toInt := by
  have hk := k.toUInt64.toNat_lt
  have hm := minimum.toUInt64.toNat_lt
  rw [distance, UInt64.toNat_sub, toInt_eq_toNat k, toInt_eq_toNat minimum]
  rw [toInt_eq_toNat k, toInt_eq_toNat minimum] at h
  split_ifs at h ⊢ <;> omega

theorem distance_lt_iff {j : Int64} (hj : minimum.toInt ≤ j.toInt)
    (hk : minimum.toInt ≤ k.toInt) :
    (distance minimum j).toNat < (distance minimum k).toNat ↔
      j.toInt < k.toInt := by
  have := distance_toNat hj
  have := distance_toNat hk
  omega

theorem digitOf_eq {pass : ℕ} (h : pass < 4) :
    digitOf minimum pass k =
      (distance minimum k).toNat / 65536 ^ pass % 65536 := by
  have hshift : (UInt64.ofNat (pass * 16)).toNat % 64 = pass * 16 := by
    interval_cases pass <;> rfl
  have hpow : 2 ^ (pass * 16) = 65536 ^ pass := by
    rw [Nat.mul_comm, pow_mul]
    norm_num
  rw [digitOf, UInt64.toNat_and, UInt64.toNat_shiftRight, hshift,
    Nat.shiftRight_eq_div_pow, hpow]
  exact Nat.and_two_pow_sub_one_eq_mod _ 16

theorem digitOf_lt (minimum : Int64) (pass : ℕ) (k : Int64) :
    digitOf minimum pass k < 65536 := by
  rw [digitOf, UInt64.toNat_and]
  exact lt_of_le_of_lt Nat.and_le_right (by decide)

theorem passesFor_spec (span : UInt64) :
    0 < passesFor span ∧ passesFor span ≤ 4 ∧
      span.toNat < 65536 ^ passesFor span := by
  have hlt := span.toNat_lt
  unfold passesFor
  simp only [UInt64.le_iff_toNat_le]
  have h16 : (0xffff : UInt64).toNat = 65535 := rfl
  have h32 : (0xffffffff : UInt64).toNat = 4294967295 := rfl
  rw [h16, h32]
  split_ifs <;> norm_num <;> omega

/-- The first loop finds bounds of the keys. -/
theorem observed_spec (keys : List Int64) :
    ∀ k ∈ keys, (observed keys).1.toInt ≤ k.toInt ∧
      k.toInt ≤ (observed keys).2.toInt := by
  have hfold : ∀ (ks : List Int64) (lo hi : Int64),
      let found := ks.foldl (fun ends k =>
        (if k < ends.1 then k else ends.1, if ends.2 < k then k else ends.2))
        (lo, hi)
      (found.1.toInt ≤ lo.toInt ∧ hi.toInt ≤ found.2.toInt) ∧
        ∀ k ∈ ks, found.1.toInt ≤ k.toInt ∧ k.toInt ≤ found.2.toInt := by
    intro ks
    induction ks with
    | nil => exact fun lo hi => ⟨⟨le_rfl, le_rfl⟩, fun k hk => absurd hk List.not_mem_nil⟩
    | cons x ks ih =>
      intro lo hi
      obtain ⟨⟨hlo, hhi⟩, hall⟩ :=
        ih (if x < lo then x else lo) (if hi < x then x else hi)
      have hlow : (if x < lo then x else lo).toInt ≤ lo.toInt ∧
          (if x < lo then x else lo).toInt ≤ x.toInt := by
        split_ifs with hx
        · rw [Int64.lt_iff_toInt_lt] at hx
          omega
        · rw [Int64.lt_iff_toInt_lt] at hx
          omega
      have hhigh : hi.toInt ≤ (if hi < x then x else hi).toInt ∧
          x.toInt ≤ (if hi < x then x else hi).toInt := by
        split_ifs with hx
        · rw [Int64.lt_iff_toInt_lt] at hx
          omega
        · rw [Int64.lt_iff_toInt_lt] at hx
          omega
      refine ⟨⟨hlo.trans hlow.1, hhigh.1.trans hhi⟩, fun k hk => ?_⟩
      rcases List.mem_cons.mp hk with rfl | hk
      · exact ⟨hlo.trans hlow.2, hhigh.2.trans hhi⟩
      · exact hall k hk
  cases keys with
  | nil => exact fun k hk => absurd hk List.not_mem_nil
  | cons x ks =>
    obtain ⟨hends, hall⟩ := hfold ks x x
    intro k hk
    rcases List.mem_cons.mp hk with rfl | hk
    · exact hends
    · exact hall k hk

section Distances

variable {α : Type*} {f : α → Int64} {xs ys : List α}

/-- Sorted by all the digits that occur is sorted by the signed key. -/
theorem sorts_of_digits
    (h : Sorts (byKey fun x =>
      (distance (observed (xs.map f)).1 (f x)).toNat %
        65536 ^ passesFor (distance (observed (xs.map f)).1
          (observed (xs.map f)).2)) xs ys) :
    Sorts (byKey fun x => (f x).toInt) xs ys := by
  have hbounds := observed_spec (xs.map f)
  set minimum := (observed (xs.map f)).1
  set maximum := (observed (xs.map f)).2
  have hin : ∀ x ∈ xs, minimum.toInt ≤ (f x).toInt ∧
      (f x).toInt ≤ maximum.toInt :=
    fun x hx => hbounds (f x) (List.mem_map_of_mem hx)
  have hspan := (passesFor_spec (distance minimum maximum)).2.2
  have hmod : ∀ x ∈ xs, (distance minimum (f x)).toNat %
      65536 ^ passesFor (distance minimum maximum) =
      (distance minimum (f x)).toNat := by
    intro x hx
    obtain ⟨hlo, hhi⟩ := hin x hx
    have hmax := distance_toNat (hlo.trans hhi)
    have hkey := distance_toNat hlo
    exact Nat.mod_eq_of_lt (lt_of_le_of_lt (by omega) hspan)
  refine h.rekey fun x hx y hy => ?_
  rw [hmod x hx, hmod y hy]
  exact distance_lt_iff (hin x hx).1 (hin y hy).1

/-- One pass sorts by one digit more. -/
theorem sorts_pass {minimum : Int64} {pass : ℕ} (hpass : pass < 4)
    (h : Sorts (byKey fun x => (distance minimum (f x)).toNat % 65536 ^ pass) xs ys) :
    Sorts (byKey fun x => (distance minimum (f x)).toNat % 65536 ^ (pass + 1)) xs
      (distribute 65536 (fun x => digitOf minimum pass (f x)) ys) := by
  have hnext := Sorts.distribute (show 0 < 65536 ^ pass by positivity)
    (show 0 < 65536 by omega) h
  rw [pow_succ]
  have hdigit : (fun x => digitOf minimum pass (f x)) = fun x =>
      (distance minimum (f x)).toNat / 65536 ^ pass % 65536 :=
    funext fun x => digitOf_eq hpass
  rw [hdigit]
  exact hnext

theorem sorts_start (minimum : Int64) :
    Sorts (byKey fun x => (distance minimum (f x)).toNat % 65536 ^ 0) xs xs := by
  refine ⟨?_, fun _ => rfl⟩
  refine List.pairwise_of_forall fun x y => ?_
  rw [byKey, pow_zero, Nat.mod_one, Nat.mod_one]
  rfl

theorem length_distribute_all (minimum : Int64) (pass : ℕ) (xs : List α) :
    (distribute 65536 (fun x => digitOf minimum pass (f x)) xs).length =
      xs.length := by
  rw [length_distribute, before_base fun x => digitOf_lt minimum pass (f x)]

end Distances

@[simp] theorem Buffers.swap_src {α : Type*} (b : Buffers α) (filled : List α) :
    (b.swap filled).src = filled := rfl

@[simp] theorem Buffers.swap_dst {α : Type*} (b : Buffers α) (filled : List α) :
    (b.swap filled).dst = b.src := rfl

theorem Buffers.settle_eq {α : Type*} {b : Buffers α}
    (h : b.dst.length = b.src.length) : b.settle = b.src := by
  unfold Buffers.settle
  rw [List.drop_eq_nil_of_le h.le, List.append_nil, ite_self]

/-- What the passes have made of the list so far. -/
structure RadixInv (minimum : Int64) (a : List Slot) (pass : ℕ)
    (b : Buffers Slot) : Prop where
  sorts : Sorts (byKey fun x => (distance minimum x).toNat % 65536 ^ pass) a b.src
  src_length : b.src.length = a.length
  dst_length : b.dst.length = a.length

theorem RadixInv.pass {minimum : Int64} {a : List Slot} {pass : ℕ} {b : Buffers Slot}
    (h : RadixInv minimum a pass b) (hpass : pass < 4) :
    RadixInv minimum a (pass + 1) (radixPass minimum b pass) := by
  have hfill := scatter_eq (digitOf_lt minimum pass) id b.src
    (h.dst_length.trans h.src_length.symm)
  rw [List.map_id] at hfill
  refine ⟨?_, ?_, h.src_length⟩
  · show Sorts _ a (scatter _ id b.src _ b.dst)
    rw [hfill]
    exact sorts_pass (f := id) hpass h.sorts
  · show (scatter _ id b.src _ b.dst).length = a.length
    rw [hfill]
    exact (length_distribute_all (f := id) minimum pass b.src).trans h.src_length

theorem radixPasses_inv (minimum : Int64) {a buf : List Slot} (hbuf : buf.length = a.length)
    (h : passes ≤ 4) :
    RadixInv minimum a passes
      ((List.range passes).foldl (radixPass minimum) ⟨a, buf, true⟩) := by
  induction passes with
  | zero => exact ⟨sorts_start (f := id) minimum, rfl, hbuf⟩
  | succ passes ih =>
    rw [List.range_succ, List.foldl_append]
    exact (ih (by omega)).pass (by omega)

/-- Sorting integers is the stable sort over the whole signed range. -/
theorem radixSort_sorts (a buf : List Slot) (hbuf : buf.length = a.length) :
    Sorts (byKey Int64.toInt) a (listRadixSortInt a buf) := by
  unfold listRadixSortInt
  split_ifs with hshort
  · exact Sorts.short (by omega)
  · dsimp only
    obtain ⟨hsorts, hsrc, hdst⟩ := radixPasses_inv (observed a).1 hbuf
      (passesFor_spec (distance (observed a).1 (observed a).2)).2.1
    rw [Buffers.settle_eq (hdst.trans hsrc.symm)]
    refine sorts_of_digits (f := id) ?_
    rw [List.map_id]
    exact hsorts

/-- The keys and the values as a list of items. -/
def KeyMerging.items (m : KeyMerging) : Merging Unit (Int64 × Slot) :=
  ⟨(), m.lo, m.keys.zip m.values⟩

def KeyWidening.items (m : KeyWidening) : Widening Unit (Int64 × Slot) :=
  ⟨(), m.width, m.keys.zip m.values⟩

/-- The comparison of two items by their keys. -/
def lessKey (_ : Unit) (_ : List (Int64 × Slot)) (y x : Int64 × Slot) :
    Unit × Bool :=
  ((), decide (y.1 < x.1))

theorem lessKey_decides : Decides lessKey (byKey fun item => item.1.toInt) := by
  intro s seen x y
  rw [lessKey, byKey, decide_eq_decide]
  exact Int64.lt_iff_toInt_lt

theorem length_items {keys : List Int64} {values : List Slot}
    (h : keys.length = values.length) : (keys.zip values).length = keys.length := by
  rw [List.length_zip]
  omega

theorem getD_zip {keys : List Int64} {values : List Slot}
    (h : keys.length = values.length) (i : ℕ) :
    (keys.zip values).getD i (0, 0) = (keys.getD i 0, values.getD i 0) := by
  have hlen := length_items h
  simp only [List.getD_eq_getElem?_getD]
  by_cases hi : i < keys.length
  · have hv : i < values.length := by omega
    have hz : i < (keys.zip values).length := by omega
    rw [List.getElem?_eq_getElem hi, List.getElem?_eq_getElem hv,
      List.getElem?_eq_getElem hz, List.getElem_zip]
    rfl
  · have hk : keys.length ≤ i := by omega
    have hv : values.length ≤ i := by omega
    have hz : (keys.zip values).length ≤ i := by omega
    rw [List.getElem?_eq_none hk, List.getElem?_eq_none hv,
      List.getElem?_eq_none hz]
    rfl

theorem stretch_eq_map {α : Type*} (d : α) {a : List α}
    (h : hi ≤ a.length) :
    stretch a lo hi = (List.range' lo (hi - lo)).map (a.getD · d) := by
  refine List.ext_getElem? fun i => ?_
  rw [stretch, List.getElem?_take, List.getElem?_map, List.getElem?_drop]
  by_cases hi' : i < hi - lo
  · rw [if_pos hi', List.getElem?_range' hi', Option.map_some,
      List.getD_eq_getElem?_getD, Nat.one_mul,
      List.getElem?_eq_getElem (show lo + i < a.length by omega)]
    rfl
  · rw [if_neg hi', List.getElem?_eq_none (by rw [List.length_range']; omega)]
    rfl

theorem zip_splice {keys ks : List Int64} {values vs : List Slot}
    (h : keys.length = values.length) (hs : ks.length = vs.length) :
    (splice keys lo hi ks).zip (splice values lo hi vs) =
      splice (keys.zip values) lo hi (ks.zip vs) := by
  have htake : (keys.take lo).length = (values.take lo).length := by
    rw [List.length_take, List.length_take, h]
  rw [splice, splice, splice, List.zip_append (by
    rw [List.length_append, List.length_append, htake, hs]),
    List.zip_append htake]
  simp only [List.zip, List.take_zipWith, List.drop_zipWith]

/-- The places taken name the merged items. -/
theorem keyTakes_items {keys : List Int64} {values : List Slot} (lo : ℕ)
    {mid : ℕ} (h : keys.length = values.length) (hmid : mid ≤ keys.length)
    (hhi : hi ≤ keys.length) :
    (keyTakes keys lo mid hi).map ((keys.zip values).getD · (0, 0)) =
      (mergeRuns (fun s => lessKey s (keys.zip values)) ()
        (stretch (keys.zip values) lo mid)
        (stretch (keys.zip values) mid hi)).2 := by
  have hlen := length_items h
  have hmap := mergeRuns_map ((keys.zip values).getD · (0, 0))
    (fun y x : Int64 × Slot => decide (y.1 < x.1))
    (List.range' lo (mid - lo)) (List.range' mid (hi - mid))
  rw [← stretch_eq_map (0, 0) (hmid.trans hlen.ge),
    ← stretch_eq_map (0, 0) (hhi.trans hlen.ge)] at hmap
  unfold keyTakes
  simp only [getD_zip h] at hmap ⊢
  exact hmap.symm

theorem keyMergeBlock_items {width : ℕ} (h : m.keys.length = m.values.length) :
    mergeBlock lessKey width m.items =
      (keyMergeBlock width m).map KeyMerging.items := by
  have hlen : m.items.a.length = m.keys.length := length_items h
  have hlo : m.items.lo = m.lo := rfl
  unfold mergeBlock keyMergeBlock
  dsimp only
  rw [hlen, hlo]
  by_cases hn : m.lo < m.keys.length
  · rw [if_pos hn, if_pos hn, Option.map_some]
    obtain ⟨mid, hmid⟩ : ∃ mid, mid = clip m.keys.length (m.lo + width) := ⟨_, rfl⟩
    obtain ⟨hi, hhi⟩ : ∃ hi, hi = clip m.keys.length (m.lo + 2 * width) := ⟨_, rfl⟩
    rw [← hmid, ← hhi]
    rw [clip_eq] at hmid hhi
    have hitems : KeyMerging.items ⟨m.lo + 2 * width,
        splice m.keys m.lo hi ((keyTakes m.keys m.lo mid hi).map (m.keys.getD · 0)),
        splice m.values m.lo hi
          ((keyTakes m.keys m.lo mid hi).map (m.values.getD · 0))⟩ =
        ⟨(), m.lo + 2 * width, splice m.items.a m.lo hi
          (mergeRuns (fun s => lessKey s m.items.a) ()
            (stretch m.items.a m.lo mid) (stretch m.items.a mid hi)).2⟩ := by
      have htakes := keyTakes_items m.lo h (show mid ≤ m.keys.length by omega)
        (show hi ≤ m.keys.length by omega)
      rw [KeyMerging.items]
      dsimp only
      rw [zip_splice h (by rw [List.length_map, List.length_map]), List.zip_map']
      simp only [getD_zip h] at htakes
      rw [htakes]
      rfl
    rw [hitems]
    by_cases hright : hi ≤ mid
    · have hnone : stretch m.items.a mid hi = [] := by
        rw [stretch, Nat.sub_eq_zero_of_le hright, List.take_zero]
      have hsame : splice m.items.a m.lo hi
          (mergeRuns (fun s => lessKey s m.items.a) ()
            (stretch m.items.a m.lo mid) []).2 = m.items.a := by
        rw [mergeRuns_nil, show mid = hi by omega, splice_stretch (by omega)]
      rw [if_pos hright, hnone, hsame]
    · rw [if_neg hright]
  · rw [if_neg hn, if_neg hn]
    rfl

theorem length_keyTakes (keys : List Int64) (lo mid hi : ℕ) :
    (keyTakes keys lo mid hi).length = mid - lo + (hi - mid) := by
  rw [keyTakes, length_mergeRuns, List.length_range', List.length_range']

/-- The two arrays keep their length. -/
structure KeyMerging.SameLength (n : ℕ) (m : KeyMerging) : Prop where
  keys : m.keys.length = n
  values : m.values.length = n

theorem keyMergeBlock_length {width : ℕ} {m' : KeyMerging}
    (h : m.SameLength n) (hstep : keyMergeBlock width m = some m') :
    m'.SameLength n := by
  obtain ⟨hkeys, hvalues⟩ := h
  unfold keyMergeBlock at hstep
  dsimp only at hstep
  split_ifs at hstep with hn
  cases hstep
  have hmid := clip_eq m.keys.length (m.lo + width)
  have hhi := clip_eq m.keys.length (m.lo + 2 * width)
  have htakes : ∀ a : List Int64,
      ((keyTakes m.keys m.lo (clip m.keys.length (m.lo + width))
        (clip m.keys.length (m.lo + 2 * width))).map (a.getD · 0)).length =
        clip m.keys.length (m.lo + 2 * width) - m.lo := by
    intro a
    rw [List.length_map, length_keyTakes]
    omega
  exact ⟨(length_splice (by omega) (by omega) (htakes _)).trans hkeys,
    (length_splice (by omega) (by omega) (htakes _)).trans hvalues⟩

structure KeyWidening.SameLength (n : ℕ) (m : KeyWidening) : Prop where
  keys : m.keys.length = n
  values : m.values.length = n

/-- The pass on the two arrays, and what it is on the items. -/
theorem keyMergePass_items (width : ℕ) (h : m.SameLength n) :
    (Loop.run (keyMergeBlock width) n m).SameLength n ∧
      Loop.run (mergeBlock lessKey width) n m.items =
        (Loop.run (keyMergeBlock width) n m).items :=
  ⟨Loop.run_invariant (fun _ _ hm hstep => keyMergeBlock_length hm hstep) h n,
    Loop.run_map (P := KeyMerging.SameLength n)
      (fun _ _ hm hstep => keyMergeBlock_length hm hstep)
      (fun _ hm => keyMergeBlock_items (hm.keys.trans hm.values.symm)) h n⟩

theorem keyMergeWidth_length {m m' : KeyWidening} (h : m.SameLength n)
    (hstep : keyMergeWidth m = some m') : m'.SameLength n := by
  unfold keyMergeWidth at hstep
  split_ifs at hstep
  cases hstep
  have hpass := (keyMergePass_items m.width
    (m := ⟨0, m.keys, m.values⟩) ⟨h.keys, h.values⟩).1
  rw [h.keys]
  exact ⟨hpass.keys, hpass.values⟩

theorem keyMergeWidth_items {m : KeyWidening} (h : m.SameLength n) :
    mergeWidth lessKey m.items = (keyMergeWidth m).map KeyWidening.items := by
  have hlen : m.items.a.length = m.keys.length :=
    length_items (h.keys.trans h.values.symm)
  have hpass := (keyMergePass_items m.width
    (m := ⟨0, m.keys, m.values⟩) ⟨h.keys, h.values⟩).2
  unfold mergeWidth keyMergeWidth
  rw [hlen]
  show (if m.width < m.keys.length then _ else none) = _
  split_ifs with hn
  · have hrun : mergePass lessKey m.items.w m.items.program m.items.a =
        (Loop.run (keyMergeBlock m.width) n ⟨0, m.keys, m.values⟩).items := by
      rw [← hpass, mergePass, hlen, h.keys]
      rfl
    rw [hrun, h.keys]
    rfl
  · rfl

/-- The merge path is the merge sort of the items by their keys. -/
theorem mergeByKey_eq {keys : List Int64} {values : List Slot}
    (h : keys.length = values.length) :
    mergeByKey keys values =
      (listMergeSort lessKey () (keys.zip values)).2.map Prod.snd := by
  have hlen := length_items h
  have hstart : KeyWidening.SameLength keys.length ⟨1, keys, values⟩ := ⟨rfl, h.symm⟩
  have hrun := Loop.run_map (P := KeyWidening.SameLength keys.length)
    (fun _ _ hm hstep => keyMergeWidth_length hm hstep)
    (fun _ hm => keyMergeWidth_items hm) hstart keys.length
  have hend := Loop.run_invariant
    (fun _ _ hm hstep => keyMergeWidth_length hm hstep) hstart keys.length
  have hvalues : (listMergeSort lessKey () (keys.zip values)).2 =
      (Loop.run keyMergeWidth keys.length ⟨1, keys, values⟩).items.a := by
    rw [← hrun]
    unfold listMergeSort
    rw [hlen]
    split_ifs with hshort
    · have hnone : mergeWidth lessKey (KeyWidening.items ⟨1, keys, values⟩) = none :=
        if_neg (by
          show ¬ 1 < (keys.zip values).length
          omega)
      rw [Loop.run_none hnone]
      rfl
    · rfl
  rw [hvalues, mergeByKey, KeyWidening.items]
  exact (List.map_snd_zip (hend.values.trans hend.keys.symm).le).symm

theorem tally_map {α β : Type*} (base : ℕ) (digit : β → ℕ) (f : α → β) (xs : List α) :
    tally base digit (xs.map f) = tally base (fun x => digit (f x)) xs := by
  rw [tally, tally, List.foldl_map]

/-- What the passes have made of the items so far. -/
structure KeyRadixInv (minimum : Int64) (passes : ℕ) (items : List (Int64 × Slot))
    (pass : ℕ) (b : KeyBuffers) : Prop where
  sorted : ∃ done, Sorts (byKey fun item : Int64 × Slot =>
      (distance minimum item.1).toNat % 65536 ^ pass) items done ∧
    b.values.src = done.map Prod.snd ∧
    (pass < passes → b.keys.src = done.map Prod.fst)
  keys_dst : 1 < passes → b.keys.dst.length = items.length
  values_dst : b.values.dst.length = items.length

theorem KeyRadixInv.pass {minimum : Int64} {passes pass : ℕ} {items : List (Int64 × Slot)}
    {b : KeyBuffers} (h : KeyRadixInv minimum passes items pass b) (hpass : pass < passes)
    (hpasses : passes ≤ 4) :
    KeyRadixInv minimum passes items (pass + 1)
      (keyRadixPass minimum passes b pass) := by
  obtain ⟨done, hdone, hvalues, hkeys⟩ := h.sorted
  have hkeys := hkeys hpass
  have hlen := (hdone.perm (byKey_strictWeak _)).length_eq
  have hzip : b.keys.src.zip b.values.src = done := by
    rw [hkeys, hvalues, List.zip_map', List.map_id']
  have hstarts : tally 65536 (digitOf minimum pass) b.keys.src =
      tally 65536 (fun item : Int64 × Slot => digitOf minimum pass item.1) done := by
    rw [hkeys, tally_map]
  have hdigit : ∀ item : Int64 × Slot,
      (fun item : Int64 × Slot => digitOf minimum pass item.1) item < 65536 :=
    fun item => digitOf_lt minimum pass item.1
  have hfill : ∀ (f : Int64 × Slot → Int64) (dst : List Int64),
      dst.length = items.length →
      scatter (fun item : Int64 × Slot => digitOf minimum pass item.1) f done
        (starts 0 (tally 65536 (digitOf minimum pass) b.keys.src)) dst =
      (distribute 65536 (fun item : Int64 × Slot => digitOf minimum pass item.1)
        done).map f := by
    intro f dst hdst
    rw [hstarts, scatter_eq hdigit f done (hdst.trans hlen.symm)]
  have hnext := sorts_pass (f := Prod.fst) (show pass < 4 by omega) hdone
  unfold keyRadixPass
  dsimp only
  rw [hzip]
  refine ⟨⟨_, hnext, ?_, fun hmore => ?_⟩, fun hmore => ?_, ?_⟩
  · rw [Buffers.swap_src, hfill Prod.snd _ h.values_dst]
  · rw [if_pos (show 1 < passes by omega), Buffers.swap_src,
      hfill Prod.fst _ (h.keys_dst (by omega))]
  · rw [if_pos hmore, Buffers.swap_dst, hkeys, List.length_map, hlen]
  · rw [Buffers.swap_dst, hvalues, List.length_map, hlen]

theorem keyRadixPasses_inv (minimum : Int64) {keys : List Int64}
    {values keyBuf valBuf : List Slot} (h : keys.length = values.length)
    (hkeyBuf : keyBuf.length = keys.length) (hvalBuf : valBuf.length = keys.length) {pass : ℕ}
    (hpass : pass ≤ passes) (hpasses : passes ≤ 4) :
    KeyRadixInv minimum passes (keys.zip values) pass
      ((List.range pass).foldl (keyRadixPass minimum passes)
        ⟨⟨keys, keyBuf, true⟩, ⟨values, valBuf, true⟩⟩) := by
  have hlen := length_items h
  induction pass with
  | zero =>
    exact ⟨⟨_, sorts_start (f := Prod.fst) minimum,
      (List.map_snd_zip h.ge).symm, fun _ => (List.map_fst_zip h.le).symm⟩,
      fun _ => hkeyBuf.trans hlen.symm, hvalBuf.trans hlen.symm⟩
  | succ pass ih =>
    rw [List.range_succ, List.foldl_append]
    exact (ih (by omega)).pass (by omega) hpasses

/-- The counting path answers the values of the stable sort by key. -/
theorem radixByKey_sorts {keys : List Int64} {values keyBuf valBuf : List Slot}
    (h : keys.length = values.length) (hkeyBuf : keyBuf.length = keys.length)
    (hvalBuf : valBuf.length = keys.length) :
    ∃ done, Sorts (byKey fun item : Int64 × Slot => item.1.toInt)
      (keys.zip values) done ∧
      radixByKey keys values keyBuf valBuf = done.map Prod.snd := by
  have hinv := keyRadixPasses_inv (observed keys).1 h hkeyBuf hvalBuf
    le_rfl (passesFor_spec (distance (observed keys).1 (observed keys).2)).2.1
  obtain ⟨done, hdone, hvalues, -⟩ := hinv.sorted
  have hlen := (hdone.perm (byKey_strictWeak _)).length_eq
  refine ⟨done, ?_, ?_⟩
  · refine sorts_of_digits (f := Prod.fst) ?_
    rw [List.map_fst_zip h.le]
    exact hdone
  · have hrun : radixByKey keys values keyBuf valBuf =
        ((List.range (passesFor (distance (observed keys).1 (observed keys).2))).foldl
          (keyRadixPass (observed keys).1
            (passesFor (distance (observed keys).1 (observed keys).2)))
          ⟨⟨keys, keyBuf, true⟩, ⟨values, valBuf, true⟩⟩).values.settle := rfl
    rw [hrun, Buffers.settle_eq (by
      rw [hinv.values_dst, hvalues, List.length_map, hlen]), hvalues]

/-- The merge path answers the values of the same list. -/
theorem mergeByKey_sorts {keys : List Int64} {values : List Slot} {done : List (Int64 × Slot)}
    (h : keys.length = values.length)
    (hdone : Sorts (byKey fun item : Int64 × Slot => item.1.toInt)
      (keys.zip values) done) :
    mergeByKey keys values = done.map Prod.snd := by
  have hmerge := mergeSort_sorts (byKey_strictWeak _) lessKey_decides ()
    (keys.zip values)
  rw [mergeByKey_eq h, hmerge.unique (byKey_strictWeak _) hdone]

theorem length_keyCalls {σ : Type*} (keyFn : σ → Slot → σ × Int64) (s : σ)
    (values : List Slot) : (keyCalls keyFn s values).2.length = values.length := by
  induction values generalizing s with
  | nil => rfl
  | cons value values ih => exact congrArg Nat.succ (ih _)

/-- The stable sort by the keys that the calls gave, on whichever path. -/
theorem sortByKey_sorts {σ : Type*} (keyFn : σ → Slot → σ × Int64) (s : σ)
    (values keyBuf valBuf : List Slot) (hkeyBuf : keyBuf.length = values.length)
    (hvalBuf : valBuf.length = values.length) :
    ∃ done, Sorts (byKey fun item : Int64 × Slot => item.1.toInt)
      ((keyCalls keyFn s values).2.zip values) done ∧
      (listSortByKeySlots keyFn s values keyBuf valBuf).2 = done.map Prod.snd := by
  have hkeys := length_keyCalls keyFn s values
  obtain ⟨done, hdone, hradix⟩ := radixByKey_sorts hkeys
    (hkeyBuf.trans hkeys.symm) (hvalBuf.trans hkeys.symm)
  refine ⟨done, hdone, ?_⟩
  have hmerge := mergeByKey_sorts hkeys hdone
  have hlen := length_items hkeys
  have hshort : values.length < 2 → values = done.map Prod.snd := by
    intro hn
    have hself : Sorts (byKey fun item : Int64 × Slot => item.1.toInt)
        ((keyCalls keyFn s values).2.zip values) _ := Sorts.short (by omega)
    rw [← hself.unique (byKey_strictWeak _) hdone, List.map_snd_zip hkeys.ge]
  unfold listSortByKeySlots
  dsimp only
  split_ifs with hnone hone hcross
  · exact hshort (by omega)
  · exact hshort hone
  · exact hmerge
  · exact hradix

/--
Every list sort computes the one stable permutation: integers over the whole
signed range, items by the keys of their calls on both paths, and slots by a
comparator that decides a strict weak order.  Any other comparator still leaves
a permutation.
-/
theorem listSorts_stable :
    (∀ a buf : List Slot, buf.length = a.length →
      Sorts (byKey Int64.toInt) a (listRadixSortInt a buf)) ∧
    (∀ (keys : List Int64) (values keyBuf valBuf : List Slot),
      keys.length = values.length → keyBuf.length = keys.length →
      valBuf.length = keys.length →
      ∃ done, Sorts (byKey fun item : Int64 × Slot => item.1.toInt)
          (keys.zip values) done ∧
        radixByKey keys values keyBuf valBuf = done.map Prod.snd ∧
        mergeByKey keys values = done.map Prod.snd) ∧
    (∀ (σ : Type) (keyFn : σ → Slot → σ × Int64) (s : σ)
      (values keyBuf valBuf : List Slot),
      keyBuf.length = values.length → valBuf.length = values.length →
      ∃ done, Sorts (byKey fun item : Int64 × Slot => item.1.toInt)
          ((keyCalls keyFn s values).2.zip values) done ∧
        (listSortByKeySlots keyFn s values keyBuf valBuf).2 =
          done.map Prod.snd) ∧
    (∀ (σ : Type) (less : σ → List Slot → Slot → Slot → σ × Bool) (s : σ)
      (a : List Slot), (listMergeSort less s a).2.Perm a ∧
      ∀ lt : Slot → Slot → Bool, StrictWeak lt → Decides less lt →
        Sorts lt a (listMergeSort less s a).2) := by
  refine ⟨radixSort_sorts, fun keys values keyBuf valBuf h hkeyBuf hvalBuf => ?_,
    fun σ keyFn s values keyBuf valBuf => sortByKey_sorts keyFn s values keyBuf valBuf,
    fun σ less s a => ⟨mergeSort_perm less s a,
      fun lt hlt hless => mergeSort_sorts hlt hless s a⟩⟩
  obtain ⟨done, hdone, hradix⟩ := radixByKey_sorts h hkeyBuf hvalBuf
  exact ⟨done, hdone, hradix, mergeByKey_sorts h hdone⟩

/-- Two items with one key stay in their order, and `-3` comes before both. -/
theorem listSorts_stable_ties :
    Sorts (byKey Int64.toInt) [7, -3, 7] (listRadixSortInt [7, -3, 7] [0, 0, 0]) ∧
    (∃ done, Sorts (byKey fun item : Int64 × Slot => item.1.toInt)
        [(7, 10), (-3, 11), (7, 12)] done ∧
      radixByKey [7, -3, 7] [10, 11, 12] [0, 0, 0] [0, 0, 0] = done.map Prod.snd ∧
      mergeByKey [7, -3, 7] [10, 11, 12] = done.map Prod.snd) ∧
    (∃ done, Sorts (byKey fun item : Int64 × Slot => item.1.toInt)
        [(0, 10), (1, 11)] done ∧
      (listSortByKeySlots (fun (s : Int64) _ => (s + 1, s)) 0 [10, 11] [0, 0]
        [0, 0]).2 = done.map Prod.snd) ∧
    Sorts (byKey Int64.toInt) [7, -3, 7]
      (listMergeSort (fun (s : Unit) _ x y => (s, byKey Int64.toInt x y)) ()
        [7, -3, 7]).2 :=
  ⟨listSorts_stable.1 [7, -3, 7] [0, 0, 0] rfl,
    listSorts_stable.2.1 [7, -3, 7] [10, 11, 12] [0, 0, 0] [0, 0, 0] rfl rfl rfl,
    listSorts_stable.2.2.1 Int64 (fun s _ => (s + 1, s)) 0 [10, 11] [0, 0] [0, 0]
      rfl rfl,
    (listSorts_stable.2.2.2 Unit (fun s _ x y => (s, byKey Int64.toInt x y)) ()
      [7, -3, 7]).2 _ (byKey_strictWeak _) fun _ _ _ _ => rfl⟩

end ListSort
end Beans
