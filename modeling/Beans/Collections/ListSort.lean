import Beans.Foundation.CountingSort
import Beans.Foundation.Loop

/-!
# The list sorts

The runtime sorts eight-byte slots in three ways.  `listMergeSort` is a
bottom-up merge with a comparator of the program; `listRadixSortInt` counts
16-bit digits of the distance to the minimum; `listSortByKeySlots` asks for
every item's key and then sorts the keys and the items together, by the same
counting passes or, for short lists, by the same merge.

A comparator and a key function may keep state of their own, and a comparator
may read the list that is being sorted, which is why both take a state and the
comparator takes the list as it stands.  Lengths stay far below the limits of
the index type, so indices are natural numbers.
-/

namespace Beans
namespace ListSort

open CountingSort

abbrev Slot := Int64

universe u v

variable {σ : Type u} {α : Type v}

/-- The merge of two runs; `less` is asked about the right slot first. -/
def mergeRuns (less : σ → α → α → σ × Bool) : σ → List α → List α → σ × List α
  | s, [], ys => (s, ys)
  | s, x :: xs, [] => (s, x :: xs)
  | s, x :: xs, y :: ys =>
    let (s, takeRight) := less s y x
    if takeRight then
      let (s, out) := mergeRuns less s (x :: xs) ys
      (s, y :: out)
    else
      let (s, out) := mergeRuns less s xs (y :: ys)
      (s, x :: out)
termination_by _ xs ys => xs.length + ys.length

/-- The stretch of a list from `lo` up to `hi`. -/
def stretch (a : List α) (lo hi : ℕ) : List α := (a.drop lo).take (hi - lo)

/-- The stretch from `lo` up to `hi` overwritten. -/
def splice (a : List α) (lo hi : ℕ) (out : List α) : List α :=
  a.take lo ++ out ++ a.drop hi

/-- The end of a stretch, kept inside the list. -/
def clip (n i : ℕ) : ℕ := if i < n then i else n

/-- A merge sort under way: the program's state, the position, the list. -/
structure Merging (σ : Type u) (α : Type v) where
  program : σ
  lo : ℕ
  a : List α

/-- One block of a pass; the comparator sees the list before the block. -/
def mergeBlock (less : σ → List α → α → α → σ × Bool) (w : ℕ)
    (m : Merging σ α) : Option (Merging σ α) :=
  let n := m.a.length
  if m.lo < n then
    let mid := clip n (m.lo + w)
    let hi := clip n (m.lo + 2 * w)
    if hi ≤ mid then some ⟨m.program, m.lo + 2 * w, m.a⟩
    else
      let (s, out) := mergeRuns (fun s => less s m.a) m.program
        (stretch m.a m.lo mid) (stretch m.a mid hi)
      some ⟨s, m.lo + 2 * w, splice m.a m.lo hi out⟩
  else none

/-- All pairs of runs of one width. -/
def mergePass (less : σ → List α → α → α → σ × Bool) (w : ℕ) (s : σ)
    (a : List α) : Merging σ α :=
  Loop.run (mergeBlock less w) a.length ⟨s, 0, a⟩

/-- A merge sort between two passes: the width of the runs and the list. -/
structure Widening (σ : Type u) (α : Type v) where
  program : σ
  w : ℕ
  a : List α

def mergeWidth (less : σ → List α → α → α → σ × Bool) (m : Widening σ α) :
    Option (Widening σ α) :=
  if m.w < m.a.length then
    let pass := mergePass less m.w m.program m.a
    some ⟨pass.program, m.w * 2, pass.a⟩
  else none

/-- Runs are merged in pairs, and their width is doubled, until one is left. -/
def listMergeSort (less : σ → List α → α → α → σ × Bool) (s : σ) (a : List α) :
    σ × List α :=
  if a.length < 2 then (s, a)
  else
    let m := Loop.run (mergeWidth less) a.length ⟨s, 1, a⟩
    (m.program, m.a)

/-- The least and the greatest key of the first loop. -/
def observed : List Int64 → Int64 × Int64
  | [] => (0, 0)
  | k :: ks =>
    ks.foldl (fun (minimum, maximum) k =>
      (if k < minimum then k else minimum, if maximum < k then k else maximum))
      (k, k)

/-- The unsigned distance of a key to the minimum. -/
def distance (minimum k : Int64) : UInt64 := k.toUInt64 - minimum.toUInt64

/-- The digits of 16 bits that a span of keys needs. -/
def passesFor (span : UInt64) : ℕ :=
  if span ≤ 0xffff then 1 else if span ≤ 0xffffffff then 2 else 4

/-- The 16-bit digit of a key that a pass looks at. -/
def digitOf (minimum : Int64) (pass : ℕ) (k : Int64) : ℕ :=
  ((distance minimum k >>> UInt64.ofNat (pass * 16)) &&& 65535).toNat

/-- Two buffers of which the first holds the list; `home` says that it is the
list's own storage. -/
structure Buffers (α : Type v) where
  src : List α
  dst : List α
  home : Bool

/-- The buffers change places after a pass has filled the second. -/
def Buffers.swap (b : Buffers α) (filled : List α) : Buffers α :=
  ⟨filled, b.src, !b.home⟩

/-- What the list's own storage holds after the last copy. -/
def Buffers.settle (b : Buffers α) : List α :=
  if b.home then b.src else b.src ++ b.dst.drop b.src.length

/-- One pass of `listRadixSortInt`. -/
def radixPass (minimum : Int64) (b : Buffers Slot) (pass : ℕ) : Buffers Slot :=
  let digit := digitOf minimum pass
  b.swap (scatter digit id b.src (starts 0 (tally 65536 digit b.src)) b.dst)

/-- `buf` is the scratch buffer, with whatever it holds. -/
def listRadixSortInt (a buf : List Slot) : List Slot :=
  if a.length < 2 then a
  else
    let (minimum, maximum) := observed a
    let passes := passesFor (distance minimum maximum)
    ((List.range passes).foldl (radixPass minimum) ⟨a, buf, true⟩).settle

/-- The key calls, one for each item in turn. -/
def keyCalls (keyFn : σ → Slot → σ × Int64) : σ → List Slot → σ × List Int64
  | s, [] => (s, [])
  | s, value :: values =>
    let (s, key) := keyFn s value
    let (s, keys) := keyCalls keyFn s values
    (s, key :: keys)

/-- The merge of a block as the places taken, in order. -/
def keyTakes (keys : List Int64) (lo mid hi : ℕ) : List ℕ :=
  (mergeRuns (fun (_ : Unit) right left =>
      ((), decide (keys.getD right 0 < keys.getD left 0))) ()
    (List.range' lo (mid - lo)) (List.range' mid (hi - mid))).2

/-- The keys, the values and the position of a pass. -/
structure KeyMerging where
  lo : ℕ
  keys : List Int64
  values : List Slot

def keyMergeBlock (width : ℕ) (m : KeyMerging) : Option KeyMerging :=
  let n := m.keys.length
  if m.lo < n then
    let mid := clip n (m.lo + width)
    let hi := clip n (m.lo + 2 * width)
    let takes := keyTakes m.keys m.lo mid hi
    some ⟨m.lo + 2 * width,
      splice m.keys m.lo hi (takes.map (m.keys.getD · 0)),
      splice m.values m.lo hi (takes.map (m.values.getD · 0))⟩
  else none

structure KeyWidening where
  width : ℕ
  keys : List Int64
  values : List Slot

def keyMergeWidth (m : KeyWidening) : Option KeyWidening :=
  if m.width < m.keys.length then
    let pass := Loop.run (keyMergeBlock m.width) m.keys.length
      ⟨0, m.keys, m.values⟩
    some ⟨m.width * 2, pass.keys, pass.values⟩
  else none

/-- The merge path of sorting by key. -/
def mergeByKey (keys : List Int64) (values : List Slot) : List Slot :=
  (Loop.run keyMergeWidth keys.length ⟨1, keys, values⟩).values

/-- The keys move only when another pass will look at them. -/
structure KeyBuffers where
  keys : Buffers Int64
  values : Buffers Slot

/-- One counting pass over keys and values together. -/
def keyRadixPass (minimum : Int64) (passes : ℕ) (b : KeyBuffers) (pass : ℕ) :
    KeyBuffers :=
  let items := b.keys.src.zip b.values.src
  let digit := fun item : Int64 × Slot => digitOf minimum pass item.1
  let at_ := starts 0 (tally 65536 (digitOf minimum pass) b.keys.src)
  ⟨if 1 < passes then b.keys.swap (scatter digit Prod.fst items at_ b.keys.dst)
    else b.keys,
    b.values.swap (scatter digit Prod.snd items at_ b.values.dst)⟩

/-- The counting path of sorting by key. -/
def radixByKey (keys : List Int64) (values keyBuf valBuf : List Slot) :
    List Slot :=
  let (minimum, maximum) := observed keys
  let passes := passesFor (distance minimum maximum)
  ((List.range passes).foldl (keyRadixPass minimum passes)
    ⟨⟨keys, keyBuf, true⟩, ⟨values, valBuf, true⟩⟩).values.settle

/-- The keys are asked for once, in order, before anything is sorted. -/
def listSortByKeySlots (keyFn : σ → Slot → σ × Int64) (s : σ)
    (values keyBuf valBuf : List Slot) : σ × List Slot :=
  let n := values.length
  if n < 1 then (s, values)
  else
    let (s, keys) := keyCalls keyFn s values
    if n < 2 then (s, values)
    else
      let (minimum, maximum) := observed keys
      let passes := passesFor (distance minimum maximum)
      if n < passes * 4096 then (s, mergeByKey keys values)
      else (s, radixByKey keys values keyBuf valBuf)

end ListSort
end Beans
