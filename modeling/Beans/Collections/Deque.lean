import Beans.Runtime.Prelude

/-!
# The deque

`Deque` keeps its elements in blocks of 512 slots held by two stacks.  The last
block of a stack is its outermost one; the blocks of the front stack are stored
reversed, so that both ends grow by a push at the end of a list.  Counters say
how much of the storage the deque claims.  Nothing runs between the steps of an
operation here, and reserving room does not change what a block stores.
-/

namespace Beans
namespace Collections

universe u

/-- The four cells a rebalance publishes together. -/
structure DequeShape (T : Type u) where
  front : List (List T)
  back : List (List T)
  frontCount : ℤ
  backCount : ℤ
deriving DecidableEq, Repr

/-- A deque, with the blocks it keeps for later. -/
structure Deque (T : Type u) where
  shape : DequeShape T
  spare : List (List T)
deriving DecidableEq, Repr

variable {T : Type u}

def DequeShape.empty : DequeShape T where
  front := []
  back := []
  frontCount := 0
  backCount := 0

def Deque.empty : Deque T where
  shape := .empty
  spare := []

/-- The block and what is left of `spare`. -/
def takeBlock (spare : List (List T)) :
    Except Panic (List T × List (List T)) :=
  if (spare.length : ℤ) > 0 then
    listRemove spare (spare.length - 1) ⟨258, 48⟩
  else .ok ([], spare)

/--
The copying loop of a rebalance: `n` turns over the blocks of `source` from
`index` on, each block copied through `flip`, with `moved_elems`.
-/
def copyBlocks (source : List (List T)) (site : Site)
    (step : ℤ) (flip : List T → List T) :
    ℕ → ℤ → List (List T) → ℤ → Except Panic (List (List T) × ℤ)
  | 0, _, built, movedElems => .ok (built, movedElems)
  | n + 1, index, built, movedElems => do
      let block ← listGet source index site
      copyBlocks source site step flip n (index + step)
        (built ++ [flip block]) (movedElems + block.length)

/--
The one-block rebalance: the block is split down its middle, its first half
flipped for the other side.  Answers both sides with their counts.
-/
def splitBlock (blocks : List (List T)) (total : ℤ)
    (half half' rest rest' : Site) :
    Except Panic ((List (List T) × ℤ) × (List (List T) × ℤ)) := do
  let moved := (total + 1).tdiv 2
  let block ← listGet blocks 0 half
  let movedBlock ← listSlice block 0 moved half'
  if total > moved then
    let block ← listGet blocks 0 rest
    let keptBlock ← listSlice block moved total rest'
    return (([movedBlock.reverse], moved), ([keptBlock], total - moved))
  else return (([movedBlock.reverse], moved), ([], 0))

/-- `front` is empty and `back` is not. -/
def crossoverToFront (shape : DequeShape T) :
    Except Panic (DequeShape T) :=
  let blocks : ℤ := shape.back.length
  if blocks = 1 then do
    let ((front, frontCount), (back, backCount)) ← splitBlock shape.back
      shape.backCount ⟨281, 54⟩ ⟨281, 58⟩ ⟨289, 36⟩ ⟨289, 40⟩
    return ⟨front, back, frontCount, backCount⟩
  else do
    let movedBlocks := (blocks + 1).tdiv 2
    let (front, movedElems) ← copyBlocks shape.back ⟨305, 49⟩ 1 List.reverse
      movedBlocks.toNat 0 [] 0
    let (back, _) ← copyBlocks shape.back ⟨317, 49⟩ 1 id
      (blocks - movedBlocks).toNat movedBlocks [] 0
    let _ ← listGet back (back.length - 1) ⟨323, 19⟩
    return ⟨front.reverse, back, movedElems, shape.backCount - movedElems⟩

/-- `back` is empty and `front` is not. -/
def crossoverToBack (shape : DequeShape T) :
    Except Panic (DequeShape T) :=
  let blocks : ℤ := shape.front.length
  if blocks = 1 then do
    let ((back, backCount), (front, frontCount)) ← splitBlock shape.front
      shape.frontCount ⟨338, 55⟩ ⟨338, 59⟩ ⟨346, 37⟩ ⟨346, 41⟩
    return ⟨front, back, frontCount, backCount⟩
  else do
    let movedBlocks := (blocks + 1).tdiv 2
    let (back, movedElems) ← copyBlocks shape.front ⟨362, 50⟩ (-1)
      List.reverse movedBlocks.toNat (movedBlocks - 1) [] 0
    let (front, _) ← copyBlocks shape.front ⟨372, 50⟩ 1 id
      (blocks - movedBlocks).toNat movedBlocks [] 0
    let _ ← listGet front (front.length - 1) ⟨376, 20⟩
    return ⟨front, back, shape.frontCount - movedElems, movedElems⟩

/-- A push at the outer end of a side, with what is left of `spare`. -/
def pushSide (blocks : List (List T)) (count : ℤ) (spare : List (List T))
    (value : T) (site : Site) :
    Except Panic ((List (List T) × ℤ) × List (List T)) :=
  let outer : ℤ := blocks.length - 1
  -- the counter says whether the outermost block is full
  if outer < 0 ∨ count = (outer + 1) * 512 then do
    let (block, spare) ← takeBlock spare
    return ((blocks ++ [block ++ [value]], count + 1), spare)
  else do
    let block ← listGet blocks outer site
    return ((blocks.set outer.toNat (block ++ [value]), count + 1), spare)

/-- `if self.spare.len() == 0 { self.spare.push(move empty) }`. -/
def recycle (spare : List (List T)) (block : List T) : List (List T) :=
  if spare.length = 0 then spare ++ [block] else spare

/-- A pop at the outer end of a side that is not empty. -/
def takeSide (blocks : List (List T)) (count : ℤ) (spare : List (List T))
    (site site' : Site) :
    Except Panic (Option T × (List (List T) × ℤ) × List (List T)) := do
  let outer : ℤ := blocks.length - 1
  let count := count - 1
  let block ← listGet blocks outer site
  let got := block.getLast?
  let blocks := blocks.set outer.toNat block.dropLast
  if count = outer * 512 then
    let (block, blocks) ← listRemove blocks outer site'
    return (got, (blocks, count), recycle spare block)
  else return (got, (blocks, count), spare)

/-- `for slot >= 0` over one block, from slot `n - 1` down. -/
def readDown (blocks : List (List T)) (block : ℤ) (site site' : Site) :
    ℕ → List T → Except Panic (List T)
  | 0, out => .ok out
  | n + 1, out => do
      let b ← listGet blocks block site
      let value ← listGet b n site'
      readDown blocks block site site' n (out ++ [value])

/-- `for block >= 0` over the full front blocks, from block `n - 1` down. -/
def readBlocksDown (blocks : List (List T)) :
    ℕ → List T → Except Panic (List T)
  | 0, out => .ok out
  | n + 1, out => do
      let out ← readDown blocks n ⟨228, 46⟩ ⟨228, 53⟩ 512 out
      readBlocksDown blocks n out

/-- `for slot < room` over one back block, with `n` slots to go. -/
def readUp (blocks : List (List T)) (index : ℤ) :
    ℕ → ℤ → List T → Except Panic (List T)
  | 0, _, out => .ok out
  | n + 1, slot, out => do
      let b ← listGet blocks index ⟨243, 41⟩
      let value ← listGet b slot ⟨243, 48⟩
      readUp blocks index n (slot + 1) (out ++ [value])

/-- `for taken < self.shape.back_count`. -/
def readBack (blocks : List (List T)) (backCount taken index : ℤ)
    (out : List T) : Except Panic (List T) :=
  if taken < backCount then do
    let room := backCount - taken
    let room := if room > 512 then 512 else room
    let out ← readUp blocks index room.toNat 0 out
    readBack blocks backCount (taken + room) (index + 1) out
  else .ok out
termination_by (backCount - taken).toNat
decreasing_by split <;> omega

namespace Deque

def len (d : Deque T) : ℤ := d.shape.frontCount + d.shape.backCount

def isEmpty (d : Deque T) : Bool := d.len = 0

/-- The new element goes to the last block of the front side. -/
def pushFront (d : Deque T) (value : T) : Except Panic (Deque T) := do
  let ((front, frontCount), spare) ← pushSide d.shape.front
    d.shape.frontCount d.spare value ⟨88, 25⟩
  return ⟨{ d.shape with front := front, frontCount := frontCount }, spare⟩

def pushBack (d : Deque T) (value : T) : Except Panic (Deque T) := do
  let ((back, backCount), spare) ← pushSide d.shape.back
    d.shape.backCount d.spare value ⟨103, 24⟩
  return ⟨{ d.shape with back := back, backCount := backCount }, spare⟩

/-- What `pop_front` does once the front side is not empty. -/
def takeFront (d : Deque T) : Except Panic (Option T × Deque T) := do
  let (got, (front, frontCount), spare) ← takeSide d.shape.front
    d.shape.frontCount d.spare ⟨120, 46⟩ ⟨124, 51⟩
  return (got,
    ⟨{ d.shape with front := front, frontCount := frontCount }, spare⟩)

/-- When the front side is empty, half of the back side crosses over first. -/
def popFront (d : Deque T) : Except Panic (Option T × Deque T) :=
  if d.shape.frontCount = 0 then
    if d.shape.backCount = 0 then .ok (none, d)
    else do
      let shape ← crossoverToFront d.shape
      takeFront { d with shape := shape }
  else takeFront d

/-- What `pop_back` does once the back side is not empty. -/
def takeBack (d : Deque T) : Except Panic (Option T × Deque T) := do
  let (got, (back, backCount), spare) ← takeSide d.shape.back
    d.shape.backCount d.spare ⟨140, 45⟩ ⟨142, 50⟩
  return (got,
    ⟨{ d.shape with back := back, backCount := backCount }, spare⟩)

def popBack (d : Deque T) : Except Panic (Option T × Deque T) :=
  if d.shape.backCount = 0 then
    if d.shape.frontCount = 0 then .ok (none, d)
    else do
      let shape ← crossoverToBack d.shape
      takeBack { d with shape := shape }
  else takeBack d

/-- The front side is stored backwards, so positions in it count from its end. -/
def get (d : Deque T) (index : ℤ) : Except Panic (Option T) :=
  if index < 0 ∨ index ≥ d.shape.frontCount + d.shape.backCount then
    .ok none
  else if index < d.shape.frontCount then do
    let head : ℤ := d.shape.front.length - 1
    let filled := d.shape.frontCount - head * 512
    if index < filled then
      let block ← listGet d.shape.front head ⟨174, 45⟩
      let value ← listGet block (filled - 1 - index) ⟨174, 51⟩
      return some value
    else
      let rest := index - filled
      let deep := head - 1 - rest.tdiv 512
      let block ← listGet d.shape.front deep ⟨178, 41⟩
      let value ← listGet block (512 - 1 - rest.tmod 512) ⟨178, 47⟩
      return some value
  else do
    let offset := index - d.shape.frontCount
    let block ← listGet d.shape.back (offset.tdiv 512) ⟨181, 36⟩
    let value ← listGet block (offset.tmod 512) ⟨181, 50⟩
    return some value

def first (d : Deque T) : Except Panic (Option T) := d.get 0

def last (d : Deque T) : Except Panic (Option T) := d.get (d.len - 1)

def clear (_d : Deque T) : Deque T where
  shape := .empty
  spare := []

def toList (d : Deque T) : Except Panic (List T) := do
  let head : ℤ := d.shape.front.length - 1
  let out ←
    if head ≥ 0 then do
      let slot := d.shape.frontCount - head * 512 - 1
      let out ← readDown d.shape.front head ⟨221, 42⟩ ⟨221, 48⟩
        (slot + 1).toNat []
      readBlocksDown d.shape.front head.toNat out
    else pure []
  readBack d.shape.back d.shape.backCount 0 0 out

end Deque

/-- What changes a deque. -/
inductive DequeOp (T : Type u) where
  | pushFront (value : T)
  | pushBack (value : T)
  | popFront
  | popBack
  | clear
deriving Repr

/-- The deque after an operation and what the operation answers. -/
def dequeStep (d : Deque T) :
    DequeOp T → Except Panic (Deque T × Option (Option T))
  | .pushFront value => do
      let d ← d.pushFront value
      return (d, none)
  | .pushBack value => do
      let d ← d.pushBack value
      return (d, none)
  | .popFront => do
      let (got, d) ← d.popFront
      return (d, some got)
  | .popBack => do
      let (got, d) ← d.popBack
      return (d, some got)
  | .clear => .ok (d.clear, none)

/-- The deque after a sequence of operations and their answers. -/
def dequeRun (d : Deque T) :
    List (DequeOp T) → Except Panic (Deque T × List (Option (Option T)))
  | [] => .ok (d, [])
  | op :: ops => do
      let (d, answer) ← dequeStep d op
      let (d, answers) ← dequeRun d ops
      return (d, answer :: answers)

end Collections
end Beans
