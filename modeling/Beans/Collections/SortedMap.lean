import Beans.Runtime.Prelude

/-!
# The sorted map

`SortedMap` keeps its entries in a balanced search tree of `SortedNode`s.  A
node is never written once it is reachable from the map: every operation copies
the path it walks and publishes the new root with one store, so a node is a
value here and an optional child is `Child`.
-/

namespace Beans
namespace Collections

universe u v

/-- `Option<SortedNode<K, V>>`. -/
inductive Child (K : Type u) (V : Type v) where
  | none
  | some (key : K) (value : V) (left right : Child K V) (height size : ℤ)
deriving DecidableEq, Repr

/-- A node with the height and the size of its subtree. -/
structure SortedNode (K : Type u) (V : Type v) where
  key : K
  value : V
  left : Child K V
  right : Child K V
  height : ℤ
  size : ℤ
deriving DecidableEq, Repr

variable {K : Type u} {V : Type v}

/-- `some(node)`. -/
def SortedNode.child (n : SortedNode K V) : Child K V :=
  .some n.key n.value n.left n.right n.height n.size

/-- `new SortedNode<K, V>(key, value)`. -/
def SortedNode.new (key : K) (value : V) : SortedNode K V where
  key := key
  value := value
  left := .none
  right := .none
  height := 1
  size := 1

def heightOf : Child K V → ℤ
  | .none => 0
  | .some _ _ _ _ height _ => height

def sizeOf : Child K V → ℤ
  | .none => 0
  | .some _ _ _ _ _ size => size

/-- `node.expect(message)`, called at a source position. -/
def expect (message : String) (site : Site) :
    Child K V → Except Panic (SortedNode K V)
  | .none => beansPanic message site
  | .some key value left right height size =>
    .ok ⟨key, value, left, right, height, size⟩

/-- The height and the size are read off the children again. -/
def refresh (node : SortedNode K V) : SortedNode K V :=
  let leftHeight := heightOf node.left
  let rightHeight := heightOf node.right
  { node with
    height := 1 + (if leftHeight > rightHeight then leftHeight
      else rightHeight)
    size := 1 + sizeOf node.left + sizeOf node.right }

def balanceOf (node : SortedNode K V) : ℤ :=
  heightOf node.left - heightOf node.right

/-- A copy shares both children. -/
def freshCopy (source : SortedNode K V) : SortedNode K V :=
  let n := SortedNode.new source.key source.value
  { n with
    left := source.left
    right := source.right
    height := source.height
    size := source.size }

/-- The left child comes up; the panic is that of a node without one. -/
def rotateRight (node : SortedNode K V) : Except Panic (SortedNode K V) := do
  let pivotSrc ← expect "a left-heavy node has a left child" ⟨332, 23⟩
    node.left
  let pivot := freshCopy pivotSrc
  let top := { freshCopy node with left := pivot.right }
  let pivot := { pivot with right := (refresh top).child }
  return refresh pivot

/-- The mirror image of `rotateRight`. -/
def rotateLeft (node : SortedNode K V) : Except Panic (SortedNode K V) := do
  let pivotSrc ← expect "a right-heavy node has a right child" ⟨344, 24⟩
    node.right
  let pivot := freshCopy pivotSrc
  let top := { freshCopy node with right := pivot.left }
  let pivot := { pivot with left := (refresh top).child }
  return refresh pivot

/-- The zig-zag case straightens the heavy child first. -/
def rebalance (node : SortedNode K V) : Except Panic (SortedNode K V) := do
  let node := refresh node
  let balance := balanceOf node
  if balance > 1 then
    let left ← expect "a left-heavy node has a left child" ⟨362, 27⟩ node.left
    let node ←
      if balanceOf left < 0 then do
        let rotated ← rotateLeft left
        pure { node with left := rotated.child }
      else pure node
    rotateRight node
  else if balance < -1 then
    let right ← expect "a right-heavy node has a right child" ⟨370, 28⟩
      node.right
    let node ←
      if balanceOf right > 0 then do
        let rotated ← rotateRight right
        pure { node with right := rotated.child }
      else pure node
    rotateLeft node
  else
    return node

section Operations

variable [LT K] [DecidableLT K]

/-- The new subtree and `added`. -/
def insertInto (node : Child K V) (key : K) (value : V) (replace : Bool)
    (added : Bool) : Except Panic (SortedNode K V × Bool) :=
  match node with
  | .none => .ok (.new key value, true)
  | .some key₀ value₀ left right height size => do
      let fresh := freshCopy ⟨key₀, value₀, left, right, height, size⟩
      if key < key₀ then
        let (child, added) ← insertInto left key value replace added
        let node ← rebalance { fresh with left := child.child }
        return (node, added)
      else if key₀ < key then
        let (child, added) ← insertInto right key value replace added
        let node ← rebalance { fresh with right := child.child }
        return (node, added)
      else
        return (if replace then { fresh with value := value } else fresh, added)

/-- The loop of `leftmost`, at a node and its left child. -/
def leftmostFrom (current : SortedNode K V) : Child K V → SortedNode K V
  | .none => current
  | .some key value left right height size =>
    leftmostFrom ⟨key, value, left, right, height, size⟩ left

def leftmost (node : SortedNode K V) : SortedNode K V :=
  leftmostFrom node node.left

/-- The new subtree and `unlinked`. -/
def removeFrom (node : Child K V) (key : K) (unlinked : Bool) :
    Except Panic (Child K V × Bool) :=
  match node with
  | .none => .ok (.none, unlinked)
  | .some key₀ value₀ left right height size => do
      let fresh := freshCopy ⟨key₀, value₀, left, right, height, size⟩
      if key < key₀ then
        let (child, unlinked) ← removeFrom left key unlinked
        let node ← rebalance { fresh with left := child }
        return (node.child, unlinked)
      else if key₀ < key then
        let (child, unlinked) ← removeFrom right key unlinked
        let node ← rebalance { fresh with right := child }
        return (node.child, unlinked)
      else if heightOf left = 0 then
        return (right, true)
      else if heightOf right = 0 then
        return (left, true)
      else
        let rightNode ← expect "a two-child node has a right child" ⟨472, 39⟩
          right
        let successor := leftmost rightNode
        let fresh := { SortedNode.new successor.key successor.value with
          left := left }
        let (child, _) ← removeFrom right successor.key false
        let node ← rebalance { fresh with right := child }
        return (node.child, true)

def getFrom (key : K) : Child K V → Option V
  | .none => none
  | .some key₀ value left right _ _ =>
    if key < key₀ then getFrom key left
    else if key₀ < key then getFrom key right
    else some value

def containsKeyFrom (key : K) : Child K V → Bool
  | .none => false
  | .some key₀ _ left right _ _ =>
    if key < key₀ then containsKeyFrom key left
    else if key₀ < key then containsKeyFrom key right
    else true

/-- The loop of `rank`. -/
def rankFrom (key : K) (count : ℤ) : Child K V → ℤ
  | .none => count
  | .some key₀ _ left right _ _ =>
    if key < key₀ then rankFrom key count left
    else if key₀ < key then rankFrom key (count + (sizeOf left + 1)) right
    else count + sizeOf left

/-- The loop of `neighbour_key`. -/
def neighbourFrom (key : K) (below inclusive : Bool) (best : Option K) :
    Child K V → Option K
  | .none => best
  | .some key₀ _ left right _ _ =>
    if key₀ < key then
      neighbourFrom key below inclusive
        (if below then some key₀ else best) right
    else if key < key₀ then
      neighbourFrom key below inclusive
        (if below then best else some key₀) left
    else if inclusive then some key₀
    else if below then neighbourFrom key below inclusive best left
    else neighbourFrom key below inclusive best right

/-- `collect_range_keys`, what it appends to `out`. -/
def collectRangeKeys (start stop : K) : Child K V → List K
  | .none => []
  | .some key _ left right _ _ =>
    (if start < key then collectRangeKeys start stop left else []) ++
      (if ¬ key < start ∧ key < stop then [key] else []) ++
      (if key < stop then collectRangeKeys start stop right else [])

/-- The values of the range, in order; subtrees outside of it are not entered. -/
def collectRangeValues (start stop : K) : Child K V → List V
  | .none => []
  | .some key value left right _ _ =>
    (if start < key then collectRangeValues start stop left else []) ++
      (if ¬ key < start ∧ key < stop then [value] else []) ++
      (if key < stop then collectRangeValues start stop right else [])

end Operations

def collectKeys : Child K V → List K
  | .none => []
  | .some key _ left right _ _ => collectKeys left ++ key :: collectKeys right

def collectValues : Child K V → List V
  | .none => []
  | .some _ value left right _ _ =>
    collectValues left ++ value :: collectValues right

/-- The loop of `node_at`. -/
def nodeAtFrom (remaining : ℤ) : Child K V → Option (SortedNode K V)
  | .none => none
  | .some key value left right height size =>
    if remaining < sizeOf left then nodeAtFrom remaining left
    else if remaining = sizeOf left then
      some ⟨key, value, left, right, height, size⟩
    else nodeAtFrom (remaining - (sizeOf left + 1)) right

structure SortedMap (K : Type u) (V : Type v) where
  root : Child K V
deriving DecidableEq, Repr

namespace SortedMap

/-- An empty map. -/
def new : SortedMap K V := ⟨.none⟩

def len (m : SortedMap K V) : ℤ := sizeOf m.root

def clear (_ : SortedMap K V) : SortedMap K V := ⟨.none⟩

def keys (m : SortedMap K V) : List K := collectKeys m.root

def values (m : SortedMap K V) : List V := collectValues m.root

/-- The node at a position of the order. -/
def nodeAt (m : SortedMap K V) (index : ℤ) : Option (SortedNode K V) :=
  if index < 0 ∨ index ≥ m.len then none else nodeAtFrom index m.root

def keyAt (m : SortedMap K V) (index : ℤ) : Option K :=
  (m.nodeAt index).map SortedNode.key

def valueAt (m : SortedMap K V) (index : ℤ) : Option V :=
  (m.nodeAt index).map SortedNode.value

variable [LT K] [DecidableLT K]

def set (m : SortedMap K V) (key : K) (value : V) :
    Except Panic (SortedMap K V) := do
  let (node, _) ← insertInto m.root key value true false
  return ⟨node.child⟩

/-- The map after it and whether the key was new. -/
def insert (m : SortedMap K V) (key : K) (value : V) :
    Except Panic (SortedMap K V × Bool) := do
  let (node, added) ← insertInto m.root key value false false
  return (⟨node.child⟩, added)

/-- The map after it and whether the key was there. -/
def remove (m : SortedMap K V) (key : K) :
    Except Panic (SortedMap K V × Bool) := do
  let (root, unlinked) ← removeFrom m.root key false
  return (⟨root⟩, unlinked)

def get (m : SortedMap K V) (key : K) : Option V := getFrom key m.root

def containsKey (m : SortedMap K V) (key : K) : Bool :=
  containsKeyFrom key m.root

/-- The number of keys below a key. -/
def rank (m : SortedMap K V) (key : K) : ℤ := rankFrom key 0 m.root

def floorKey (m : SortedMap K V) (key : K) : Option K :=
  neighbourFrom key true true none m.root

def ceilingKey (m : SortedMap K V) (key : K) : Option K :=
  neighbourFrom key false true none m.root

def lowerKey (m : SortedMap K V) (key : K) : Option K :=
  neighbourFrom key true false none m.root

def higherKey (m : SortedMap K V) (key : K) : Option K :=
  neighbourFrom key false false none m.root

def rangeKeys (m : SortedMap K V) (start stop : K) : List K :=
  collectRangeKeys start stop m.root

def rangeValues (m : SortedMap K V) (start stop : K) : List V :=
  collectRangeValues start stop m.root

/-- A range is counted by the ranks of its ends. -/
def rangeCount (m : SortedMap K V) (start stop : K) : ℤ :=
  if ¬ start < stop then 0 else m.rank stop - m.rank start

end SortedMap

/-- What changes a map. -/
inductive SortedMapOp (K : Type u) (V : Type v) where
  | set (key : K) (value : V)
  | insert (key : K) (value : V)
  | remove (key : K)
  | clear
deriving Repr

variable [LT K] [DecidableLT K]

/-- The map after an operation and the flag it answers. -/
def sortedMapStep (m : SortedMap K V) :
    SortedMapOp K V → Except Panic (SortedMap K V × Option Bool)
  | .set key value => do
      let m ← m.set key value
      return (m, none)
  | .insert key value => do
      let (m, added) ← m.insert key value
      return (m, some added)
  | .remove key => do
      let (m, unlinked) ← m.remove key
      return (m, some unlinked)
  | .clear => .ok (m.clear, none)

/-- The map after a sequence of operations and the flags they answer. -/
def sortedMapRun (m : SortedMap K V) :
    List (SortedMapOp K V) → Except Panic (SortedMap K V × List (Option Bool))
  | [] => .ok (m, [])
  | op :: ops => do
      let (m, answer) ← sortedMapStep m op
      let (m, answers) ← sortedMapRun m ops
      return (m, answer :: answers)

end Collections
end Beans
