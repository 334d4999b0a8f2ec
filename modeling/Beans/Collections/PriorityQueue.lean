import Beans.Runtime.Prelude

/-!
# The priority queue

`PriorityQueue` is a binary heap of entries in one list.  A push and a pop carry
one held entry and move a hole instead of exchanging entries; ties are decided
by the sequence number of the push.  Reads answer from `view`, which every
operation publishes anew once the heap is settled.  The positions of a sift
start at the end of the list or at the root, so they are natural numbers here.
-/

namespace Beans
namespace Collections

/-- A value with its priority and the number of its push. -/
structure Entry (P V : Type) where
  priority : P
  value : V
  sequence : ℤ
deriving DecidableEq, Repr

/-- The settled count and a copy of the settled smallest entry. -/
structure PqView (P V : Type) where
  count : ℤ
  top : Option (Entry P V)
deriving DecidableEq, Repr

/-- The heap, and what its readers see of it. -/
structure PriorityQueue (P V : Type) where
  entries : List (Entry P V)
  view : PqView P V
  nextSequence : ℤ
deriving DecidableEq, Repr

variable {P V : Type}

/-- `new PqView()`. -/
def PqView.new : PqView P V where
  count := 0
  top := none

def PriorityQueue.empty : PriorityQueue P V where
  entries := []
  view := .new
  nextSequence := 0

/-- `a + b` on 64-bit integers. -/
def intAdd (a b : ℤ) : ℤ := (a + b).bmod (2 ^ 64)

/-- Ties of priority go to the earlier push. -/
def sortsBefore [LT P] [DecidableLT P] (left right : Entry P V) : Bool :=
  if left.priority < right.priority then true
  else if right.priority < left.priority then false
  else left.sequence < right.sequence

/-- The copy is a field-by-field read of `entries[0]`. -/
def snapshot (entries : List (Entry P V)) : Except Panic (PqView P V) :=
  let count : ℤ := entries.length
  if count > 0 then do
    let first ← listGet entries 0 ⟨189, 39⟩
    let second ← listGet entries 0 ⟨190, 36⟩
    let third ← listGet entries 0 ⟨191, 39⟩
    return ⟨count, some ⟨first.priority, second.value, third.sequence⟩⟩
  else .ok ⟨count, none⟩

section Sifts

variable [LT P] [DecidableLT P]

/-- The loop of `push`: the list and where the hole came to rest. -/
def siftUp (entry : Entry P V) (entries : List (Entry P V)) (hole : ℕ) :
    Except Panic (List (Entry P V) × ℕ) :=
  if hole > 0 then do
    let parent := (hole - 1) / 2
    let above ← listGet entries parent ⟨92, 54⟩
    if ¬ sortsBefore entry above then return (entries, hole)
    else
      let above ← listGet entries parent ⟨93, 46⟩
      let entries ← listSet entries hole above ⟨93, 25⟩
      siftUp entry entries parent
  else .ok (entries, hole)
termination_by hole

/-- The child, or its right neighbour where that one sorts before it. -/
def smallerChild (entries : List (Entry P V)) (count child : ℕ) :
    Except Panic {c : ℕ // child ≤ c} :=
  if child + 1 < count then do
    let right ← listGet entries (child + 1 : ℕ) ⟨138, 75⟩
    let left ← listGet entries child ⟨138, 96⟩
    if sortsBefore right left then return ⟨child + 1, by omega⟩
    else return ⟨child, le_rfl⟩
  else .ok ⟨child, le_rfl⟩

/-- The loop of `pop`: the list and where the hole came to rest. -/
def siftDown (last : Entry P V) (count : ℕ) (entries : List (Entry P V))
    (hole : ℕ) : Except Panic (List (Entry P V) × ℕ) :=
  if hole * 2 + 1 ≥ count then .ok (entries, hole)
  else do
    let ⟨child, _⟩ ← smallerChild entries count (hole * 2 + 1)
    let below ← listGet entries child ⟨141, 59⟩
    if ¬ sortsBefore below last then return (entries, hole)
    else
      let below ← listGet entries child ⟨142, 58⟩
      let entries ← listSet entries hole below ⟨142, 37⟩
      siftDown last count entries child
termination_by count - hole

end Sifts

namespace PriorityQueue

def len (q : PriorityQueue P V) : ℤ := q.view.count

def isEmpty (q : PriorityQueue P V) : Bool := q.view.count = 0

def peek (q : PriorityQueue P V) : Option V :=
  match q.view.top with
  | some entry => some entry.value
  | none => none

def peekPriority (q : PriorityQueue P V) : Option P :=
  match q.view.top with
  | some entry => some entry.priority
  | none => none

variable [LT P] [DecidableLT P]

/-- The entry is sifted up from the end. -/
def push (q : PriorityQueue P V) (priority : P) (value : V) :
    Except Panic (PriorityQueue P V) := do
  let entry : Entry P V := ⟨priority, value, q.nextSequence⟩
  let nextSequence := intAdd q.nextSequence 1
  let entries := q.entries ++ [entry]
  let last := entries.length - 1
  let (entries, hole) ← siftUp entry entries last
  let entries ←
    if hole ≠ last then listSet entries hole entry ⟨99, 25⟩
    else pure entries
  let view ← snapshot entries
  return ⟨entries, view, nextSequence⟩

/-- The last entry is sifted down from the root. -/
def pop (q : PriorityQueue P V) :
    Except Panic (Option V × PriorityQueue P V) :=
  if q.entries.length = 0 then .ok (none, q)
  else do
    let top ← listGet q.entries 0 ⟨128, 34⟩
    match q.entries.getLast? with
    | some last =>
      let entries := q.entries.dropLast
      let count := entries.length
      let entries ←
        if count > 0 then do
          let (entries, hole) ← siftDown last count entries 0
          -- the root slot still holds the entry just answered
          listSet entries hole last ⟨147, 33⟩
        else pure entries
      let view ← snapshot entries
      return (some top.value, { q with entries := entries, view := view })
    | none =>
      let view ← snapshot q.entries
      return (some top.value, { q with view := view })

/-- The push counter keeps running. -/
def clear (q : PriorityQueue P V) : PriorityQueue P V :=
  { q with view := .new, entries := [] }

end PriorityQueue

/-- What changes a priority queue. -/
inductive PqOp (P V : Type) where
  | push (priority : P) (value : V)
  | pop
  | clear
deriving Repr

variable [LT P] [DecidableLT P]

/-- The queue after an operation and what the operation answers. -/
def pqStep (q : PriorityQueue P V) :
    PqOp P V → Except Panic (PriorityQueue P V × Option (Option V))
  | .push priority value => do
      let q ← q.push priority value
      return (q, none)
  | .pop => do
      let (got, q) ← q.pop
      return (q, some got)
  | .clear => .ok (q.clear, none)

/-- The queue after a sequence of operations and their answers. -/
def pqRun (q : PriorityQueue P V) :
    List (PqOp P V) →
      Except Panic (PriorityQueue P V × List (Option (Option V)))
  | [] => .ok (q, [])
  | op :: ops => do
      let (q, answer) ← pqStep q op
      let (q, answers) ← pqRun q ops
      return (q, answer :: answers)

/-- Pops until nothing is left, each time asking for the priority first. -/
def pqDrain : ℕ → PriorityQueue P V →
    Except Panic (List (P × V) × PriorityQueue P V)
  | 0, q => .ok ([], q)
  | n + 1, q =>
    match q.peekPriority with
    | none => .ok ([], q)
    | some priority => do
        let (got, q) ← q.pop
        match got with
        | none => return ([], q)
        | some value => do
            let (rest, q) ← pqDrain n q
            return ((priority, value) :: rest, q)

end Collections
end Beans
