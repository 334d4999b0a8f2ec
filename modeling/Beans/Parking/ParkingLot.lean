import Beans.Foundation.StepSystem

/-!
# The parking lot of atomic wait and notify

`beans_atomic_wait` parks a thread until a cell moves away from a value or a
notifier marks it; its record is a node in the list of the cell's bucket.  A
bucket has one mutex and one condition variable for all addresses that hash to
it.  Under the mutex every load of the cell is a step of its own, so that other
threads store between any two loads; the condition wait may return at any time,
with or without a timeout reported.
-/

namespace Beans
namespace Parking

/-- The arguments of `beans_atomic_wait`. -/
structure WaitCall where
  address : UInt64
  expected : UInt64
  timeoutNs : Int
  hasTimeout : Bool
deriving DecidableEq, Repr

/-- `BParkNode`; the link is the node's place in the bucket's list. -/
structure BParkNode where
  address : UInt64
  signalled : Bool
deriving DecidableEq, Repr

/-- `BParkBucket`: the owner of its mutex and its nodes from the head. -/
structure BParkBucket (T : Type*) where
  holder : Option T
  nodes : List T

/-- Where a thread stands in `beans_atomic_wait`. -/
inductive WaitPc where
  | outside
  /-- At the load before the mutex. -/
  | entered (c : WaitCall)
  /-- At `pthread_mutex_lock`. -/
  | locking (c : WaitCall)
  /-- At the loop's condition, with the mutex. -/
  | looping (c : WaitCall)
  /-- In the condition wait, and whether a broadcast has released it. -/
  | parked (c : WaitCall) (released : Bool)
  /-- Its answer, and whether its node was signalled. -/
  | returned (answer : Int) (signalled : Bool)
deriving DecidableEq, Repr

/-- The cells, the buckets, and each thread's node and place. -/
structure ParkState (T : Type*) where
  value : UInt64 → UInt64
  bucket : UInt64 → BParkBucket T
  node : T → BParkNode
  pc : T → WaitPc

/-- `beans_park_bucket`. -/
def beansParkBucket (address : UInt64) : UInt64 :=
  let bits := address ^^^ (address >>> 33)
  let bits := bits * 0xff51afd7ed558ccd
  let bits := bits ^^^ (bits >>> 33)
  bits &&& 63

/-- A call's bucket. -/
def WaitCall.home (c : WaitCall) : UInt64 := beansParkBucket c.address

variable {T : Type*} [DecidableEq T]

namespace ParkState

def setPc (s : ParkState T) (t : T) (pc : WaitPc) : ParkState T :=
  { s with pc := Function.update s.pc t pc }

def setBucket (s : ParkState T) (b : UInt64) (x : BParkBucket T) :
    ParkState T :=
  { s with bucket := Function.update s.bucket b x }

def setNode (s : ParkState T) (t : T) (x : BParkNode) : ParkState T :=
  { s with node := Function.update s.node t x }

end ParkState

/-- The checks before the mutex. -/
def waitEnter (t : T) (s : ParkState T) : Option (ParkState T) :=
  match s.pc t with
  | .entered c =>
    if c.hasTimeout = true ∧ c.timeoutNs ≤ 0 then
      let answer := if s.value c.address ≠ c.expected then 1 else 0
      some (s.setPc t (.returned answer false))
    else if s.value c.address ≠ c.expected then
      some (s.setPc t (.returned 1 false))
    else some (s.setPc t (.locking c))
  | _ => none

/-- Takes the mutex, loads the cell again and links the node. -/
def waitLock (t : T) (s : ParkState T) : Option (ParkState T) :=
  match s.pc t with
  | .locking c =>
    if (s.bucket c.home).holder.isSome then none
    else if s.value c.address ≠ c.expected then
      some (s.setPc t (.returned 1 false))
    else
      let nodes := t :: (s.bucket c.home).nodes
      some (((s.setNode t ⟨c.address, false⟩).setBucket c.home
        ⟨some t, nodes⟩).setPc t (.looping c))
  | _ => none

/-- Unlinks the node, gives the mutex back and returns. -/
def waitUnlink (t : T) (c : WaitCall) (answer : Int) (s : ParkState T) :
    ParkState T :=
  let nodes := (s.bucket c.home).nodes.erase t
  (s.setBucket c.home ⟨none, nodes⟩).setPc t
    (.returned answer (s.node t).signalled)

/-- The loop's condition: the thread waits, or leaves with the answer 1. -/
def waitLoop (t : T) (s : ParkState T) : Option (ParkState T) :=
  match s.pc t with
  | .looping c =>
    if (s.node t).signalled = false ∧ s.value c.address = c.expected then
      let nodes := (s.bucket c.home).nodes
      some ((s.setBucket c.home ⟨none, nodes⟩).setPc t (.parked c false))
    else some (waitUnlink t c 1 s)
  | _ => none

/-- The condition wait returns with the mutex. -/
def waitResume (t : T) (timedOut : Bool) (s : ParkState T) :
    Option (ParkState T) :=
  match s.pc t with
  | .parked c _ =>
    if (s.bucket c.home).holder.isSome then none
    else if timedOut then
      if c.hasTimeout then some (waitUnlink t c 0 s) else none
    else
      let nodes := (s.bucket c.home).nodes
      some ((s.setBucket c.home ⟨some t, nodes⟩).setPc t (.looping c))
  | _ => none

/-- The notifier's walk over the nodes: it marks one node of the address, or
all of them, and counts. -/
def notifyWalk (address : UInt64) (all : Bool) :
    List T → (T → BParkNode) → (T → BParkNode) × ℕ
  | [], node => (node, 0)
  | t :: rest, node =>
    if (node t).address ≠ address ∨ (node t).signalled = true then
      notifyWalk address all rest node
    else
      let marked := Function.update node t ⟨(node t).address, true⟩
      if all then
        let walked := notifyWalk address all rest marked
        (walked.1, walked.2 + 1)
      else (marked, 1)

/-- `pthread_cond_broadcast`: every thread in the bucket's condition wait is
released. -/
def broadcast (b : UInt64) (pc : T → WaitPc) : T → WaitPc := fun t =>
  match pc t with
  | .parked c released =>
    if c.home = b then .parked c true else .parked c released
  | other => other

/-- `beans_atomic_notify` on the bucket path; the state and the number woken. -/
def beansAtomicNotify (address : UInt64) (all : Bool) (s : ParkState T) :
    Option (ParkState T × ℕ) :=
  let b := beansParkBucket address
  if (s.bucket b).holder.isSome then none
  else
    let walked := notifyWalk address all (s.bucket b).nodes s.node
    let pc := if walked.2 ≠ 0 then broadcast b s.pc else s.pc
    some ({ s with node := walked.1, pc := pc }, walked.2)

/-- The steps of the waiting threads, of notifiers, and of threads that store
to a cell. -/
inductive ParkAction (T : Type*) where
  | store (address value : UInt64)
  | call (t : T) (c : WaitCall)
  | enter (t : T)
  | lock (t : T)
  | loop (t : T)
  | resume (t : T) (timedOut : Bool)
  | notify (address : UInt64) (all : Bool)

/-- A thread that is not in a wait calls `beans_atomic_wait`. -/
def waitCall (t : T) (c : WaitCall) (s : ParkState T) :
    Option (ParkState T) :=
  match s.pc t with
  | .outside => some (s.setPc t (.entered c))
  | .returned _ _ => some (s.setPc t (.entered c))
  | _ => none

/-- A store, or a step of a waiter or a notifier. -/
def parkStep (act : ParkAction T) (s : ParkState T) : Option (ParkState T) :=
  match act with
  | .store address value =>
    some { s with value := Function.update s.value address value }
  | .call t c => waitCall t c s
  | .enter t => waitEnter t s
  | .lock t => waitLock t s
  | .loop t => waitLoop t s
  | .resume t timedOut => waitResume t timedOut s
  | .notify address all => (beansAtomicNotify address all s).map Prod.fst

/-- Empty buckets, and no thread in a wait. -/
def parkInit (s : ParkState T) : Prop :=
  (∀ b, s.bucket b = ⟨none, []⟩) ∧ ∀ t, s.pc t = .outside

end Parking
end Beans
