import Beans.Foundation.IntrusiveQueue
import Beans.Foundation.StepSystem

/-!
# Channels

A channel is a ring of slots under one mutex, with a wait line of fibers and a condition
variable for plain threads on either side.  A step is what one party does between two places
where it gives the mutex up.  A park and a condition wait may return at any time, and which
thread a signal releases is left open.
-/

namespace Beans
namespace Channel

open Function IntrusiveQueue

inductive Side where
  | send
  | recv
deriving DecidableEq

inductive Call (V : Type*) where
  | send (value : V)
  | recv

/-- What a call gives back: 1 or 0 to a sender, a value or nothing to a receiver. -/
inductive Answer (V : Type*) where
  | sent
  | refused
  | received (value : V)
  | nothing

/-- Where a party stands.  A fiber that ended by its cancel makes no call any more. -/
inductive Place (V : Type*) where
  | outside
  | waiting (call : Call V)
  | returned (answer : Answer V)
  | cancelled

variable {P V : Type*}

def Call.side : Call V → Side
  | .send _ => .send
  | .recv => .recv

/-- The party may make a call. -/
def Place.free : Place V → Bool
  | .outside => true
  | .returned _ => true
  | _ => false

/-- `BChan`, the waiters of its fibers, and what has happened to it. -/
structure ChanState (P V : Type*) where
  q : ℕ → V
  cap : ℕ
  head : ℕ
  count : ℕ
  closed : Bool
  /-- `send_head` and `send_tail`, `recv_head` and `recv_tail`. -/
  line : Side → Line P
  /-- The threads in the condition waits on `can_send` and `can_recv`. -/
  cond : Side → List P
  /-- The fields of `BFiberWaiter`. -/
  next : P → Option P
  signalled : P → Bool
  place : P → Place V
  /-- The values sent and received so far, in the order of the mutex. -/
  sent : List V
  received : List V
  /-- How often a fiber went into a line, and when each one did last. -/
  pushes : ℕ
  since : P → ℕ

/-- `beans_chan_new`. -/
def beansChanNew (cap : ℤ) (zero : V) : ChanState P V where
  q _ := zero
  cap := if cap > 0 then cap.toNat else 1
  head := 0
  count := 0
  closed := false
  line _ := .empty
  cond _ := []
  next _ := none
  signalled _ := false
  place _ := .outside
  sent := []
  received := []
  pushes := 0
  since _ := 0

namespace ChanState

variable (s : ChanState P V) (side : Side)

/-- A wait on a side is over. -/
def Ready : Side → Prop
  | .send => s.count < s.cap ∨ s.closed = true
  | .recv => s.count ≠ 0 ∨ s.closed = true

instance : Decidable (s.Ready side) :=
  match side with
  | .send => inferInstanceAs (Decidable (_ ∨ _))
  | .recv => inferInstanceAs (Decidable (_ ∨ _))

variable [DecidableEq P] (p : P)

def setPlace (x : Place V) : ChanState P V :=
  { s with place := update s.place p x }

/-- A fiber goes to the end of its line. -/
def fiberLinePush : ChanState P V :=
  { s with
    line := update s.line side (pushLine (s.line side) p)
    next := pushNext s.next (s.line side) p
    signalled := update s.signalled p false
    pushes := s.pushes + 1
    since := update s.since p s.pushes }

/-- `fiber_line_pop` of a line whose first waiter is `p`. -/
def fiberLinePop : ChanState P V :=
  { s with
    line := update s.line side (popLine s.next (s.line side) p)
    next := update s.next p none
    signalled := update s.signalled p true }

/-- The loops of `beans_chan_close`; a line is no longer than the pushes so far. -/
def popAll : ℕ → ChanState P V → ChanState P V
  | 0, s => s
  | n + 1, s =>
    match (s.line side).head with
    | none => s
    | some f => popAll n (s.fiberLinePop side f)

/-- `fiber_line_remove`, without an answer if its loop did not end. -/
def fiberLineRemove : Option (ChanState P V) :=
  match seek s.next p (s.pushes + 1) none (s.line side).head with
  | none => none
  | some (_, none) => some s
  | some (previous, some _) =>
    some { s with
      line := update s.line side (unlinkLine s.next (s.line side) previous p)
      next := unlinkNext s.next previous p }

/-- `chan_wake_receiver` and `chan_wake_sender`; a signal releases the picked thread. -/
def chanWake (pick : ℕ) : ChanState P V :=
  match (s.line side).head with
  | some f => s.fiberLinePop side f
  | none =>
    { s with
      cond := update s.cond side
        ((s.cond side).eraseIdx (pick % (s.cond side).length)) }

/-- A value goes into the next free slot. -/
def store (v : V) : ChanState P V :=
  { s.setPlace p (.returned .sent) with
    q := update s.q ((s.head + s.count) % s.cap) v
    count := s.count + 1
    sent := s.sent ++ [v] }

/-- The first value is taken out; `clear` is what stays in its slot. -/
def fetch (clear : V → V) : ChanState P V :=
  { s.setPlace p (.returned (.received (s.q s.head))) with
    q := update s.q s.head (clear (s.q s.head))
    head := (s.head + 1) % s.cap
    count := s.count - 1
    received := s.received ++ [s.q s.head] }

/-- A value goes in, and a receiver is woken. -/
def put (v : V) (pick : ℕ) : ChanState P V :=
  (s.store p v).chanWake .recv pick

/-- A value comes out, and a sender is woken. -/
def take (clear : V → V) (pick : ℕ) : ChanState P V :=
  (s.fetch p clear).chanWake .send pick

/-- `beans_chan_send` and `beans_chan_recv` after their wait. -/
def finish (clear : V → V) (pick : ℕ) : Call V → ChanState P V
  | .send v => if s.closed then s.setPlace p (.returned .refused) else s.put p v pick
  | .recv => if s.count = 0 then s.setPlace p (.returned .nothing) else s.take p clear pick

/-- `beans_chan_send` and `beans_chan_recv` from the test of `chan_send_wait` and
`chan_recv_wait` on, with the mutex, until it is given up. -/
def enter (fiber : P → Bool) (clear : V → V) (c : Call V) (pick : ℕ) : ChanState P V :=
  if s.Ready c.side then s.finish p clear pick c
  else if fiber p then (s.fiberLinePush c.side p).setPlace p (.waiting c)
  else
    { s.setPlace p (.waiting c) with
      cond := update s.cond c.side (s.cond c.side ++ [p]) }

/-- `beans_chan_try_send` and `beans_chan_try_recv`. -/
def tryCall (clear : V → V) (pick : ℕ) : Call V → ChanState P V
  | .send v =>
    if s.closed = true ∨ s.count = s.cap then s.setPlace p (.returned .refused)
    else s.put p v pick
  | .recv => if s.count = 0 then s.setPlace p (.returned .nothing) else s.take p clear pick

/-- `beans_chan_close`; a broadcast empties both condition waits. -/
def close : ChanState P V :=
  let s := popAll .send s.pushes { s with closed := true }
  { popAll .recv s.pushes s with cond := fun _ => [] }

end ChanState

/-- What a party, or nobody in particular, may do next. -/
inductive ChanAction (P V : Type*) where
  | call (p : P) (c : Call V) (pick : ℕ)
  | tryCall (p : P) (c : Call V) (pick : ℕ)
  /-- A party comes back from its park or its condition wait, with the mutex. -/
  | back (p : P) (cancelled : Bool) (pick : ℕ)
  /-- A condition wait ends without a signal. -/
  | spurious (p : P)
  | close

variable [DecidableEq P]

/-- `fiber` tells the fibers from the plain threads. -/
def chanStep (fiber : P → Bool) (clear : V → V) :
    ChanAction P V → ChanState P V → Option (ChanState P V)
  | .call p c pick, s =>
    if (s.place p).free then some (s.enter p fiber clear c pick) else none
  | .tryCall p c pick, s =>
    if (s.place p).free then some (s.tryCall p clear pick c) else none
  | .back p cancelled pick, s =>
    match s.place p with
    | .waiting c =>
      if fiber p then
        if s.signalled p then some (s.enter p fiber clear c pick)
        else if cancelled then
          (s.fiberLineRemove c.side p).map fun s => s.setPlace p .cancelled
        else some s
      else if p ∈ s.cond c.side then none
      else some (s.enter p fiber clear c pick)
    | _ => none
  | .spurious p, s =>
    match s.place p with
    | .waiting c =>
      if p ∈ s.cond c.side then
        some { s with cond := update s.cond c.side ((s.cond c.side).erase p) }
      else none
    | _ => none
  | .close, s => some s.close

end Channel
end Beans
