import Beans.Fiber.NoLostWake

/-!
# Joining a thread from a fiber

A fiber that joins a thread writes itself into the handle's `join_waiter`, reads
`done` and parks; the finishing thread stores `done` and exchanges
`join_waiter` for the fiber to resume.  The fibers of several workers may join
one handle, one after the other.  The workers and their parks and resumes are
those of `Beans.Fiber.Wake`; the atomic operations on the handle are steps of
their own, each with the plain code that follows it up to the next one.  A call
that the thread's own body makes counts as one of another thread.
-/

namespace Beans
namespace Fiber

open StepSystem

/-- Where a fiber stands in `beans_thread_join`. -/
inductive JoinPc where
  | outside
  /-- At the store of `join_waiter`. -/
  | register
  /-- At the load of `done` in the loop's condition. -/
  | loadDone
  /-- At the call of `beans_fiber_park`. -/
  | park
  /-- Inside `beans_fiber_park`. -/
  | parked
  /-- Switched to again, at the load of its cancel flag. -/
  | outcome
  /-- Cancelled, at the load of `done`. -/
  | recheck
  /-- Cancelled, at the store that clears `join_waiter`. -/
  | clear
  /-- At the store after the loop. -/
  | leave
  /-- In `pthread_join`. -/
  | reap
deriving DecidableEq, Repr

/-- Where the finishing thread stands; `P` names fibers. -/
inductive FinishPc (P : Type*) where
  | body
  /-- At the exchange of `join_waiter`. -/
  | exchange
  /-- At the call of `beans_fiber_resume`. -/
  | call (p : P)
  /-- Inside `beans_fiber_resume`. -/
  | resume (p : P)
  | finished
deriving DecidableEq, Repr

/-- A thread handle and the workers whose fibers join it. -/
structure JoinState (W F T : Type*) where
  worlds : W → Tracked F T
  done : Bool
  joinWaiter : Option (W × F)
  joined : Bool
  finisher : FinishPc (W × F)
  joiner : W × F → JoinPc
  /-- The fiber left its last join through cancellation. -/
  abandoned : W × F → Bool
  /-- A join has returned. -/
  completed : Bool

/-- The fibers' own steps, the finishing thread's, and a join's. -/
inductive JoinAction (W F T : Type*) where
  | fiber (w : W) (act : Action F T)
  | finisher
  /-- The running fiber calls `beans_thread_join`. -/
  | enter (w : W)
  /-- The running fiber's next operation in it. -/
  | join (w : W)

variable {W F T : Type*} [DecidableEq W] [DecidableEq F] [DecidableEq T]

namespace JoinState

def setWorld (s : JoinState W F T) (w : W) (x : Tracked F T) :
    JoinState W F T :=
  { s with worlds := Function.update s.worlds w x }

def setJoiner (s : JoinState W F T) (p : W × F) (pc : JoinPc) :
    JoinState W F T :=
  { s with joiner := Function.update s.joiner p pc }

omit [DecidableEq F] [DecidableEq T] in
@[simp] theorem setWorld_self (s : JoinState W F T) (w : W)
    (x : Tracked F T) : (s.setWorld w x).worlds w = x :=
  Function.update_self _ _ _

omit [DecidableEq F] [DecidableEq T] in
theorem setWorld_other (s : JoinState W F T) {w v : W} (hv : v ≠ w)
    (x : Tracked F T) : (s.setWorld w x).worlds v = s.worlds v :=
  Function.update_of_ne hv _ _

def setAbandoned (s : JoinState W F T) (p : W × F) (b : Bool) :
    JoinState W F T :=
  { s with abandoned := Function.update s.abandoned p b }

end JoinState

/-- The choices of a running fiber's own code. -/
def ownChoice : Action F T → Bool
  | .spawn _ => true
  | .mask _ => true
  | .park => true
  | .yield => true
  | .finish => true
  | .call none _ _ => true
  | _ => false

/-- The steps the finishing thread takes as the handle's thread. -/
def finishing (fin : T) : Action F T → Bool
  | .call (some t) _ _ => t = fin
  | .resume (some t) => t = fin
  | _ => false

/-- The worker runs a fiber that is inside `beans_thread_join`. -/
def inJoin (s : JoinState W F T) (w : W) : Bool :=
  match (s.worlds w).1.worker with
  | .on f .body => s.joiner (w, f) ≠ .outside
  | _ => false

/-- A fiber that is switched to goes on in its join; one that finds its latch
set returns woken at once. -/
def joinerAfter (s : JoinState W F T) (w : W) (act : Action F T)
    (p : W × F) : JoinPc :=
  match act with
  | .work =>
    let x := (s.worlds w).1
    if p.1 = w ∧ s.joiner p = .parked then
      if x.worker = .on p.2 .start then .outcome
      else if x.worker = .on p.2 .parkExchange ∧ x.pendingWake p.2 = true
      then .loadDone
      else .parked
    else s.joiner p
  | _ => s.joiner p

/-- A step of a worker, of its fibers' own code, or of a resumer. -/
def fiberStep (fin : T) (w : W) (act : Action F T) (s : JoinState W F T) :
    Option (JoinState W F T) :=
  if finishing fin act = true ∨ (inJoin s w = true ∧ ownChoice act = true) then
    none
  else
    (trackedStep act (s.worlds w)).map fun x =>
      { s.setWorld w x with joiner := joinerAfter s w act }

/-- The end of `thread_main`. -/
def finisherStep (fin : T) (s : JoinState W F T) :
    Option (JoinState W F T) :=
  match s.finisher with
  | .body => some { s with done := true, finisher := .exchange }
  | .exchange =>
    match s.joinWaiter with
    | none => some { s with finisher := .finished }
    | some p => some { s with joinWaiter := none, finisher := .call p }
  | .call p =>
    match trackedStep (.call (some fin) p.2 false) (s.worlds p.1) with
    | some x => some { s.setWorld p.1 x with finisher := .resume p }
    -- a fiber that is done is not resumed
    | none => some { s with finisher := .finished }
  | .resume p =>
    (trackedStep (.resume (some fin)) (s.worlds p.1)).map fun x =>
      { s.setWorld p.1 x with
        finisher :=
          if x.1.resumes (some fin) = none then .finished else .resume p }
  | .finished => none

/-- `if (t->joined) beans_panic(...); t->joined = 1;`. -/
def enterStep (w : W) (s : JoinState W F T) : Option (JoinState W F T) :=
  match (s.worlds w).1.worker with
  | .on f .body =>
    if (s.worlds w).1.resumes none = none ∧ s.joiner (w, f) = .outside ∧
        s.joined = false then
      some ({ s with joined := true }.setJoiner (w, f) .register)
    else none
  | _ => none

/-- The next operation of the running fiber's join. -/
def joinStep (w : W) (s : JoinState W F T) : Option (JoinState W F T) :=
  match (s.worlds w).1.worker with
  | .on f .body =>
    match s.joiner (w, f) with
    | .outside => none
    | .register =>
      some (({ s with joinWaiter := some (w, f) }.setAbandoned (w, f)
        false).setJoiner (w, f) .loadDone)
    | .loadDone =>
      some (s.setJoiner (w, f) (if s.done then .leave else .park))
    | .park =>
      (trackedStep .park (s.worlds w)).map fun x =>
        (s.setWorld w x).setJoiner (w, f)
          (if fiberCancelObservable (s.worlds w).1 f then .recheck
            else .parked)
    | .parked => none
    | .outcome =>
      some (s.setJoiner (w, f)
        (if fiberCancelObservable (s.worlds w).1 f then .recheck
          else .loadDone))
    | .recheck =>
      some (s.setJoiner (w, f) (if s.done then .loadDone else .clear))
    | .clear =>
      -- `beans_fiber_exit_cancelled` masks cancellation or unwinds
      (trackedStep (.mask true) (s.worlds w)).map fun x =>
        ({ s.setWorld w x with
          joinWaiter := none
          joined := false }.setAbandoned (w, f) true).setJoiner (w, f)
            .outside
    | .leave =>
      some ({ s with joinWaiter := none }.setJoiner (w, f) .reap)
    | .reap =>
      if s.finisher = .finished then
        some ({ s with completed := true }.setJoiner (w, f) .outside)
      else none
  | _ => none

/-- A step of a world, or of the thread that finishes. -/
def joinSystem (fin : T) (act : JoinAction W F T) (s : JoinState W F T) :
    Option (JoinState W F T) :=
  match act with
  | .fiber w a => fiberStep fin w a s
  | .finisher => finisherStep fin s
  | .enter w => enterStep w s
  | .join w => joinStep w s

/-- A running thread and workers before their first steps. -/
def joinInit (s : JoinState W F T) : Prop :=
  (∀ w, trackedInit (s.worlds w)) ∧ s.done = false ∧ s.joinWaiter = none ∧
    s.joined = false ∧ s.finisher = .body ∧ (∀ p, s.joiner p = .outside) ∧
    (∀ p, s.abandoned p = false) ∧ s.completed = false

end Fiber
end Beans
