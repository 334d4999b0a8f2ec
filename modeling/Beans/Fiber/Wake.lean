import Beans.Foundation.IntrusiveQueue
import Beans.Foundation.StepSystem

/-!
# Parking and resuming fibers

One worker runs fibers on its own thread; any thread may resume one of them.
The parking side publishes `PARKING`, switches to the scheduler, consumes the
wake latch and then moves to `PARKED` with a compare-and-swap; a resumer reads
the state, stores the latch and reads the state again.  Every sequentially
consistent atomic operation, every critical section under the inbox mutex and
every piece of work on data that only the worker touches is one step.

Resuming is done by actors: `none` is the worker itself, `some t` another
thread.
-/

namespace Beans
namespace Fiber

open IntrusiveQueue

inductive FiberState where
  | running
  | ready
  | parking
  | parked
  | done
deriving DecidableEq, Repr

/-- Where `beans_fiber_resume` stands: at the first load, at the
compare-and-swap, at the queueing, at the latch, at the second load, or at the
kick of a worker in its poller. -/
inductive ResumePc where
  | load
  | cas
  | push
  | latch
  | recheck
  | kick
deriving DecidableEq, Repr

/-- Where the worker stands on behalf of a fiber, from `run_one` to the end of
`settle`. -/
inductive FiberPc where
  | start
  | body
  | parkExchange
  | parkStore
  | yieldStore
  | settleExchange
  | settleCas
  | settleReady
  | settlePush
  | settleDone
deriving DecidableEq, Repr

/-- Where the worker stands between two fibers. -/
inductive SchedPc (F : Type*) where
  | loop
  | moving (chain : Option F)
  | fire
  | idle
  | blocked
  | pollCheck
  | polling
  | pollLower
deriving DecidableEq, Repr

/-- Where the worker stands: in its scheduler, or in code of a fiber. -/
inductive WorkerPc (F : Type*) where
  | sched (p : SchedPc F)
  | on (f : F) (p : FiberPc)
deriving DecidableEq, Repr

/-- The worker with its fibers, and the resumes in progress. -/
structure State (F T : Type*) where
  /-- `none` before the fiber is spawned. -/
  state : F → Option FiberState
  pendingWake : F → Bool
  cancelFlag : F → Bool
  /-- Cancellation is masked, or the fiber unwinds already. -/
  cancelMask : F → Bool
  queueNext : F → Option F
  ready : Line F
  inbox : Line F
  /-- The inbox condition has been signalled. -/
  signalled : Bool
  inPoll : Bool
  /-- A kick waits in the kernel poller. -/
  kicked : Bool
  worker : WorkerPc F
  resumes : Option T → Option (F × ResumePc)

inductive Action (F T : Type*) where
  /-- The worker's next instruction where there is only one. -/
  | work
  | spawn (f : F)
  | mask (masked : Bool)
  | park
  | yield
  | finish
  | drain
  | drainBlock
  | condReturn
  | pop
  | continue
  | pollRaise
  | pollReturn
  /-- An actor calls `beans_fiber_resume`, or `beans_fiber_cancel`. -/
  | call (actor : Option T) (f : F) (cancel : Bool)
  /-- The next atomic operation of an actor's resume. -/
  | resume (actor : Option T)

variable {F T : Type*} [DecidableEq F] [DecidableEq T]

namespace State

/-- A worker before its first fiber. -/
def initial : State F T where
  state _ := none
  pendingWake _ := false
  cancelFlag _ := false
  cancelMask _ := false
  queueNext _ := none
  ready := Line.empty
  inbox := Line.empty
  signalled := false
  inPoll := false
  kicked := false
  worker := .sched .loop
  resumes _ := none

/-- A bootstrapped worker: the promoted thread runs as the root fiber. -/
def bootstrapped (root : F) : State F T :=
  { (initial : State F T) with
    state := fun f => if f = root then some .running else none
    worker := .on root .body }

def setState (s : State F T) (f : F) (st : FiberState) : State F T :=
  { s with state := Function.update s.state f (some st) }

def setPending (s : State F T) (f : F) (b : Bool) : State F T :=
  { s with pendingWake := Function.update s.pendingWake f b }

def goto (s : State F T) (p : WorkerPc F) : State F T :=
  { s with worker := p }

def setResume (s : State F T) (a : Option T) (r : Option (F × ResumePc)) :
    State F T :=
  { s with resumes := Function.update s.resumes a r }

def readyPush (s : State F T) (f : F) : State F T :=
  { s with
    queueNext := pushNext s.queueNext s.ready f
    ready := pushLine s.ready f }

/-- The critical section of `inbox_post`. -/
def inboxPost (s : State F T) (f : F) : State F T :=
  { s with
    queueNext := pushNext s.queueNext s.inbox f
    inbox := pushLine s.inbox f
    signalled := true }

/-- The inbox is emptied under its mutex. -/
def inboxTake (s : State F T) : State F T :=
  { s with
    inbox := Line.empty
    worker := .sched (.moving s.inbox.head) }

end State

/-- A fiber's cancel flag counts unless it masks cancellation. -/
def fiberCancelObservable (s : State F T) (f : F) : Bool :=
  !s.cancelMask f && s.cancelFlag f

/-- The instruction at the worker's place, where there is only one; with it the
fiber that runs again or returns from its park. -/
def workStep (s : State F T) : Option (State F T × Option F) :=
  match s.worker with
  | .on f .start => some ((s.setState f .running).goto (.on f .body), some f)
  | .on _ .body => none
  | .on f .parkExchange =>
    let woken := s.pendingWake f
    let s := s.setPending f false
    if woken then some (s.goto (.on f .body), some f)
    else some (s.goto (.on f .parkStore), none)
  | .on f .parkStore =>
    some ((s.setState f .parking).goto (.on f .settleExchange), none)
  | .on f .yieldStore =>
    some ((s.setState f .parking).goto (.on f .settleReady), none)
  | .on f .settleExchange =>
    let woken := s.pendingWake f
    let s := s.setPending f false
    some (s.goto (.on f (if woken then .settleReady else .settleCas)), none)
  | .on f .settleCas =>
    if s.state f = some .parking then
      some ((s.setState f .parked).goto (.sched .loop), none)
    else some (s.goto (.on f .settleReady), none)
  | .on f .settleReady =>
    some ((s.setState f .ready).goto (.on f .settlePush), none)
  | .on f .settlePush => some ((s.readyPush f).goto (.sched .loop), none)
  | .on f .settleDone =>
    some ((s.setState f .done).goto (.sched .loop), none)
  | .sched (.moving none) => some (s.goto (.sched .fire), none)
  | .sched (.moving (some f)) =>
    let next := s.queueNext f
    some ((s.readyPush f).goto (.sched (.moving next)), none)
  | .sched .pollCheck =>
    some
      (s.goto (.sched (if s.inbox.head = none then .polling else .pollLower)),
        none)
  | .sched .pollLower =>
    some ({ s with inPoll := false, worker := .sched .loop }, none)
  | .sched _ => none

/-- The next atomic operation of a resume. -/
def resumeStep (s : State F T) (a : Option T) : Option (State F T) :=
  match s.resumes a with
  | none => none
  | some (f, .load) =>
    match s.state f with
    | some .parked => some (s.setResume a (some (f, .cas)))
    | some .done => some (s.setResume a none)
    | _ => some (s.setResume a (some (f, .latch)))
  | some (f, .cas) =>
    if s.state f = some .parked then
      some ((s.setState f .ready).setResume a (some (f, .push)))
    else some (s.setResume a (some (f, .load)))
  | some (f, .push) =>
    match a with
    | none => some ((s.readyPush f).setResume none none)
    | some t => some ((s.inboxPost f).setResume (some t) (some (f, .kick)))
  | some (f, .latch) =>
    some ((s.setPending f true).setResume a (some (f, .recheck)))
  | some (f, .recheck) =>
    if s.state f = some .parked then
      some (s.setResume a (some (f, .load)))
    else some (s.setResume a none)
  | some (_, .kick) =>
    some
      ({ s with kicked := s.kicked || s.inPoll }.setResume a none)

/-- The places from which the worker itself resumes fibers: user code, timers
that fire, kernel events, and what a finished fiber wakes. -/
def callsFrom : WorkerPc F → Bool
  | .on _ .body => true
  | .sched .loop => true
  | .sched .fire => true
  | .sched .pollLower => true
  | _ => false

/-- A resume or a cancel is called. -/
def callStep (s : State F T) (a : Option T) (f : F) (cancel : Bool) :
    Option (State F T) :=
  if s.resumes a ≠ none ∨ s.state f = none ∨ s.state f = some .done ∨
      (a = none ∧ callsFrom s.worker = false) then none
  else
    let s := if cancel then
        { s with cancelFlag := Function.update s.cancelFlag f true }
      else s
    some (s.setResume a (some (f, .load)))

/-- What the worker chooses to do next; it is not inside a resume then. -/
def chooseStep (s : State F T) : Action F T →
    Option (State F T × Option F)
  | .work => workStep s
  | .spawn f =>
    if s.state f = none ∧ callsFrom s.worker = true then
      some ((s.setState f .ready).readyPush f, none)
    else none
  | .mask masked =>
    match s.worker with
    | .on f .body =>
      some ({ s with
        cancelMask := Function.update s.cancelMask f masked }, none)
    | _ => none
  | .park =>
    match s.worker with
    | .on f .body =>
      if fiberCancelObservable s f then some (s, some f)
      else some (s.goto (.on f .parkExchange), none)
    | _ => none
  | .yield =>
    match s.worker with
    | .on f .body =>
      if fiberCancelObservable s f then some (s, none)
      else some (s.goto (.on f .yieldStore), none)
    | _ => none
  | .finish =>
    match s.worker with
    | .on f .body =>
      some ((s.setState f .parking).goto (.on f .settleDone), none)
    | _ => none
  | .drain =>
    if s.worker = .sched .loop ∨ s.worker = .sched .idle then
      some (s.inboxTake, none)
    else none
  | .drainBlock =>
    if s.worker = .sched .idle then
      if s.inbox.head = none then
        some ({ s with signalled := false, worker := .sched .blocked }, none)
      else some (s.inboxTake, none)
    else none
  | .condReturn =>
    if s.worker = .sched .blocked then some (s.goto (.sched .idle), none)
    else none
  | .pop =>
    if s.worker = .sched .fire then
      match s.ready.head with
      | none => some (s.goto (.sched .idle), none)
      | some f =>
        some ({ s with
          queueNext := Function.update s.queueNext f none
          ready := popLine s.queueNext s.ready f
          worker := .on f .start }, none)
    else none
  | .continue =>
    if s.worker = .sched .fire then some (s.goto (.sched .loop), none)
    else none
  | .pollRaise =>
    if s.worker = .sched .idle then
      some ({ s with inPoll := true, worker := .sched .pollCheck }, none)
    else none
  | .pollReturn =>
    if s.worker = .sched .polling then
      some ({ s with kicked := false, worker := .sched .pollLower }, none)
    else none
  | .call _ _ _ => none
  | .resume _ => none

/-- One step; the second component names the fiber that runs or returns from a
park in it. -/
def step (act : Action F T) (s : State F T) :
    Option (State F T × Option F) :=
  match act with
  | .call a f cancel => (callStep s a f cancel).map (·, none)
  | .resume a => (resumeStep s a).map (·, none)
  | act => if s.resumes none = none then chooseStep s act else none

/-- What a call needs and does. -/
theorem callStep_eq {s s' : State F T} {a : Option T} {f : F} {c : Bool}
    (hs : callStep s a f c = some s') :
    ∃ flag, s.resumes a = none ∧ s.state f ≠ none ∧
      (a = none → callsFrom s.worker = true) ∧
      s' = { s with cancelFlag := flag }.setResume a (some (f, .load)) := by
  unfold callStep at hs
  split at hs
  · cases hs
  · rename_i hguard
    simp only [not_or, not_not, not_and, Bool.not_eq_false] at hguard
    obtain ⟨ha, hf, -, hcalls⟩ := hguard
    cases c with
    | false =>
      cases hs
      exact ⟨s.cancelFlag, ha, hf, hcalls, rfl⟩
    | true =>
      cases hs
      exact ⟨Function.update s.cancelFlag f true, ha, hf, hcalls, rfl⟩

/-- The three kinds of step. -/
theorem step_cases {act : Action F T} {s s' : State F T} {e : Option F}
    (hs : step act s = some (s', e)) :
    (∃ a f c, act = .call a f c ∧ callStep s a f c = some s' ∧ e = none) ∨
    (∃ a, act = .resume a ∧ resumeStep s a = some s' ∧ e = none) ∨
    ((∀ a f c, act ≠ .call a f c) ∧ (∀ a, act ≠ .resume a) ∧
      s.resumes none = none ∧ chooseStep s act = some (s', e)) := by
  cases act with
  | call a f c =>
    simp only [step, Option.map_eq_some_iff, Prod.mk.injEq] at hs
    obtain ⟨t, ht, rfl, rfl⟩ := hs
    exact Or.inl ⟨a, f, c, rfl, ht, rfl⟩
  | resume a =>
    simp only [step, Option.map_eq_some_iff, Prod.mk.injEq] at hs
    obtain ⟨t, ht, rfl, rfl⟩ := hs
    exact Or.inr (Or.inl ⟨a, rfl, ht, rfl⟩)
  | _ =>
    simp only [step] at hs
    split at hs
    · exact Or.inr (Or.inr ⟨nofun, nofun, ‹_›, hs⟩)
    · cases hs

/-- History of the resumes: `fresh a` while the target of `a`'s resume has not
run since that resume began, `owed f` while a resume of `f` has returned and
`f` has not run since it began. -/
structure History (F T : Type*) where
  fresh : Option T → Bool
  owed : F → Bool

namespace History

def initial : History F T := ⟨fun _ => false, fun _ => false⟩

/-- The fiber ran: nothing that began before is owed any more. -/
def ran (h : History F T) (s : State F T) (f : F) : History F T where
  fresh a := h.fresh a && (s.resumes a).map Prod.fst != some f
  owed := Function.update h.owed f false

/-- The history after a step from `s` to `s'`. -/
def after (h : History F T) (act : Action F T) (s s' : State F T)
    (event : Option F) : History F T :=
  match act with
  | .call a _ _ => { h with fresh := Function.update h.fresh a true }
  | .resume a =>
    match s.resumes a, s'.resumes a with
    | some (f, _), none =>
      { h with owed := Function.update h.owed f (h.owed f || h.fresh a) }
    | _, _ => h
  | _ =>
    match event with
    | none => h
    | some f => h.ran s f

end History

/-- The worker together with the history of its resumes. -/
abbrev Tracked (F T : Type*) := State F T × History F T

def trackedStep (act : Action F T) (x : Tracked F T) : Option (Tracked F T) :=
  (step act x.1).map fun r => (r.1, x.2.after act x.1 r.1 r.2)

def trackedInit (x : Tracked F T) : Prop :=
  x.2 = History.initial ∧
    (x.1 = State.initial ∨ ∃ root, x.1 = State.bootstrapped root)

end Fiber
end Beans
