import Beans.FiberIo.Netpoll
import Beans.FiberIo.Sleepers
import Beans.Foundation.StepSystem

/-!
# The waits of a worker

One worker runs its fibers one at a time.  A fiber that sleeps or waits for a descriptor
pushes a timer, arms a registration and parks until it is resumed: by its timer, by the
netpoller, by a cancel or by nothing in particular.  A step is what the thread does up to
the next place where another fiber, the scheduler or another thread may come in between.
-/

namespace Beans
namespace FiberIo

open Function

/-- The states of a record; one that is `unused` is in the pool or freed. -/
inductive FiberState where
  | unused
  | ready
  | running
  | parked
  | done
deriving DecidableEq

/-- What the scheduler and the cancellation read of a fiber. -/
structure FiberRecord where
  state : FiberState := .ready
  pendingWake : Bool := false
  cancelFlag : Bool := false
  cancelMask : Bool := false
  cancelHandler : Bool := false
  unwinding : Bool := false
deriving DecidableEq

/-- Where a fiber's code stands. -/
inductive Call where
  | outside
  /-- In `beans_fiber_sleep`, since a clock reading. -/
  | sleep (begun nanos : ℤ)
  /-- In `beans_fiber_wait_io`; a negative deadline is none. -/
  | waitIo (deadline : ℤ)
deriving DecidableEq

/-- The calls that fibers are in, with what they armed and pushed. -/
structure Waits (F : Type*) where
  calls : F → Call
  io : Poller F
  sleepers : List (Sleeper F)

/-- A worker: the fiber it runs, the records of its fibers, its waits and its clock. -/
structure Worker (F : Type*) extends Waits F where
  current : Option F
  fibers : F → FiberRecord
  clock : ℤ

/-- What a 64-bit count keeps of an integer. -/
def wrap (z : ℤ) : ℤ := z.bmod (2 ^ 64)

/-- The deadline of the entry that a call pushes. -/
def Call.timer : Call → Option ℤ
  | .outside => none
  | .sleep begun nanos => some (wrap (begun + nanos))
  | .waitIo deadline => if 0 ≤ deadline then some deadline else none

/-- A cancel shows itself to the fiber. -/
def fiberCancelObservable (x : FiberRecord) : Bool :=
  !x.cancelMask && !x.unwinding && x.cancelFlag

namespace Worker

variable {F : Type*}

def initial : Worker F where
  current := none
  fibers _ := { state := .unused }
  calls _ := .outside
  io := .initial
  sleepers := []
  clock := 0

variable [DecidableEq F]

def setFiber (w : Worker F) (f : F) (x : FiberRecord) : Worker F :=
  { w with fibers := update w.fibers f x }

def setCall (w : Worker F) (f : F) (c : Call) : Worker F :=
  { w with calls := update w.calls f c }

/-- `beans_fiber_resume`.  A wake that races with the settling of a park may leave the latch
set although the fiber was made ready. -/
def resume (w : Worker F) (f : F) (late : Bool) : Worker F :=
  let x := w.fibers f
  match x.state with
  | .parked => w.setFiber f { x with state := .ready, pendingWake := x.pendingWake || late }
  | .unused | .done => w
  | .ready | .running => w.setFiber f { x with pendingWake := true }

/-- The flag is set and the fiber resumed. -/
def cancel (w : Worker F) (f : F) (late : Bool) : Worker F :=
  (w.setFiber f { w.fibers f with cancelFlag := true }).resume f late

/-- `beans_fiber_exit_cancelled`. -/
def exitCancelled (w : Worker F) (f : F) : Worker F :=
  let x := w.fibers f
  (w.setFiber f
    (if x.cancelHandler then { x with cancelMask := true }
      else { x with unwinding := true })).setCall f .outside

def removeTimer (w : Worker F) (f : F) : Worker F :=
  { w with sleepers := sleeperRemove w.sleepers f }

/-- The entry of a wait, if it has a deadline. -/
def pushTimer (w : Worker F) (f : F) (deadline : ℤ) : Worker F :=
  if 0 ≤ deadline then { w with sleepers := sleeperPush w.sleepers ⟨deadline, f⟩ } else w

/-- Only a call with a deadline has a timer to drop. -/
def dropTimer (w : Worker F) (f : F) (deadline : ℤ) : Worker F :=
  if 0 ≤ deadline then w.removeTimer f else w

def disarm (b : Netpoll) (w : Worker F) (f : F) : Worker F :=
  { w with io := w.io.disarm b f }

/-- What a wait does when its park answers that the fiber is cancelled. -/
def cancelled (b : Netpoll) (w : Worker F) (f : F) : Worker F :=
  match w.calls f with
  | .outside => w
  | .sleep _ _ => (w.removeTimer f).exitCancelled f
  | .waitIo deadline => ((w.disarm b f).dropTimer f deadline).exitCancelled f

/-- `beans_fiber_park`, up to the switch, in the loop of a wait. -/
def park (b : Netpoll) (w : Worker F) (f : F) : Worker F :=
  let x := w.fibers f
  if fiberCancelObservable x then w.cancelled b f
  else if x.pendingWake then w.setFiber f { x with pendingWake := false }
  else { w.setFiber f { x with state := .parked } with current := none }

/-- `beans_fiber_yield`, or `beans_fiber_park` outside of the two waits. -/
def pause (w : Worker F) (f : F) (yields : Bool) : Worker F :=
  let x := w.fibers f
  if fiberCancelObservable x then w
  else if yields then { w.setFiber f { x with state := .ready } with current := none }
  else if x.pendingWake then w.setFiber f { x with pendingWake := false }
  else { w.setFiber f { x with state := .parked } with current := none }

/-- The loop of `beans_fiber_wait_io` has ended. -/
def endWait (w : Worker F) (f : F) (deadline : ℤ) : Worker F :=
  (w.dropTimer f deadline).setCall f .outside

/-- The clock tells the loop of `beans_fiber_sleep` to end. -/
def sleepOver (begun nanos now : ℤ) : Prop := ¬now < wrap (begun + nanos)

instance (begun nanos now : ℤ) : Decidable (sleepOver begun nanos now) :=
  inferInstanceAs (Decidable (¬_))

/-- One turn of the loop of a wait, with a reading of the clock. -/
def turn (b : Netpoll) (w : Worker F) (f : F) (now : ℤ) : Worker F :=
  match w.calls f with
  | .outside => w
  | .sleep begun nanos =>
    if sleepOver begun nanos now then w.setCall f .outside else w.park b f
  | .waitIo deadline =>
    if w.io.ioSignalled f then w.endWait f deadline
    else if 0 ≤ deadline ∧ deadline ≤ now then (w.disarm b f).endWait f deadline
    else w.park b f

/-- `beans_fiber_sleep`, up to its loop. -/
def sleep (w : Worker F) (f : F) (nanos now : ℤ) : Worker F :=
  if nanos ≤ 0 then w
  else
    { w.setCall f (.sleep now nanos) with
      sleepers := sleeperPush w.sleepers ⟨wrap (now + nanos), f⟩ }

/-- The deadline of `beans_fiber_wait_io`. -/
def waitDeadline (timeoutMs now : ℤ) : ℤ :=
  if 0 ≤ timeoutMs then wrap (now + timeoutMs * 1000000) else -1

/-- `beans_fiber_wait_io`, up to its loop; nothing happens where the poller refuses. -/
def waitIo (b : Netpoll) (w : Worker F) (f : F) (fd : ℤ) (write : Bool) (timeoutMs now : ℤ)
    (refused : Bool) : Worker F :=
  if refused then w
  else
    match w.io.beginWait b f fd write with
    | none => w
    | some io =>
      (({ w with io := io }).pushTimer f (waitDeadline timeoutMs now)).setCall f
        (.waitIo (waitDeadline timeoutMs now))

/-- A ready fiber runs on.  In a wait it comes back from the switch in its park. -/
def dispatch (b : Netpoll) (w : Worker F) (f : F) : Worker F :=
  let x := w.fibers f
  let w := { w.setFiber f { x with state := .running } with current := some f }
  if fiberCancelObservable x then w.cancelled b f else w

/-- One turn of `sleeper_fire_due`, and nothing when no entry is due. -/
def fireFirst (w : Worker F) (now : ℤ) : Option (Worker F) :=
  match w.sleepers with
  | [] => none
  | first :: _ =>
    if first.deadline ≤ now then
      some (({ w with sleepers := sleeperPopMin w.sleepers }).resume first.fiber false)
    else none

/-- What `poller_drain` does with an event that names a fiber. -/
def drain (b : Netpoll) (w : Worker F) (f : F) : Worker F :=
  if w.io.wakes b f then ({ w with io := w.io.deliver f }).resume f false else w

/-- `beans_fiber_spawn` with a record that is new or out of the pool. -/
def spawn (w : Worker F) (f : F) : Worker F :=
  { w.setFiber f {} with io := w.io.reset f }

/-- Where a worker without a ready fiber waits. -/
inductive IdleWait where
  | poller
  | ready
  | deadlockReport
  | inbox
  | timers
deriving DecidableEq

/-- The branches of `idle_wait`: whether another thread may still wake a fiber, and whether
one did. -/
def idleWait (w : Worker F) (mayWake posted : Bool) : IdleWait :=
  if w.io.ioWaiters > 0 then .poller
  else if w.sleepers = [] then
    if mayWake then .inbox else if posted then .ready else .deadlockReport
  else .timers

end Worker

/-- What may happen next. -/
inductive WorkerAction (F : Type*) where
  | spawn (f : F)
  /-- The running fiber ends. -/
  | finish (f : F)
  /-- A finished record goes to the pool or is freed. -/
  | retire (f : F)
  /-- Code of the running fiber sets what its cancellation depends on. -/
  | attend (f : F) (mask handler unwinding : Bool)
  /-- The running fiber yields, or parks in some other wait. -/
  | pause (f : F) (yields : Bool)
  | sleep (f : F) (nanos now : ℤ)
  | waitIo (f : F) (fd : ℤ) (write : Bool) (timeoutMs now : ℤ) (refused : Bool)
  | turn (f : F) (now : ℤ)
  | dispatch (f : F)
  | resume (f : F) (late : Bool)
  | cancel (f : F) (late : Bool)
  | fire (now : ℤ)
  | submit (refused : F → Bool)
  | event (fd : ℤ) (write : Bool)

/-- A reading of the monotone clock. -/
def Reading (clock now : ℤ) : Prop := clock ≤ now ∧ now < 2 ^ 63

instance (clock now : ℤ) : Decidable (Reading clock now) :=
  inferInstanceAs (Decidable (_ ∧ _))

/-- The counts that a program can pass. -/
def Count (z : ℤ) : Prop := -2 ^ 63 ≤ z ∧ z < 2 ^ 63

instance (z : ℤ) : Decidable (Count z) :=
  inferInstanceAs (Decidable (_ ∧ _))

variable {F : Type*} [DecidableEq F]

open Worker in
/-- One step of the worker, of its poller or of a thread that cancels. -/
def workerStep (b : Netpoll) : WorkerAction F → Worker F → Option (Worker F)
  | .spawn f, w =>
    if (w.fibers f).state = .unused then some (w.spawn f) else none
  | .finish f, w =>
    if w.current = some f ∧ w.calls f = .outside then
      some { w.setFiber f { w.fibers f with state := .done } with current := none }
    else none
  | .retire f, w =>
    if (w.fibers f).state = .done then
      some (w.setFiber f { w.fibers f with state := .unused })
    else none
  | .attend f mask handler unwinding, w =>
    if w.current = some f ∧ w.calls f = .outside then
      some (w.setFiber f { w.fibers f with
        cancelMask := mask, cancelHandler := handler, unwinding := unwinding })
    else none
  | .pause f yields, w =>
    if w.current = some f ∧ w.calls f = .outside then
      some (w.pause f yields)
    else none
  | .sleep f nanos now, w =>
    if w.current = some f ∧ w.calls f = .outside ∧ Reading w.clock now ∧ Count nanos then
      some (({ w with clock := now }).sleep f nanos now)
    else none
  | .waitIo f fd write timeoutMs now refused, w =>
    if w.current = some f ∧ w.calls f = .outside ∧ Reading w.clock now ∧
        Count timeoutMs then
      some (({ w with clock := now }).waitIo b f fd write timeoutMs now refused)
    else none
  | .turn f now, w =>
    if w.current = some f ∧ w.calls f ≠ .outside ∧ Reading w.clock now then
      some (({ w with clock := now }).turn b f now)
    else none
  | .dispatch f, w =>
    if w.current = none ∧ (w.fibers f).state = .ready then some (w.dispatch b f) else none
  | .resume f late, w => some (w.resume f late)
  | .cancel f late, w => some (w.cancel f late)
  | .fire now, w =>
    if w.current = none ∧ Reading w.clock now then
      ({ w with clock := now }).fireFirst now
    else none
  | .submit refused, w =>
    if w.current = none ∧ b = .kqueue then
      some ((w.io.refusals refused).foldl (drain b) { w with io := w.io.submit refused })
    else none
  | .event fd write, w =>
    if w.current = none then
      (w.io.event b fd write).map fun e => ({ w with io := e.2 }).drain b e.1
    else none

namespace Worker

variable (w : Worker F) (f : F)

@[simp] theorem setCall_toWaits (c : Call) :
    (w.setCall f c).toWaits = { w.toWaits with calls := update w.calls f c } := rfl

@[simp] theorem resume_toWaits (late : Bool) : (w.resume f late).toWaits = w.toWaits := by
  rw [resume]
  cases (w.fibers f).state
  all_goals rfl

@[simp] theorem exitCancelled_toWaits :
    (w.exitCancelled f).toWaits = { w.toWaits with calls := update w.calls f .outside } := rfl

theorem drain_toWaits (b : Netpoll) :
    (w.drain b f).toWaits = { w.toWaits with io := w.io.drain b f } := by
  rw [drain, Poller.drain]
  split_ifs
  · rw [resume_toWaits]
  · rfl

theorem drains_toWaits (b : Netpoll) (fs : List F) :
    (fs.foldl (drain b) w).toWaits =
      { w.toWaits with io := fs.foldl (Poller.drain b) w.io } := by
  induction fs generalizing w with
  | nil => rfl
  | cons f fs ih =>
    rw [List.foldl_cons, ih, drain_toWaits]
    rfl

end Worker

/-- The timers with and without the entry of a wait that may have none. -/
def timerPush (sleepers : List (Sleeper F)) (f : F) (deadline : ℤ) : List (Sleeper F) :=
  if 0 ≤ deadline then sleeperPush sleepers ⟨deadline, f⟩ else sleepers

def timerDrop (sleepers : List (Sleeper F)) (f : F) (deadline : ℤ) : List (Sleeper F) :=
  if 0 ≤ deadline then sleeperRemove sleepers f else sleepers

/-- A fiber that gives up its wait has no readiness delivered, unless a cancel is the first
thing it sees when it runs again. -/
inductive Effect (b : Netpoll) (w : Worker F) : WorkerAction F → Waits F → Prop
  | quiet (a : WorkerAction F) : Effect b w a w.toWaits
  | spawned (f : F) :
      (w.fibers f).state = .unused →
      Effect b w (.spawn f) { w.toWaits with io := w.io.reset f }
  | slept (f : F) (nanos now : ℤ) :
      w.calls f = .outside →
      0 < nanos →
      Effect b w (.sleep f nanos now)
        ⟨update w.calls f (.sleep now nanos), w.io,
          sleeperPush w.sleepers ⟨wrap (now + nanos), f⟩⟩
  | overslept (f : F) (begun nanos now : ℤ) :
      w.calls f = .sleep begun nanos →
      Worker.sleepOver begun nanos now →
      Effect b w (.turn f now) ⟨update w.calls f .outside, w.io, w.sleepers⟩
  | cancelledSleep (a : WorkerAction F) (f : F) (begun nanos : ℤ) :
      w.calls f = .sleep begun nanos →
      Effect b w a ⟨update w.calls f .outside, w.io, sleeperRemove w.sleepers f⟩
  | waited (f : F) (fd : ℤ) (write : Bool) (timeoutMs now : ℤ) (io : Poller F) :
      w.calls f = .outside →
      w.io.beginWait b f fd write = some io →
      Effect b w (.waitIo f fd write timeoutMs now false)
        ⟨update w.calls f (.waitIo (Worker.waitDeadline timeoutMs now)), io,
          timerPush w.sleepers f (Worker.waitDeadline timeoutMs now)⟩
  | answered (f : F) (deadline now : ℤ) :
      w.calls f = .waitIo deadline →
      w.io.ioSignalled f = true →
      Effect b w (.turn f now)
        ⟨update w.calls f .outside, w.io, timerDrop w.sleepers f deadline⟩
  | gaveUp (a : WorkerAction F) (f : F) (deadline : ℤ) :
      w.calls f = .waitIo deadline →
      w.io.ioSignalled f = false ∨
        a = .dispatch f ∧ fiberCancelObservable (w.fibers f) = true →
      Effect b w a
        ⟨update w.calls f .outside, w.io.disarm b f, timerDrop w.sleepers f deadline⟩
  | fired (now : ℤ) (first : Sleeper F) (rest : List (Sleeper F)) :
      w.sleepers = first :: rest →
      first.deadline ≤ now →
      Effect b w (.fire now) { w.toWaits with sleepers := sleeperPopMin w.sleepers }
  | submitted (refused : F → Bool) :
      b = .kqueue →
      Effect b w (.submit refused)
        { w.toWaits with
          io := (w.io.refusals refused).foldl (Poller.drain b) (w.io.submit refused) }
  | delivered (fd : ℤ) (write : Bool) (f : F) (io : Poller F) :
      w.io.event b fd write = some (f, io) →
      Effect b w (.event fd write) { w.toWaits with io := io.drain b f }

section Effects

variable {b : Netpoll} {w w' : Worker F} {f : F} {a : WorkerAction F}

theorem dropTimer_toWaits (w : Worker F) (f : F) (deadline : ℤ) :
    (w.dropTimer f deadline).toWaits =
      { w.toWaits with sleepers := timerDrop w.sleepers f deadline } := by
  rw [Worker.dropTimer, timerDrop]
  split_ifs
  all_goals rfl

omit [DecidableEq F] in
theorem pushTimer_toWaits (w : Worker F) (f : F) (deadline : ℤ) :
    (w.pushTimer f deadline).toWaits =
      { w.toWaits with sleepers := timerPush w.sleepers f deadline } := by
  rw [Worker.pushTimer, timerPush]
  split_ifs
  all_goals rfl

/-- The waits once a fiber saw in its park that it was cancelled. -/
def Waits.cancelled (b : Netpoll) (s : Waits F) (f : F) : Waits F :=
  match s.calls f with
  | .outside => s
  | .sleep _ _ => ⟨update s.calls f .outside, s.io, sleeperRemove s.sleepers f⟩
  | .waitIo deadline =>
    ⟨update s.calls f .outside, s.io.disarm b f, timerDrop s.sleepers f deadline⟩

theorem cancelled_toWaits (b : Netpoll) (w : Worker F) (f : F) :
    (w.cancelled b f).toWaits = w.toWaits.cancelled b f := by
  rw [Worker.cancelled, Waits.cancelled]
  cases w.calls f with
  | outside => rfl
  | sleep begun nanos => rfl
  | waitIo deadline =>
    dsimp only
    rw [Worker.exitCancelled_toWaits, dropTimer_toWaits]
    rfl

theorem cancelled_effect (a : WorkerAction F)
    (hready : ∀ deadline, w.calls f = .waitIo deadline → w.io.ioSignalled f = false ∨
      a = .dispatch f ∧ fiberCancelObservable (w.fibers f) = true) :
    Effect b w a (w.toWaits.cancelled b f) := by
  rw [Waits.cancelled]
  cases hcall : w.calls f with
  | outside => exact .quiet a
  | sleep begun nanos => exact .cancelledSleep a f begun nanos hcall
  | waitIo deadline => exact .gaveUp a f deadline hcall (hready deadline hcall)

theorem park_effect (a : WorkerAction F) (now : ℤ)
    (hready : ∀ deadline, w.calls f = .waitIo deadline → w.io.ioSignalled f = false) :
    Effect b w a (({ w with clock := now }).park b f).toWaits := by
  rw [Worker.park]
  dsimp only
  split_ifs
  · rw [cancelled_toWaits]
    exact cancelled_effect a fun deadline hcall => .inl (hready deadline hcall)
  · exact .quiet a
  · exact .quiet a

theorem turn_effect (now : ℤ) :
    Effect b w (.turn f now) (({ w with clock := now }).turn b f now).toWaits := by
  rw [Worker.turn]
  cases hcall : w.calls f with
  | outside => exact .quiet _
  | sleep begun nanos =>
    dsimp only
    split_ifs with hover
    · exact .overslept f begun nanos now hcall hover
    · refine park_effect _ now fun deadline hwait => ?_
      rw [hcall] at hwait
      cases hwait
  | waitIo deadline =>
    dsimp only
    split_ifs with hsig hover
    · rw [Worker.endWait, Worker.setCall_toWaits, dropTimer_toWaits]
      exact .answered f deadline now hcall hsig
    · rw [Worker.endWait, Worker.setCall_toWaits, dropTimer_toWaits]
      exact .gaveUp _ f deadline hcall (.inl (Bool.eq_false_of_not_eq_true hsig))
    · exact park_effect _ now fun _ _ => Bool.eq_false_of_not_eq_true hsig

/-- A step has one of these effects. -/
theorem workerStep_effect (hstep : workerStep b a w = some w') : Effect b w a w'.toWaits := by
  cases a with
  | spawn f =>
    rw [workerStep] at hstep
    split_ifs at hstep with hstate
    obtain rfl := Option.some.inj hstep
    exact .spawned f hstate
  | finish f =>
    rw [workerStep] at hstep
    split_ifs at hstep
    obtain rfl := Option.some.inj hstep
    exact .quiet _
  | retire f =>
    rw [workerStep] at hstep
    split_ifs at hstep
    obtain rfl := Option.some.inj hstep
    exact .quiet _
  | attend f mask handler unwinding =>
    rw [workerStep] at hstep
    split_ifs at hstep
    obtain rfl := Option.some.inj hstep
    exact .quiet _
  | pause f yields =>
    rw [workerStep] at hstep
    split_ifs at hstep
    obtain rfl := Option.some.inj hstep
    rw [Worker.pause]
    split_ifs
    all_goals exact .quiet _
  | sleep f nanos now =>
    rw [workerStep] at hstep
    split_ifs at hstep with hguard
    obtain rfl := Option.some.inj hstep
    rw [Worker.sleep]
    split_ifs with hnanos
    · exact .quiet _
    · exact .slept f nanos now hguard.2.1 (not_le.mp hnanos)
  | waitIo f fd write timeoutMs now refused =>
    rw [workerStep] at hstep
    split_ifs at hstep with hguard
    obtain rfl := Option.some.inj hstep
    rw [Worker.waitIo]
    split_ifs with hrefused
    · exact .quiet _
    rw [Bool.not_eq_true] at hrefused
    subst hrefused
    cases hbegin : w.io.beginWait b f fd write with
    | none => exact .quiet _
    | some io =>
      dsimp only
      rw [Worker.setCall_toWaits, pushTimer_toWaits]
      exact .waited f fd write timeoutMs now io hguard.2.1 hbegin
  | turn f now =>
    rw [workerStep] at hstep
    split_ifs at hstep
    obtain rfl := Option.some.inj hstep
    exact turn_effect now
  | dispatch f =>
    rw [workerStep] at hstep
    split_ifs at hstep
    obtain rfl := Option.some.inj hstep
    rw [Worker.dispatch]
    dsimp only
    split_ifs with hobservable
    · rw [cancelled_toWaits]
      exact cancelled_effect _ fun _ _ => .inr ⟨rfl, hobservable⟩
    · exact .quiet _
  | resume f late =>
    obtain rfl := Option.some.inj hstep
    rw [Worker.resume_toWaits]
    exact .quiet _
  | cancel f late =>
    obtain rfl := Option.some.inj hstep
    rw [Worker.cancel, Worker.resume_toWaits]
    exact .quiet _
  | fire now =>
    rw [workerStep] at hstep
    split_ifs at hstep
    rw [Worker.fireFirst] at hstep
    cases hsleepers : w.sleepers with
    | nil =>
      rw [hsleepers] at hstep
      cases hstep
    | cons first rest =>
      rw [hsleepers] at hstep
      dsimp only at hstep
      split_ifs at hstep with hdue
      obtain rfl := Option.some.inj hstep
      rw [Worker.resume_toWaits]
      have heffect := @Effect.fired F _ b w now first rest hsleepers hdue
      rw [hsleepers] at heffect
      exact heffect
  | submit refused =>
    rw [workerStep] at hstep
    split_ifs at hstep with hguard
    obtain rfl := Option.some.inj hstep
    rw [Worker.drains_toWaits]
    exact .submitted refused hguard.2
  | event fd write =>
    rw [workerStep] at hstep
    split_ifs at hstep
    obtain ⟨⟨f, io⟩, hevent, rfl⟩ := Option.map_eq_some_iff.mp hstep
    rw [Worker.drain_toWaits]
    exact .delivered fd write f io hevent

end Effects

end FiberIo
end Beans
