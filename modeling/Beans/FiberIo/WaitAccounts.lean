import Beans.FiberIo.WaitTimers

/-!
# The counter and the registrations

The counter of the waiters is right in a run in which a cancel is seen only by a fiber that
is still armed: one that is seen after the delivery counts the wait down again.  Armed
fibers stay registered in a run in which no arm takes the registration of another fiber
over, and then readiness wakes them.

**Input.**  Every run of one worker, over epoll or kqueue: fibers that sleep, wait with and
without a deadline, are cancelled and are woken, while the kernel delivers what it likes.

**Results.**
* `netpoller_accounts`: the counter is the number of armed fibers.
* `netpoller_miscounts`: a delivery followed by a cancel makes it forget another fiber.
* `waiters_stayRegistered`: an armed fiber can be woken by its descriptor.
* `waiters_displaced`: a second wait on the descriptor takes the registration over.
-/

namespace Beans
namespace FiberIo

open Function Poller StepSystem

variable {F : Type*} [DecidableEq F]

variable {b : Netpoll} {w w' : Worker F} {s : Waits F} {a : WorkerAction F} {f g : F}

/-- The counter is the number of armed fibers. -/
def Counted (p : Poller F) : Prop :=
  {f | p.ioArmed f = true}.Finite ∧ p.ioWaiters = ({f | p.ioArmed f = true}.ncard : ℤ)

/-- A cancel in `beans_fiber_wait_io` is seen only while the fiber is armed. -/
def CancelAllowed : WorkerAction F → Worker F → Prop
  | .dispatch f, w => fiberCancelObservable (w.fibers f) = true →
      ∀ deadline, w.calls f = .waitIo deadline → w.io.ioArmed f = true
  | _, _ => True

section Counts

variable {p p' : Poller F}

theorem counted_armed (h : Counted p) (hf : p.ioArmed f = false)
    (harmed : p'.ioArmed = update p.ioArmed f true)
    (hwaiters : p'.ioWaiters = p.ioWaiters + 1) :
    Counted p' := by
  have hset : {g | p'.ioArmed g = true} = insert f {g | p.ioArmed g = true} := by
    ext g
    rw [Set.mem_insert_iff, Set.mem_ofPred_eq, Set.mem_ofPred_eq, harmed, update_apply]
    split_ifs with hgf
    · simp [hgf]
    · simp [hgf]
  rw [Counted, hset]
  refine ⟨h.1.insert f, ?_⟩
  rw [Set.ncard_insert_of_notMem (by simp [hf]) h.1, hwaiters, h.2]
  push_cast
  rfl

theorem counted_unarmed (h : Counted p) (hf : p.ioArmed f = true)
    (harmed : p'.ioArmed = update p.ioArmed f false)
    (hwaiters : p'.ioWaiters = p.ioWaiters - 1) :
    Counted p' := by
  have hset : {g | p'.ioArmed g = true} = {g | p.ioArmed g = true} \ {f} := by
    ext g
    rw [Set.mem_sdiff, Set.mem_singleton_iff, Set.mem_ofPred_eq, Set.mem_ofPred_eq, harmed,
      update_apply]
    split_ifs with hgf
    · simp [hgf]
    · simp [hgf]
  rw [Counted, hset]
  refine ⟨h.1.subset Set.sdiff_subset, ?_⟩
  have hcard := Set.ncard_sdiff_singleton_add_one (show f ∈ {g | p.ioArmed g = true} from hf) h.1
  rw [hwaiters, h.2]
  omega

omit [DecidableEq F] in
theorem counted_same (h : Counted p) (harmed : p'.ioArmed = p.ioArmed)
    (hwaiters : p'.ioWaiters = p.ioWaiters) :
    Counted p' := by
  rw [Counted, harmed, hwaiters]
  exact h

theorem counted_drain (h : Counted p) (hf : p.wakes b f = true → p.ioArmed f = true) :
    Counted (p.drain b f) := by
  rw [Poller.drain]
  split_ifs with hwakes
  · exact counted_unarmed h (hf hwakes) rfl rfl
  · exact h

theorem counted_drains (h : Counted p) (fs : List F) :
    Counted (fs.foldl (Poller.drain .kqueue) p) := by
  induction fs generalizing p with
  | nil => exact h
  | cons f fs ih => exact ih (counted_drain h id)

theorem Counted.effect (h : Counted w.io) (hlinked : Linked b w.toWaits) (halive : Alive w)
    (hallowed : CancelAllowed a w) (heffect : Effect b w a s) :
    Counted s.io := by
  cases heffect with
  | quiet | slept | overslept | cancelledSleep | answered | fired => exact h
  | spawned f hunused =>
    have hunarmed : w.io.ioArmed f = false := by
      refine hlinked.unarmed fun deadline hcall => ?_
      exact (halive.live f (by rw [hcall]; simp)).1 hunused
    refine counted_same h ?_ rfl
    exact update_eq_self_iff.mpr hunarmed.symm
  | waited f fd write timeoutMs now io hf hbegin =>
    have hunarmed : w.io.ioArmed f = false := hlinked.unarmed (by simp [hf])
    obtain ⟨harmed, -, hwaiters⟩ := beginWait_fields hbegin
    rw [hunarmed] at hwaiters
    exact counted_armed h hunarmed harmed hwaiters
  | gaveUp a f deadline hf hready =>
    have harmed : w.io.ioArmed f = true := by
      rcases hready with hsignalled | ⟨rfl, hobservable⟩
      · refine (hlinked.waits f deadline hf).resolve_right ?_
        rw [hsignalled]
        simp
      · exact hallowed hobservable deadline hf
    have hsame := unregister_same b w.io f
    refine counted_unarmed h harmed ?_ ?_
    · rw [Poller.disarm, hsame.ioArmed]
    · rw [Poller.disarm, hsame.ioWaiters]
  | submitted refused hb =>
    subst hb
    exact counted_drains (p := w.io.submit refused) h _
  | delivered fd write f io hevent =>
    have hsame := event_same hevent
    refine counted_drain (counted_same h hsame.ioArmed hsame.ioWaiters) fun _ => ?_
    rw [hsame.ioArmed]
    exact (sound_event hlinked.sound hevent).2.2.1

end Counts

/-- With epoll no other armed fiber waits for the descriptor that a wait begins with.  With
kqueue no two fibers wait for the same thing when the queue is submitted, but for those the
kernel refuses.  A cancel that is seen after the delivery finds no other fiber's
registration where the wait had its own. -/
def RegisteredAllowed (b : Netpoll) : WorkerAction F → Worker F → Prop
  | .waitIo _ fd _ _ _ false, w =>
    b = .epoll → ∀ g, w.io.ioArmed g = true → w.io.ioFd g ≠ fd
  | .submit refused, w =>
    ∀ f g, w.io.ioArmed f = true → w.io.ioArmed g = true → f ∉ w.io.refusals refused →
      g ∉ w.io.refusals refused → w.io.ioFd f = w.io.ioFd g →
      w.io.ioWrite f = w.io.ioWrite g → f = g
  | .dispatch f, w => fiberCancelObservable (w.fibers f) = true →
      ∀ deadline, w.calls f = .waitIo deadline → w.io.ioArmed f = false → Alone b w.io f
  | _, _ => True

section Registrations

variable {p p' : Poller F}

theorem drain_unarmed (b : Netpoll) (p : Poller F) (f : F) : (p.drain b f).ioArmed f = false := by
  rw [Poller.drain]
  split_ifs with hwakes
  · exact update_self ..
  · cases b with
    | epoll => exact absurd rfl hwakes
    | kqueue => exact Bool.eq_false_of_not_eq_true hwakes

theorem armed_of_drain (hg : (p.drain b f).ioArmed g = true) :
    p.ioArmed g = true := by
  rw [Poller.drain] at hg
  split_ifs at hg
  · dsimp only [Poller.deliver] at hg
    rw [update_apply] at hg
    split_ifs at hg
    exact hg
  · exact hg

theorem registered_drains {fs : List F}
    (h : ∀ g, g ∉ fs → p.ioArmed g = true → Registered b p g) :
    AllRegistered b (fs.foldl (Poller.drain b) p) := by
  induction fs generalizing p with
  | nil => exact fun g hg => h g List.not_mem_nil hg
  | cons f fs ih =>
    refine ih fun g hg harmed => ?_
    have hgf : g ≠ f := by
      rintro rfl
      rw [drain_unarmed] at harmed
      cases harmed
    exact (h g (by simp [hg, hgf]) (armed_of_drain harmed)).same (drain_sameTables b p f)

theorem AllRegistered.effect (h : AllRegistered b w.io) (hlinked : Linked b w.toWaits)
    (halive : Alive w) (hallowed : RegisteredAllowed b a w) (heffect : Effect b w a s) :
    AllRegistered b s.io := by
  cases heffect with
  | quiet | slept | overslept | cancelledSleep | answered | fired => exact h
  | spawned f hunused =>
    have hunarmed : w.io.ioArmed f = false := by
      refine hlinked.unarmed fun deadline hcall => ?_
      exact (halive.live f (by rw [hcall]; simp)).1 hunused
    exact registered_reset h hunarmed
  | waited f fd write timeoutMs now io hf hbegin => exact registered_beginWait h hallowed hbegin
  | gaveUp a f deadline hf hready =>
    refine registered_disarm hlinked.sound h ?_
    by_cases harmed : w.io.ioArmed f = true
    · exact alone_of_armed hlinked.sound h harmed
    have hsignalled := (hlinked.waits f deadline hf).resolve_left harmed
    rcases hready with hnot | ⟨rfl, hobservable⟩
    · exact absurd hsignalled (by rw [hnot]; simp)
    · exact hallowed hobservable deadline hf (Bool.eq_false_of_not_eq_true harmed)
  | submitted refused hb =>
    subst hb
    refine registered_drains fun g hg harmed => .inl ?_
    exact inKernel_submit hlinked.sound h hallowed harmed hg
  | delivered fd write f io hevent =>
    change AllRegistered b ([f].foldl (Poller.drain b) io)
    refine registered_drains fun g hg harmed => ?_
    exact registered_event hlinked.sound h hevent g (by simpa using hg) harmed

end Registrations

theorem reachable_counted {allowed : WorkerAction F → Worker F → Prop}
    (h : Reachable (workerStep b) workerInit allowed w)
    (hallowed : ∀ a w, allowed a w → CancelAllowed a w) :
    Counted w.io := by
  refine reachable_invariant (P := fun w => Counted w.io) h
    (by simp [Counted, Worker.initial, Poller.initial]) ?_
  intro w a w' hw hlinked halive hok hstep
  exact hw.effect hlinked halive (hallowed a w hok) (workerStep_effect hstep)

theorem reachable_registered (h : Reachable (workerStep b) workerInit (RegisteredAllowed b) w) :
    AllRegistered b w.io := by
  refine reachable_invariant (P := fun w => AllRegistered b w.io) h (fun f hf => ?_) ?_
  · cases hf
  · intro w a w' hw hlinked halive hok hstep
    exact AllRegistered.effect hw hlinked halive hok (workerStep_effect hstep)

/-- The steps of a run in which the counter stays right. -/
def AccountsAllowed (a : WorkerAction F) (w : Worker F) : Prop :=
  TimersAllowed a w ∧ CancelAllowed a w

/-- What two fibers that never sleep must check: no descriptor is waited for twice, and
a fiber that runs on cancelled is still armed. -/
def waitsApart : WorkerAction Bool → Worker Bool → Bool
  | .sleep _ _ _, _ | .submit _, _ => false
  | .turn f _, w => match w.calls f with
      | .sleep _ _ => false
      | _ => true
  | .waitIo _ fd _ _ _ _, w => [true, false].all fun g => !w.io.ioArmed g || w.io.ioFd g != fd
  | .dispatch f, w => !fiberCancelObservable (w.fibers f) || w.io.ioArmed f
  | _, _ => true

theorem allowed_of_waitsApart (a : WorkerAction Bool) (w : Worker Bool)
    (h : waitsApart a w = true) : AccountsAllowed a w ∧ RegisteredAllowed .epoll a w := by
  cases a with
  | turn f now =>
    refine ⟨⟨fun begun nanos hcall => ?_, trivial⟩, trivial⟩
    simp [waitsApart, hcall] at h
  | waitIo f fd write timeoutMs now refused =>
    refine ⟨⟨trivial, trivial⟩, ?_⟩
    cases refused with
    | true => trivial
    | false =>
      intro _ g hg
      simp only [waitsApart, List.all_eq_true] at h
      simpa [hg] using h g (by cases g <;> simp)
  | dispatch f =>
    simp only [waitsApart, Bool.or_eq_true, Bool.not_eq_true'] at h
    refine ⟨⟨trivial, fun hcancel deadline _ => ?_⟩, fun hcancel deadline _ hunarmed => ?_⟩
    · exact h.resolve_left (by simp [hcancel])
    · rw [h.resolve_left (by simp [hcancel])] at hunarmed
      cases hunarmed
  | submit refused => cases h
  | _ => exact ⟨⟨trivial, trivial⟩, trivial⟩

/-- Two fibers wait for two descriptors, one of them with a timeout.  The first is woken
by its descriptor and waits again; the second by its timer, and it is cancelled while it
waits once more. -/
def twoWaits : List (WorkerAction Bool) :=
  [.spawn true, .spawn false, .dispatch true, .waitIo true 3 false (-1) 0 false, .turn true 0,
    .dispatch false, .waitIo false 4 true 5 0 false, .turn false 0, .event 3 false,
    .dispatch true, .turn true 1, .waitIo true 3 false (-1) 1 false, .turn true 1,
    .fire 5000000, .dispatch false, .turn false 5000000,
    .waitIo false 4 true (-1) 5000000 false, .turn false 5000000, .cancel false false,
    .dispatch false]

/-- The first fiber is the one that still waits. -/
theorem twoWaits_reached :
    ∃ w : Worker Bool,
      Reachable (workerStep .epoll) workerInit
        (fun a w => AccountsAllowed a w ∧ RegisteredAllowed .epoll a w) w ∧
      run (workerStep .epoll) twoWaits Worker.initial = some w ∧
      w.io.ioWaiters = 1 ∧ w.io.ioArmed true = true ∧ w.calls false = .outside := by
  have hrun : ∃ w : Worker Bool,
      run (checkedStep (workerStep .epoll) waitsApart) twoWaits Worker.initial = some w ∧
      run (workerStep .epoll) twoWaits Worker.initial = some w ∧
      w.io.ioWaiters = 1 ∧ w.io.ioArmed true = true ∧ w.calls false = .outside :=
    ⟨_, rfl, rfl, rfl, rfl, rfl⟩
  obtain ⟨w, hchecked, hw, hwaits⟩ := hrun
  exact ⟨w, Reachable.runChecked allowed_of_waitsApart twoWaits (.start rfl) hchecked, hw, hwaits⟩

/-- The counter of the waiters is the number of armed fibers, nothing of a wait outlives its
call, the worker waits on the poller while a fiber is armed, and it reports a deadlock only
when none is. -/
structure AccountsExact (b : Netpoll) (w : Worker F) : Prop where
  counts : {f | w.io.ioArmed f = true}.Finite ∧
    w.io.ioWaiters = ({f | w.io.ioArmed f = true}.ncard : ℤ)
  nonneg : 0 ≤ w.io.ioWaiters
  /-- Outside of `beans_fiber_wait_io` nothing of it is left. -/
  left : ∀ f, (∀ deadline, w.calls f ≠ .waitIo deadline) →
    w.io.ioArmed f = false ∧ Unnamed b w.io f
  timers : ∀ e ∈ w.sleepers, (w.calls e.fiber).timer = some e.deadline
  waits : ∀ f mayWake posted, w.io.ioArmed f = true →
    w.idleWait mayWake posted = .poller
  reports : ∀ mayWake posted, w.idleWait mayWake posted = .deadlockReport →
    ∀ f, w.io.ioArmed f = false

omit [DecidableEq F] in
theorem Counted.pos {p : Poller F} (h : Counted p) (hf : p.ioArmed f = true) :
    p.ioWaiters > 0 := by
  have hpos := (Set.ncard_pos h.1).mpr ⟨f, hf⟩
  rw [h.2]
  omega

/-- **The accounts of the waits are exact** along every run in which a cancel reaches only fibers
that are still armed and a sleep ends by the clock only after its timer fired. -/
theorem netpoller_accounts
    (h : Reachable (workerStep b) workerInit AccountsAllowed w) :
    AccountsExact b w := by
  have hlinked := (reachable_linked h).1
  have hcounted := reachable_counted h fun _ _ => And.right
  have hwaits : ∀ f mayWake posted, w.io.ioArmed f = true →
      w.idleWait mayWake posted = .poller := by
    intro f mayWake posted hf
    rw [Worker.idleWait, if_pos (hcounted.pos hf)]
  refine ⟨hcounted, ?_, fun f hf => ?_, (reachable_timed h fun _ _ => And.left).inside, hwaits,
    fun mayWake posted hreport f => ?_⟩
  · rw [hcounted.2]
    exact Int.natCast_nonneg _
  · have hunarmed := hlinked.unarmed hf
    exact ⟨hunarmed, unnamed_of_unarmed hlinked.sound hunarmed⟩
  · by_contra harmed
    rw [hwaits f mayWake posted (Bool.eq_true_of_not_eq_false harmed)] at hreport
    cases hreport

/-- The accounts after `twoWaits`: the reader waits and the writer, cancelled, is outside. -/
theorem netpoller_accounts_twoWaits :
    ∃ w : Worker Bool,
      run (workerStep .epoll) twoWaits Worker.initial = some w ∧
      w.io.ioWaiters = 1 ∧ w.calls false = .outside ∧ AccountsExact .epoll w := by
  obtain ⟨w, hreach, hw, hwaiters, -, hcall⟩ := twoWaits_reached
  exact ⟨w, hw, hwaiters, hcall, netpoller_accounts (hreach.mono fun _ _ => And.left)⟩

/-- Two fibers park, one until its descriptor is readable and the other one likewise. -/
def twoReaders : List (WorkerAction Bool) :=
  [.spawn true, .spawn false, .dispatch true, .waitIo true 3 false (-1) 0 false, .turn true 0,
    .dispatch false, .waitIo false 4 false (-1) 0 false, .turn false 0]

/-- With epoll the kernel keeps a registration that fired, spent, after its fiber returned.
And the readiness of one fiber is delivered, it is cancelled, and the counter forgets the
other one: the idle loop reports a deadlock. -/
theorem netpoller_miscounts :
    (∃ w : Worker Bool, Reachable (workerStep .epoll) workerInit anyStep w ∧
      w.calls true = .outside ∧ w.io.epoll 3 = some ⟨true, false, false⟩) ∧
    ∃ w : Worker Bool, Reachable (workerStep .epoll) workerInit anyStep w ∧
      w.io.ioArmed false = true ∧ w.io.ioWaiters = 0 ∧
      w.idleWait false false = .deadlockReport := by
  have hspent : ∃ w,
      run (workerStep .epoll) (twoReaders ++ [.event 3 false, .dispatch true, .turn true 0])
        Worker.initial = some w ∧
      w.calls true = .outside ∧ w.io.epoll 3 = some ⟨true, false, false⟩ := ⟨_, rfl, rfl, rfl⟩
  have hcancelled : ∃ w,
      run (workerStep .epoll)
        (twoReaders ++ [.event 3 false, .cancel true false, .dispatch true])
        Worker.initial = some w ∧
      w.io.ioArmed false = true ∧ w.io.ioWaiters = 0 ∧
      w.idleWait false false = .deadlockReport := ⟨_, rfl, rfl, rfl, rfl⟩
  obtain ⟨w, hw, hstays⟩ := hspent
  obtain ⟨w', hw', hwrong⟩ := hcancelled
  exact ⟨⟨w, Reachable.run _ (.start rfl) hw, hstays⟩,
    ⟨w', Reachable.run _ (.start rfl) hw', hwrong⟩⟩

/-- Every armed fiber has its registration, and readiness on its descriptor resumes it. -/
structure Watched (b : Netpoll) (w : Worker F) : Prop where
  registered : AllRegistered b w.io
  /-- After a wait of the poller nothing is queued. -/
  submitted : ∀ refused w', RegisteredAllowed b (.submit refused) w →
    workerStep b (.submit refused) w = some w' →
    ∀ f, w'.io.ioArmed f = true → InKernel b w'.io f
  wakes : ∀ f, w.io.ioArmed f = true → InKernel b w.io f → w.current = none →
    ∃ w', workerStep b (.event (w.io.ioFd f) (w.io.ioWrite f)) w = some w' ∧
      w'.io.ioSignalled f = true ∧ (w'.fibers f).state = .ready

theorem drains_sameTables (b : Netpoll) (p : Poller F) (fs : List F) :
    SameTables p (fs.foldl (Poller.drain b) p) := by
  induction fs generalizing p with
  | nil => exact ⟨rfl, rfl, rfl, rfl, rfl, rfl⟩
  | cons f fs ih =>
    have hfirst := drain_sameTables b p f
    have hrest := ih (p.drain b f)
    exact ⟨hrest.epoll.trans hfirst.epoll, hrest.kqueue.trans hfirst.kqueue,
      hrest.pollQueue.trans hfirst.pollQueue, hrest.ioQueued.trans hfirst.ioQueued,
      hrest.ioFd.trans hfirst.ioFd, hrest.ioWrite.trans hfirst.ioWrite⟩

theorem armed_of_drains {p : Poller F} {fs : List F}
    (hg : (fs.foldl (Poller.drain b) p).ioArmed g = true) :
    g ∉ fs ∧ p.ioArmed g = true := by
  induction fs generalizing p with
  | nil => exact ⟨List.not_mem_nil, hg⟩
  | cons f fs ih =>
    obtain ⟨hnot, harmed⟩ := ih hg
    refine ⟨?_, armed_of_drain harmed⟩
    rintro (_ | ⟨_, hmem⟩)
    · rw [drain_unarmed] at harmed
      cases harmed
    · exact hnot hmem

/-- Delivered readiness makes a parked fiber ready. -/
theorem drain_ready (hwakes : w.io.wakes b f = true)
    (hstate : (w.fibers f).state = .parked ∨ (w.fibers f).state = .ready) :
    (w.drain b f).io.ioSignalled f = true ∧ ((w.drain b f).fibers f).state = .ready := by
  refine ⟨?_, ?_⟩
  · have hio : (w.drain b f).io = w.io.drain b f := congrArg Waits.io (Worker.drain_toWaits w f b)
    rw [hio, Poller.drain, if_pos hwakes]
    exact update_self ..
  · rw [Worker.drain, if_pos hwakes, Worker.resume]
    dsimp only
    rcases hstate with hparked | hready
    · rw [hparked]
      dsimp only
      rw [state_setFiber, if_pos rfl]
    · rw [hready]
      dsimp only
      rw [state_setFiber, if_pos rfl]

omit [DecidableEq F] in
/-- The state of a fiber that waits while none runs. -/
theorem Alive.waiting (h : Alive w) (hcurrent : w.current = none) (hin : w.calls f ≠ .outside) :
    (w.fibers f).state = .parked ∨ (w.fibers f).state = .ready := by
  have hlive := h.live f hin
  have hstill : (w.fibers f).state ≠ .running := by
    intro hrunning
    rw [(h.running f).mpr hrunning] at hcurrent
    cases hcurrent
  cases hstate : (w.fibers f).state with
  | unused => exact absurd hstate hlive.1
  | done => exact absurd hstate hlive.2
  | running => exact absurd hstate hstill
  | ready => exact .inr rfl
  | parked => exact .inl rfl

/-- **An armed fiber stays registered** along every run in which no wait takes over the
registration of another fiber. -/
theorem waiters_stayRegistered
    (h : Reachable (workerStep b) workerInit (RegisteredAllowed b) w) :
    Watched b w := by
  have hregistered := reachable_registered h
  obtain ⟨hlinked, halive⟩ := reachable_linked h
  refine ⟨hregistered, fun refused w' hallowed hstep f hf => ?_,
    fun f hf hker hcurrent => ?_⟩
  · rw [workerStep] at hstep
    split_ifs at hstep with hguard
    obtain rfl := hguard.2
    obtain rfl := Option.some.inj hstep
    rw [Worker.drains_toWaits] at hf ⊢
    obtain ⟨hnot, harmed⟩ := armed_of_drains hf
    have hsubmit := inKernel_submit hlinked.sound hregistered hallowed harmed hnot
    exact hsubmit.same (drains_sameTables ..)
  · obtain ⟨io, hevent⟩ := event_of_inKernel hker
    have hwakes : io.wakes b f = true := by
      cases b with
      | epoll => rfl
      | kqueue => exact (congrFun (event_same hevent).ioArmed f).trans hf
    obtain ⟨deadline, hcall⟩ := hlinked.inside f hf
    have hstate := halive.waiting hcurrent (f := f) (by rw [hcall]; simp)
    refine ⟨({ w with io := io } : Worker F).drain b f, ?_, drain_ready hwakes hstate⟩
    rw [workerStep, if_pos hcurrent, hevent]
    rfl

/-- After `twoWaits` the reader is still armed, and watched. -/
theorem waiters_stayRegistered_twoWaits :
    ∃ w : Worker Bool,
      run (workerStep .epoll) twoWaits Worker.initial = some w ∧
      w.io.ioArmed true = true ∧ Watched .epoll w := by
  obtain ⟨w, hreach, hw, -, harmed, -⟩ := twoWaits_reached
  exact ⟨w, hw, harmed, waiters_stayRegistered (hreach.mono fun _ _ => And.right)⟩

/-- One fiber waits until its descriptor is readable and another one until the same
descriptor is writable: the registration of the first is gone. -/
theorem waiters_displaced :
    ∃ w : Worker Bool, Reachable (workerStep .epoll) workerInit anyStep w ∧
      w.io.ioArmed true = true ∧ w.io.ioFd true = 3 ∧ w.io.ioWrite true = false ∧
      w.io.epoll 3 = some ⟨false, true, true⟩ ∧ ¬AllRegistered .epoll w.io := by
  have hrun : ∃ w,
      run (workerStep .epoll)
        ([.spawn true, .spawn false, .dispatch true, .waitIo true 3 false (-1) 0 false,
          .turn true 0, .dispatch false, .waitIo false 3 true (-1) 0 false, .turn false 0] :
          List (WorkerAction Bool))
        Worker.initial = some w ∧
      w.io.ioArmed true = true ∧ w.io.ioFd true = 3 ∧ w.io.ioWrite true = false ∧
      w.io.epoll 3 = some ⟨false, true, true⟩ := ⟨_, rfl, rfl, rfl, rfl, rfl⟩
  obtain ⟨w, hw, harmed, hfd, hwrite, hother⟩ := hrun
  refine ⟨w, Reachable.run _ (.start rfl) hw, harmed, hfd, hwrite, hother, fun hall => ?_⟩
  have hker := (hall true harmed).resolve_right (by simp)
  rw [InKernel, hfd, hother] at hker
  cases hker

end FiberIo
end Beans
