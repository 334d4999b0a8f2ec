import Beans.FiberIo.WaitSteps

/-!
# Timers and sleeps

The entry of a call is pushed before its first look at the clock and goes with most of its
exits, but a sleep that ends by the clock leaves it to the firing loop.  In a run in which
such a sleep finds its entry gone, every entry belongs to the call its fiber is in, and no
sleep ends before its time.

**Results.**
* `timers_neverOutlive`: the entries and the ends of the sleeps in such a run.
* `timers_outlive`: a deadline that is over at the first look leaves its entry behind.
-/

namespace Beans
namespace FiberIo

open Function Poller StepSystem

variable {F : Type*} [DecidableEq F]

variable {b : Netpoll} {w w' : Worker F} {s : Waits F} {a : WorkerAction F} {f g : F}

/-- Every entry is the one of the call that its fiber is in. -/
structure Timed (s : Waits F) : Prop where
  once : OneEach s.sleepers
  inside : ∀ e ∈ s.sleepers, (s.calls e.fiber).timer = some e.deadline

/-- A sleep ends by the clock only after its timer fired. -/
def TimersAllowed : WorkerAction F → Worker F → Prop
  | .turn f now, w => ∀ begun nanos, w.calls f = .sleep begun nanos →
      Worker.sleepOver begun nanos now → ∀ e ∈ w.sleepers, e.fiber ≠ f
  | _, _ => True

section Timers

omit [DecidableEq F] in
theorem Timed.no_entry (h : Timed s) (hf : (s.calls f).timer = none) :
    ∀ e ∈ s.sleepers, e.fiber ≠ f := by
  rintro e he rfl
  rw [h.inside e he] at hf
  cases hf

/-- A fiber without an entry goes anywhere. -/
theorem Timed.setCall (h : Timed s) (hf : ∀ e ∈ s.sleepers, e.fiber ≠ f) (c : Call)
    (io : Poller F) :
    Timed ⟨update s.calls f c, io, s.sleepers⟩ := by
  refine ⟨h.once, fun e he => ?_⟩
  dsimp only
  rw [update_of_ne (hf e he)]
  exact h.inside e he

theorem Timed.push {c : Call} {deadline : ℤ} (h : Timed s) (hf : ∀ e ∈ s.sleepers, e.fiber ≠ f)
    (hc : c.timer = some deadline) (io : Poller F) :
    Timed ⟨update s.calls f c, io, sleeperPush s.sleepers ⟨deadline, f⟩⟩ := by
  have hperm := sleeperPush_perm s.sleepers ⟨deadline, f⟩
  refine ⟨OneEach.perm ?_ hperm, fun e he => ?_⟩
  · refine List.nodup_cons.mpr ⟨fun hmem => ?_, h.once⟩
    obtain ⟨e, he, heq⟩ := List.mem_map.mp hmem
    exact hf e he heq
  · rcases List.mem_cons.mp (hperm.mem_iff.mp he) with rfl | he
    · dsimp only
      rw [update_self, hc]
    · exact (h.setCall hf c io).inside e he

theorem Timed.remove (h : Timed s) (c : Call) (io : Poller F) :
    Timed ⟨update s.calls f c, io, sleeperRemove s.sleepers f⟩ := by
  refine ⟨h.once.remove f, fun e he => ?_⟩
  obtain ⟨hmem, hne⟩ := (mem_sleeperRemove h.once e).mp he
  dsimp only
  rw [update_of_ne hne]
  exact h.inside e hmem

theorem Timed.pushWait (h : Timed s) (hf : s.calls f = .outside) (deadline : ℤ)
    (io : Poller F) :
    Timed ⟨update s.calls f (.waitIo deadline), io, timerPush s.sleepers f deadline⟩ := by
  have hfree : ∀ e ∈ s.sleepers, e.fiber ≠ f := h.no_entry (by rw [hf]; rfl)
  rw [timerPush]
  split_ifs with hdeadline
  · exact h.push (c := .waitIo deadline) hfree (if_pos hdeadline) io
  · exact h.setCall hfree _ io

theorem Timed.dropWait {deadline : ℤ} (h : Timed s) (hf : s.calls f = .waitIo deadline)
    (io : Poller F) :
    Timed ⟨update s.calls f .outside, io, timerDrop s.sleepers f deadline⟩ := by
  rw [timerDrop]
  split_ifs with hdeadline
  · exact h.remove _ io
  · exact h.setCall (h.no_entry (by rw [hf]; exact if_neg hdeadline)) _ io

theorem Timed.effect (h : Timed w.toWaits) (hallowed : TimersAllowed a w)
    (heffect : Effect b w a s) :
    Timed s := by
  cases heffect with
  | quiet | spawned | submitted | delivered => exact ⟨h.once, h.inside⟩
  | slept f nanos now hf => exact h.push (h.no_entry (by rw [hf]; rfl)) rfl _
  | overslept f begun nanos now hf hover =>
    exact h.setCall (hallowed begun nanos hf hover) _ _
  | cancelledSleep a f begun nanos => exact h.remove _ _
  | waited f fd write timeoutMs now io hf => exact h.pushWait hf _ _
  | answered f deadline now hf => exact h.dropWait hf _
  | gaveUp a f deadline hf => exact h.dropWait hf _
  | fired now first rest hsleepers =>
    have hperm : (sleeperPopMin w.sleepers).Perm rest := by
      rw [hsleepers]
      exact sleeperPopMin_perm
    have honce := h.once
    rw [hsleepers] at honce
    refine ⟨OneEach.perm (List.nodup_cons.mp honce).2 hperm, fun e he => ?_⟩
    refine h.inside e ?_
    rw [hsleepers]
    exact List.mem_cons_of_mem first (hperm.mem_iff.mp he)

end Timers

/-- The deadline of a sleep did not overflow. -/
def Exact (w : Worker F) (f : F) : Prop :=
  ∀ begun nanos, w.calls f = .sleep begun nanos → wrap (begun + nanos) = begun + nanos

/-- A deadline may have overflowed only as long as the fiber did not park. -/
structure Slept (w : Worker F) : Prop where
  clock : 0 ≤ w.clock
  counts : ∀ f begun nanos, w.calls f = .sleep begun nanos →
    0 ≤ begun ∧ begun < 2 ^ 63 ∧ 0 < nanos ∧ nanos < 2 ^ 63
  exact : ∀ f, Exact w f ∨ (w.current = some f ∧ ∃ e ∈ w.sleepers, e.fiber = f)

section Sleeps

theorem wrap_of_after {begun nanos now : ℤ} (hbegun : 0 ≤ begun ∧ begun < 2 ^ 63)
    (hnanos : 0 < nanos ∧ nanos < 2 ^ 63) (hnow : 0 ≤ now)
    (hafter : now < wrap (begun + nanos)) :
    wrap (begun + nanos) = begun + nanos := by
  rw [wrap] at hafter ⊢
  by_cases hfits : begun + nanos < 2 ^ 63
  · exact Int.bmod_eq_of_le (by omega) (by omega)
  · exfalso
    have hwrapped : (begun + nanos).bmod (2 ^ 64) = begun + nanos - 2 ^ 64 := by
      rw [← Int.sub_bmod_right]
      exact Int.bmod_eq_of_le (by omega) (by omega)
    rw [hwrapped] at hafter
    omega

omit [DecidableEq F] in
theorem Slept.exact_of_ne (h : Slept w) (hg : w.current ≠ some g) :
    Exact w g :=
  (h.exact g).resolve_right fun hcurrent => hg hcurrent.1

omit [DecidableEq F] in
/-- Every deadline is exact when no fiber runs, and when the one that runs is outside. -/
theorem Slept.all_exact (h : Slept w)
    (hcurrent : ∀ f, w.current = some f → w.calls f = .outside) :
    ∀ g, Exact w g := by
  intro g begun nanos hcall
  refine h.exact_of_ne (fun hg => ?_) begun nanos hcall
  rw [hcurrent g hg] at hcall
  cases hcall

/-- A step that begins no sleep leaves exact deadlines exact. -/
theorem Exact.effect (h : Exact w g) (hstep : workerStep b a w = some w')
    (ha : ∀ nanos now, a ≠ .sleep g nanos now) :
    Exact w' g := by
  intro begun nanos hcall
  rcases (workerStep_effect hstep).calls g with
    hsame | hout | ⟨n, now, heq, -⟩ | ⟨fd, write, timeoutMs, now, deadline, -, hwait⟩
  · exact h begun nanos (hsame ▸ hcall)
  · rw [hout] at hcall
    cases hcall
  · exact absurd heq (ha n now)
  · rw [hwait] at hcall
    cases hcall

/-- A deadline that a turn of the loop was before is exact. -/
theorem Slept.exact_turn {now : ℤ} (h : Slept w)
    (hstep : workerStep b (.turn f now) w = some w') :
    Exact w' f := by
  intro begun nanos hcall
  have hguard := hstep
  rw [workerStep] at hguard
  split_ifs at hguard with hreading
  rcases (workerStep_effect hstep).calls f with
    hsame | hout | ⟨n, now', heq, -⟩ | ⟨fd, write, timeoutMs, now', deadline, heq, -⟩
  · have hbefore : w.calls f = .sleep begun nanos := hsame ▸ hcall
    obtain ⟨hbegun, hbegun', hnanos, hnanos'⟩ := h.counts f begun nanos hbefore
    refine wrap_of_after ⟨hbegun, hbegun'⟩ ⟨hnanos, hnanos'⟩
      (h.clock.trans hreading.2.2.1) ?_
    by_contra hover
    have hw' := Option.some.inj hguard
    rw [Worker.turn] at hw'
    dsimp only at hw'
    rw [hbefore] at hw'
    dsimp only at hw'
    rw [if_pos (show Worker.sleepOver begun nanos now from hover)] at hw'
    rw [← hw'] at hcall
    dsimp only [Worker.setCall] at hcall
    rw [update_self] at hcall
    cases hcall
  · rw [hout] at hcall
    cases hcall
  · cases heq
  · cases heq

/-- A sleep is exact or its entry was pushed. -/
theorem slept_sleep {nanos now : ℤ} (hcurrent : w.current = some f)
    (hout : w.calls f = .outside) :
    Exact (({ w with clock := now }).sleep f nanos now) f ∨
      ((({ w with clock := now }).sleep f nanos now).current = some f ∧
        ∃ e ∈ (({ w with clock := now }).sleep f nanos now).sleepers, e.fiber = f) := by
  rw [Worker.sleep]
  split_ifs
  · left
    intro begun nanos' hcall
    dsimp only at hcall
    rw [hout] at hcall
    cases hcall
  · refine .inr ⟨hcurrent, ⟨wrap (now + nanos), f⟩, ?_, rfl⟩
    exact (sleeperPush_perm w.sleepers _).mem_iff.mpr List.mem_cons_self

/-- After a step a deadline is exact, or its fiber runs and still has its entry. -/
theorem Slept.step_exact (h : Slept w) (hstep : workerStep b a w = some w') (g : F) :
    Exact w' g ∨ (w'.current = some g ∧ ∃ e ∈ w'.sleepers, e.fiber = g) := by
  -- A step of the scheduler, or one of a fiber outside: every deadline is exact before it.
  have hall : (∀ f, w.current = some f → w.calls f = .outside) →
      (∀ f nanos now, a ≠ .sleep f nanos now) → Exact w' g :=
    fun hcurrent ha => (h.all_exact hcurrent g).effect hstep (ha g)
  have hguarded : ∀ f, w.current = some f ∧ w.calls f = .outside →
      ∀ f', w.current = some f' → w.calls f' = .outside := by
    rintro f ⟨hf, hout⟩ f' hf'
    rw [hf] at hf'
    rw [← Option.some.inj hf', hout]
  have hidle : w.current = none → ∀ f', w.current = some f' → w.calls f' = .outside := by
    intro hnone f' hf'
    rw [hnone] at hf'
    cases hf'
  have hsame : w'.toWaits = w.toWaits → w'.current = w.current →
      Exact w' g ∨ (w'.current = some g ∧ ∃ e ∈ w'.sleepers, e.fiber = g) := by
    intro hwaits hcurrent
    have hcalls : w'.calls = w.calls := congrArg Waits.calls hwaits
    have hsleepers : w'.sleepers = w.sleepers := congrArg Waits.sleepers hwaits
    rw [Exact, hcalls, hcurrent, hsleepers]
    exact h.exact g
  have hguard := hstep
  cases a with
  | spawn f | retire f =>
    rw [workerStep] at hguard
    split_ifs at hguard
    obtain rfl := Option.some.inj hguard
    exact h.exact g
  | resume f late =>
    obtain rfl := Option.some.inj hguard
    exact hsame (Worker.resume_toWaits w f late) (kept_resume w f late).1
  | cancel f late =>
    obtain rfl := Option.some.inj hguard
    exact hsame (Worker.resume_toWaits _ f late) (kept_cancel w f late).1
  | finish f | attend f mask handler unwinding | pause f yields =>
    rw [workerStep] at hguard
    split_ifs at hguard with houtside
    exact .inl (hall (hguarded f houtside) (by simp))
  | sleep f nanos now =>
    rw [workerStep] at hguard
    split_ifs at hguard with hreading
    by_cases hfg : g = f
    · obtain rfl := Option.some.inj hguard
      rw [hfg]
      exact slept_sleep hreading.1 hreading.2.1
    · refine .inl (((h.all_exact (hguarded f ⟨hreading.1, hreading.2.1⟩)) g).effect hstep ?_)
      rintro n m heq
      cases heq
      exact hfg rfl
  | waitIo f fd write timeoutMs now refused =>
    rw [workerStep] at hguard
    split_ifs at hguard with hreading
    exact .inl (hall (hguarded f ⟨hreading.1, hreading.2.1⟩) (by simp))
  | turn f now =>
    rw [workerStep] at hguard
    split_ifs at hguard with hreading
    by_cases hfg : g = f
    · rw [hfg]
      exact .inl (h.exact_turn hstep)
    · refine .inl ((h.exact_of_ne fun hcurrent => hfg ?_).effect hstep (by simp))
      rw [hreading.1] at hcurrent
      exact (Option.some.inj hcurrent).symm
  | dispatch f | fire now | submit refused =>
    rw [workerStep] at hguard
    split_ifs at hguard with hnone
    exact .inl (hall (hidle hnone.1) (by simp))
  | event fd write =>
    rw [workerStep] at hguard
    split_ifs at hguard with hnone
    exact .inl (hall (hidle hnone) (by simp))

theorem Slept.step (h : Slept w) (hstep : workerStep b a w = some w') :
    Slept w' := by
  refine ⟨?_, fun g begun nanos hcall => ?_, h.step_exact hstep⟩
  · rcases workerStep_clock hstep with heq | hreading
    · rw [heq]
      exact h.clock
    · exact h.clock.trans hreading.1
  · rcases (workerStep_effect hstep).calls g with
      hsame | hout | ⟨n, now, rfl, hslept, hpos⟩ | ⟨fd, write, timeoutMs, now, deadline, -, hwait⟩
    · exact h.counts g begun nanos (hsame ▸ hcall)
    · rw [hout] at hcall
      cases hcall
    · rw [hslept] at hcall
      obtain ⟨rfl, rfl⟩ := Call.sleep.inj hcall
      rw [workerStep] at hstep
      split_ifs at hstep with hguard
      obtain ⟨-, -, hreading, hcount⟩ := hguard
      exact ⟨h.clock.trans hreading.1, hreading.2, hpos, hcount.2⟩
    · rw [hwait] at hcall
      cases hcall

end Sleeps

variable {allowed : WorkerAction F → Worker F → Prop}

theorem reachable_timed (h : Reachable (workerStep b) workerInit allowed w)
    (hallowed : ∀ a w, allowed a w → TimersAllowed a w) :
    Timed w.toWaits := by
  refine reachable_invariant (P := fun w => Timed w.toWaits) h
    ⟨List.nodup_nil, by simp [Worker.initial]⟩ ?_
  intro w a w' hw _ _ hok hstep
  exact hw.effect (hallowed a w hok) (workerStep_effect hstep)

theorem reachable_slept (h : Reachable (workerStep b) workerInit allowed w) : Slept w := by
  refine reachable_invariant h ⟨le_rfl, by simp [Worker.initial], fun f => .inl ?_⟩ ?_
  · intro begun nanos hcall
    cases hcall
  · exact fun w a w' hw _ _ _ hstep => hw.step hstep

/-- Entries belong to calls, and no sleep ends by the clock before its time. -/
structure TimersSafe (w : Worker F) : Prop where
  once : OneEach w.sleepers
  inside : ∀ e ∈ w.sleepers, (w.calls e.fiber).timer = some e.deadline
  live : ∀ e ∈ w.sleepers, Live (w.fibers e.fiber).state
  fires : ∀ now w', w.fireFirst now = some w' → ∃ e ∈ w.sleepers,
    e.deadline ≤ now ∧ w.calls e.fiber ≠ .outside ∧ Live (w.fibers e.fiber).state ∧
    w' = ({ w with sleepers := sleeperPopMin w.sleepers }).resume e.fiber false
  inTime : ∀ f begun nanos now, w.calls f = .sleep begun nanos → w.current = some f →
    Reading w.clock now → TimersAllowed (.turn f now) w →
    Worker.sleepOver begun nanos now → begun + nanos ≤ now

/-- **No timer outlives the call that pushed it**, and no sleep ends before its time, along every
run in which a sleep that ends by the clock finds its entry gone. -/
theorem timers_neverOutlive
    (h : Reachable (workerStep b) workerInit TimersAllowed w) :
    TimersSafe w := by
  have htimed := reachable_timed h fun _ _ => id
  have halive := (reachable_linked h).2
  have hin : ∀ e ∈ w.sleepers, w.calls e.fiber ≠ .outside := by
    intro e he hout
    have hinside := htimed.inside e he
    rw [hout] at hinside
    cases hinside
  have hlive : ∀ e ∈ w.sleepers, Live (w.fibers e.fiber).state :=
    fun e he => halive.live e.fiber (hin e he)
  refine ⟨htimed.once, htimed.inside, hlive, fun now w' hfire => ?_,
    fun f begun nanos now hcall _ _ hallowed hover => ?_⟩
  · rw [Worker.fireFirst] at hfire
    cases hsleepers : w.sleepers with
    | nil =>
      rw [hsleepers] at hfire
      cases hfire
    | cons first rest =>
      have hmem : first ∈ w.sleepers := by
        rw [hsleepers]
        exact List.mem_cons_self
      rw [hsleepers] at hfire
      dsimp only at hfire
      split_ifs at hfire with hdue
      obtain rfl := Option.some.inj hfire
      exact ⟨first, List.mem_cons_self, hdue, hin first hmem, hlive first hmem, rfl⟩
  · have hgone := hallowed begun nanos hcall hover
    have hexact : Exact w f := by
      rcases (reachable_slept h).exact f with hexact | ⟨_, e, he, hef⟩
      · exact hexact
      · exact absurd hef (hgone e he)
    rw [← hexact begun nanos hcall]
    exact not_lt.mp hover

/-- A fiber that slept its thousand nanoseconds is awake and leaves no entry. -/
theorem timers_neverOutlive_awake :
    ∃ w : Worker Bool,
      run (workerStep .epoll)
        [.spawn true, .dispatch true, .sleep true 1000 0, .turn true 0, .fire 1000,
          .dispatch true, .turn true 1000] Worker.initial = some w ∧
      w.calls true = .outside ∧ w.sleepers = [] ∧ TimersSafe w := by
  have hstart : Reachable (workerStep .epoll) workerInit TimersAllowed
      (Worker.initial : Worker Bool) := .start rfl
  have hspawned := hstart.step (WorkerAction.spawn true) trivial rfl
  have hrunning := hspawned.step (WorkerAction.dispatch true) trivial rfl
  have hsleeping := hrunning.step (WorkerAction.sleep true 1000 0) trivial rfl
  have hearly : ¬Worker.sleepOver 0 1000 0 := by decide
  have hparked := hsleeping.step (WorkerAction.turn true 0)
    (fun _ _ hcall hover => by cases hcall; exact absurd hover hearly) rfl
  have hfired := hparked.step (WorkerAction.fire 1000) trivial rfl
  have hawake := hfired.step (WorkerAction.dispatch true) trivial rfl
  have hreturned := hawake.step (WorkerAction.turn true 1000)
    (fun _ _ _ _ e he => by cases he) rfl
  exact ⟨_, rfl, rfl, rfl, timers_neverOutlive hreturned⟩

/-- The deadline passes before the first look at the clock, and the entry of the fiber stays
although it left the call.  The largest count overflows, and the sleep ends at once. -/
theorem timers_outlive :
    (∃ w : Worker Bool, Reachable (workerStep .epoll) workerInit anyStep w ∧
      w.calls true = .outside ∧ w.sleepers = [⟨1, true⟩] ∧
      (w.fibers true).state = .done) ∧
    ∃ w : Worker Bool, Reachable (workerStep .epoll) workerInit anyStep w ∧
      w.calls true = .sleep 1 (2 ^ 63 - 1) ∧ w.clock = 1 ∧
      ∃ w', workerStep .epoll (.turn true 1) w = some w' ∧ w'.calls true = .outside := by
  have hstale : ∃ w,
      run (workerStep .epoll)
        ([.spawn true, .dispatch true, .sleep true 1 0, .turn true 1, .finish true] :
          List (WorkerAction Bool))
        Worker.initial = some w ∧
      w.calls true = .outside ∧ w.sleepers = [⟨1, true⟩] ∧
      (w.fibers true).state = .done := ⟨_, rfl, rfl, rfl, rfl⟩
  have hlargest : ∃ w,
      run (workerStep .epoll)
        ([.spawn true, .dispatch true, .sleep true (2 ^ 63 - 1) 1] : List (WorkerAction Bool))
        Worker.initial = some w ∧
      w.calls true = .sleep 1 (2 ^ 63 - 1) ∧ w.clock = 1 ∧
      ∃ w', workerStep .epoll (.turn true 1) w = some w' ∧ w'.calls true = .outside :=
    ⟨_, rfl, rfl, rfl, _, rfl, rfl⟩
  obtain ⟨w, hw, hwrong⟩ := hstale
  obtain ⟨w', hw', hends⟩ := hlargest
  exact ⟨⟨w, Reachable.run _ (.start rfl) hw, hwrong⟩,
    ⟨w', Reachable.run _ (.start rfl) hw', hends⟩⟩

end FiberIo
end Beans
