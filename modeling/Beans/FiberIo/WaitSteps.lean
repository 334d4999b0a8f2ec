import Beans.FiberIo.Waits

/-!
# What every step keeps

Only live fibers are inside a wait, and what can fire names a fiber that is armed in its
wait for a descriptor.  Both hold in every run, whatever its steps are.
-/

namespace Beans
namespace FiberIo

open Function Poller StepSystem

variable {F : Type*} [DecidableEq F]

variable {b : Netpoll} {w w' : Worker F} {s : Waits F} {a : WorkerAction F} {f g : F}

/-- Where a step may put the code of a fiber. -/
theorem Effect.calls (h : Effect b w a s) (g : F) :
    s.calls g = w.calls g ∨ s.calls g = .outside ∨
      (∃ nanos now, a = .sleep g nanos now ∧ s.calls g = .sleep now nanos ∧ 0 < nanos) ∨
      ∃ fd write timeoutMs now deadline,
        a = .waitIo g fd write timeoutMs now false ∧ s.calls g = .waitIo deadline := by
  have hupdate : ∀ (f : F) (c : Call), f ≠ g → update w.calls f c g = w.calls g :=
    fun f c hne => update_of_ne (Ne.symm hne) c w.calls
  cases h with
  | quiet | spawned | fired | submitted | delivered => exact .inl rfl
  | slept f nanos now _ hnanos =>
    by_cases hfg : f = g
    · subst hfg
      exact .inr (.inr (.inl ⟨nanos, now, rfl, update_self .., hnanos⟩))
    · exact .inl (hupdate f _ hfg)
  | waited f fd write timeoutMs now =>
    by_cases hfg : f = g
    · subst hfg
      exact .inr (.inr (.inr ⟨fd, write, timeoutMs, now, _, rfl, update_self ..⟩))
    · exact .inl (hupdate f _ hfg)
  | overslept f | cancelledSleep _ f | answered f | gaveUp _ f =>
    by_cases hfg : f = g
    · subst hfg
      exact .inr (.inl (update_self ..))
    · exact .inl (hupdate f _ hfg)

/-- The record belongs to a fiber that was spawned and has not ended. -/
def Live (state : FiberState) : Prop := state ≠ .unused ∧ state ≠ .done

/-- Only live fibers are inside a wait, and only the current one runs. -/
structure Alive (w : Worker F) : Prop where
  live : ∀ f, w.calls f ≠ .outside → Live (w.fibers f).state
  running : ∀ f, w.current = some f ↔ (w.fibers f).state = .running

/-- The current fiber and the states of all are the same. -/
def Still (w w' : Worker F) : Prop :=
  w'.current = w.current ∧ ∀ g, (w'.fibers g).state = (w.fibers g).state

/-- Parked fibers may have been made ready. -/
def Kept (w w' : Worker F) : Prop :=
  w'.current = w.current ∧ ∀ g, (w'.fibers g).state = (w.fibers g).state ∨
    (w.fibers g).state = .parked ∧ (w'.fibers g).state = .ready

omit [DecidableEq F] in
theorem Still.kept (h : Still w w') : Kept w w' :=
  ⟨h.1, fun g => .inl (h.2 g)⟩

omit [DecidableEq F] in
theorem Still.trans {w'' : Worker F} (h : Still w w') (h' : Still w' w'') :
    Still w w'' :=
  ⟨h'.1.trans h.1, fun g => (h'.2 g).trans (h.2 g)⟩

omit [DecidableEq F] in
theorem Kept.trans {w'' : Worker F} (h : Kept w w') (h' : Kept w' w'') :
    Kept w w'' := by
  refine ⟨h'.1.trans h.1, fun g => ?_⟩
  rcases h.2 g with heq | ⟨hparked, hready⟩
  · rw [← heq]
    exact h'.2 g
  · refine .inr ⟨hparked, ?_⟩
    rcases h'.2 g with heq | ⟨hparked', -⟩
    · rw [heq, hready]
    · rw [hready] at hparked'
      cases hparked'

theorem state_setFiber (w : Worker F) (f : F) (x : FiberRecord) (g : F) :
    ((w.setFiber f x).fibers g).state = if g = f then x.state else (w.fibers g).state := by
  dsimp only [Worker.setFiber]
  rw [update_apply]
  split_ifs
  all_goals rfl

/-- A fiber keeps its state. -/
theorem still_setFiber {x : FiberRecord} (hx : x.state = (w.fibers f).state) :
    Still w (w.setFiber f x) := by
  refine ⟨rfl, fun g => ?_⟩
  rw [state_setFiber]
  split_ifs with hgf
  · rw [hgf, hx]
  · rfl

theorem still_exitCancelled (w : Worker F) (f : F) : Still w (w.exitCancelled f) := by
  have hstill : Still w (w.setFiber f
      (if (w.fibers f).cancelHandler then { w.fibers f with cancelMask := true }
        else { w.fibers f with unwinding := true })) := by
    refine still_setFiber ?_
    split_ifs
    all_goals rfl
  exact hstill

theorem still_dropTimer (w : Worker F) (f : F) (deadline : ℤ) :
    Still w (w.dropTimer f deadline) := by
  rw [Worker.dropTimer]
  split_ifs
  all_goals exact ⟨rfl, fun g => rfl⟩

theorem still_cancelled (b : Netpoll) (w : Worker F) (f : F) : Still w (w.cancelled b f) := by
  rw [Worker.cancelled]
  cases w.calls f with
  | outside => exact ⟨rfl, fun g => rfl⟩
  | sleep begun nanos => exact still_exitCancelled (w.removeTimer f) f
  | waitIo deadline =>
    exact (still_dropTimer (w.disarm b f) f deadline).trans (still_exitCancelled _ f)

theorem kept_resume (w : Worker F) (f : F) (late : Bool) : Kept w (w.resume f late) := by
  rw [Worker.resume]
  cases hstate : (w.fibers f).state with
  | parked =>
    refine ⟨rfl, fun g => ?_⟩
    rw [state_setFiber]
    split_ifs with hgf
    · exact .inr ⟨hgf ▸ hstate, rfl⟩
    · exact .inl rfl
  | unused | done => exact ⟨rfl, fun g => .inl rfl⟩
  | ready | running =>
    refine (still_setFiber ?_).kept
    exact hstate.symm

theorem kept_cancel (w : Worker F) (f : F) (late : Bool) : Kept w (w.cancel f late) := by
  have hstill : Still w (w.setFiber f { w.fibers f with cancelFlag := true }) :=
    still_setFiber rfl
  exact hstill.kept.trans (kept_resume _ f late)

theorem kept_drain (b : Netpoll) (w : Worker F) (f : F) : Kept w (w.drain b f) := by
  rw [Worker.drain]
  split_ifs
  · exact kept_resume { w with io := w.io.deliver f } f false
  · exact ⟨rfl, fun g => .inl rfl⟩

theorem kept_drains (b : Netpoll) (w : Worker F) (fs : List F) :
    Kept w (fs.foldl (Worker.drain b) w) := by
  induction fs generalizing w with
  | nil => exact ⟨rfl, fun g => .inl rfl⟩
  | cons f fs ih => exact (kept_drain b w f).trans (ih _)

/-- A fiber leaves the processor, or another one enters it. -/
inductive Switched (w w' : Worker F) : Prop
  | kept : Kept w w' → Switched w w'
  | left (f : F) (state : FiberState) :
      w.current = some f → w'.current = none → state ≠ .running →
      (∀ g, (w'.fibers g).state = if g = f then state else (w.fibers g).state) →
      (Live state ∨ w'.calls f = .outside) → Switched w w'
  | entered (f : F) :
      w.current = none → (w.fibers f).state = .ready → w'.current = some f →
      (∀ g, (w'.fibers g).state = if g = f then .running else (w.fibers g).state) →
      Switched w w'
  | recycled (f : F) (state : FiberState) :
      ¬Live (w.fibers f).state → w'.current = w.current → state ≠ .running →
      (∀ g, (w'.fibers g).state = if g = f then state else (w.fibers g).state) →
      Switched w w'

theorem switched_park (now : ℤ) (hcurrent : w.current = some f) :
    Switched w (({ w with clock := now }).park b f) := by
  rw [Worker.park]
  dsimp only
  split_ifs
  · exact .kept (still_cancelled b { w with clock := now } f).kept
  · exact .kept (Still.kept (w := w) (still_setFiber rfl))
  · exact .left f .parked hcurrent rfl (by simp) (state_setFiber w f _) (.inl ⟨by simp, by simp⟩)

/-- What a step does to the current fiber and to the states of all. -/
theorem workerStep_switched (hstep : workerStep b a w = some w') : Switched w w' := by
  have hsame : Kept w w := ⟨rfl, fun g => .inl rfl⟩
  cases a with
  | spawn f =>
    rw [workerStep] at hstep
    split_ifs at hstep with hstate
    obtain rfl := Option.some.inj hstep
    refine .recycled f .ready ?_ rfl (by simp) (state_setFiber w f _)
    exact fun hlive => hlive.1 hstate
  | finish f =>
    rw [workerStep] at hstep
    split_ifs at hstep with hguard
    obtain rfl := Option.some.inj hstep
    exact .left f .done hguard.1 rfl (by simp) (state_setFiber w f _) (.inr hguard.2)
  | retire f =>
    rw [workerStep] at hstep
    split_ifs at hstep with hstate
    obtain rfl := Option.some.inj hstep
    refine .recycled f .unused ?_ rfl (by simp) (state_setFiber w f _)
    exact fun hlive => hlive.2 hstate
  | attend f mask handler unwinding =>
    rw [workerStep] at hstep
    split_ifs at hstep
    obtain rfl := Option.some.inj hstep
    exact .kept (Still.kept (w := w) (still_setFiber rfl))
  | pause f yields =>
    rw [workerStep] at hstep
    split_ifs at hstep with hguard
    obtain rfl := Option.some.inj hstep
    rw [Worker.pause]
    dsimp only
    split_ifs
    · exact .kept hsame
    · exact .left f .ready hguard.1 rfl (by simp) (state_setFiber w f _) (.inr hguard.2)
    · exact .kept (Still.kept (w := w) (still_setFiber rfl))
    · exact .left f .parked hguard.1 rfl (by simp) (state_setFiber w f _) (.inr hguard.2)
  | sleep f nanos now =>
    rw [workerStep] at hstep
    split_ifs at hstep
    obtain rfl := Option.some.inj hstep
    rw [Worker.sleep]
    split_ifs
    all_goals exact .kept hsame
  | waitIo f fd write timeoutMs now refused =>
    rw [workerStep] at hstep
    split_ifs at hstep
    obtain rfl := Option.some.inj hstep
    rw [Worker.waitIo]
    split_ifs
    · exact .kept hsame
    · cases w.io.beginWait b f fd write with
      | none => exact .kept hsame
      | some io =>
        dsimp only
        rw [Worker.pushTimer]
        split_ifs
        all_goals exact .kept hsame
  | turn f now =>
    rw [workerStep] at hstep
    split_ifs at hstep with hguard
    obtain rfl := Option.some.inj hstep
    rw [Worker.turn]
    cases hcall : w.calls f with
    | outside => exact .kept hsame
    | sleep begun nanos =>
      dsimp only
      split_ifs
      · exact .kept hsame
      · exact switched_park now hguard.1
    | waitIo deadline =>
      dsimp only
      split_ifs
      · exact .kept (still_dropTimer { w with clock := now } f deadline).kept
      · exact .kept
          (still_dropTimer (Worker.disarm b { w with clock := now } f) f deadline).kept
      · exact switched_park now hguard.1
  | dispatch f =>
    rw [workerStep] at hstep
    split_ifs at hstep with hguard
    obtain rfl := Option.some.inj hstep
    rw [Worker.dispatch]
    have hstates := state_setFiber w f { w.fibers f with state := .running }
    dsimp only
    split_ifs
    · obtain ⟨hcurrent, hstill⟩ := still_cancelled b
        { w.setFiber f { w.fibers f with state := .running } with current := some f } f
      exact .entered f hguard.1 hguard.2 hcurrent fun g => (hstill g).trans (hstates g)
    · exact .entered f hguard.1 hguard.2 rfl hstates
  | resume f late =>
    obtain rfl := Option.some.inj hstep
    exact .kept (kept_resume w f late)
  | cancel f late =>
    obtain rfl := Option.some.inj hstep
    exact .kept (kept_cancel w f late)
  | fire now =>
    rw [workerStep] at hstep
    split_ifs at hstep
    rw [Worker.fireFirst] at hstep
    cases hsleepers : w.sleepers with
    | nil =>
      rw [hsleepers] at hstep
      cases hstep
    | cons first rest =>
      rw [hsleepers] at hstep
      dsimp only at hstep
      split_ifs at hstep
      obtain rfl := Option.some.inj hstep
      exact .kept (kept_resume _ first.fiber false)
  | submit refused =>
    rw [workerStep] at hstep
    split_ifs at hstep
    obtain rfl := Option.some.inj hstep
    exact .kept (kept_drains b { w with io := w.io.submit refused } _)
  | event fd write =>
    rw [workerStep] at hstep
    split_ifs at hstep
    obtain ⟨⟨f, io⟩, -, rfl⟩ := Option.map_eq_some_iff.mp hstep
    exact .kept (kept_drain b { w with io := io } f)

/-- A step that lets a fiber begin a wait is one of the current fiber. -/
theorem workerStep_begins (hstep : workerStep b a w = some w') (g : F) :
    w'.calls g = w.calls g ∨ w'.calls g = .outside ∨ w.current = some g := by
  rcases (workerStep_effect hstep).calls g with
    hsame | hout | ⟨nanos, now, rfl, -⟩ | ⟨fd, write, timeoutMs, now, deadline, rfl, -⟩
  · exact .inl hsame
  · exact .inr (.inl hout)
  · rw [workerStep] at hstep
    split_ifs at hstep with hguard
    exact .inr (.inr hguard.1)
  · rw [workerStep] at hstep
    split_ifs at hstep with hguard
    exact .inr (.inr hguard.1)

/-- A step keeps the fibers inside of waits alive and the current one running. -/
theorem Alive.step (h : Alive w) (hstep : workerStep b a w = some w') :
    Alive w' := by
  have hlive : ∀ g, w'.calls g ≠ .outside → Live (w.fibers g).state := by
    intro g hg
    rcases workerStep_begins hstep g with hsame | hout | hcurrent
    · exact h.live g (hsame ▸ hg)
    · exact absurd hout hg
    · rw [(h.running g).mp hcurrent]
      exact ⟨by simp, by simp⟩
  cases workerStep_switched hstep with
  | kept hkept =>
    refine ⟨fun g hg => ?_, fun g => ?_⟩
    · rcases hkept.2 g with heq | ⟨-, hready⟩
      · rw [heq]
        exact hlive g hg
      · rw [hready]
        exact ⟨by simp, by simp⟩
    · rw [hkept.1, h.running g]
      rcases hkept.2 g with heq | ⟨hparked, hready⟩
      · rw [heq]
      · simp [hparked, hready]
  | left f state hcurrent hnone hstops hstates hleft =>
    refine ⟨fun g hg => ?_, fun g => ?_⟩
    · rw [hstates]
      split_ifs with hgf
      · exact hleft.resolve_right (hgf ▸ hg)
      · exact hlive g hg
    · rw [hnone, hstates]
      split_ifs with hgf
      · simp [hstops]
      · rw [← h.running g, hcurrent]
        simp [Ne.symm hgf]
  | entered f hnone hready hcurrent hstates =>
    refine ⟨fun g hg => ?_, fun g => ?_⟩
    · rw [hstates]
      split_ifs
      · exact ⟨by simp, by simp⟩
      · exact hlive g hg
    · rw [hcurrent, hstates]
      split_ifs with hgf
      · simp [hgf]
      · rw [← h.running g, hnone]
        simp [Ne.symm hgf]
  | recycled f state hdead hsame hstops hstates =>
    refine ⟨fun g hg => ?_, fun g => ?_⟩
    · rw [hstates]
      split_ifs with hgf
      · exact absurd (hgf ▸ hlive g hg) hdead
      · exact hlive g hg
    · rw [hsame, hstates, h.running g]
      split_ifs with hgf
      · have hrest : (w.fibers g).state ≠ .running := by
          intro hrunning
          rw [← hgf, hrunning] at hdead
          exact hdead ⟨by simp, by simp⟩
        simp [hrest, hstops]
      · rfl

/-- The registrations and the calls of the fibers agree. -/
structure Linked (b : Netpoll) (s : Waits F) : Prop where
  sound : Sound b s.io
  inside : ∀ f, s.io.ioArmed f = true → ∃ deadline, s.calls f = .waitIo deadline
  waits : ∀ f deadline, s.calls f = .waitIo deadline →
    s.io.ioArmed f = true ∨ s.io.ioSignalled f = true
  signalled : ∀ f, s.io.ioSignalled f = true → s.io.ioArmed f = false

section Links

omit [DecidableEq F] in
theorem Linked.unarmed (h : Linked b s) (hf : ∀ deadline, s.calls f ≠ .waitIo deadline) :
    s.io.ioArmed f = false := by
  by_contra hne
  obtain ⟨deadline, hcall⟩ := h.inside f (Bool.eq_true_of_not_eq_false hne)
  exact hf deadline hcall

/-- A fiber that is not armed begins or ends a call that arms nothing. -/
theorem Linked.setCall (h : Linked b s) (hf : s.io.ioArmed f = false) (c : Call)
    (hc : ∀ deadline, c ≠ .waitIo deadline) (sleepers : List (Sleeper F)) :
    Linked b ⟨update s.calls f c, s.io, sleepers⟩ := by
  refine ⟨h.sound, fun g hg => ?_, fun g deadline hg => ?_, h.signalled⟩
  · have hgf : g ≠ f := by
      rintro rfl
      rw [hf] at hg
      cases hg
    dsimp only
    rw [update_of_ne hgf]
    exact h.inside g hg
  · dsimp only at hg
    rw [update_apply] at hg
    split_ifs at hg
    · exact absurd hg (hc deadline)
    · exact h.waits g deadline hg

theorem Linked.begin {fd : ℤ} {write : Bool} {io : Poller F} (h : Linked b s)
    (hf : s.calls f = .outside) (hbegin : s.io.beginWait b f fd write = some io) (deadline : ℤ)
    (sleepers : List (Sleeper F)) :
    Linked b ⟨update s.calls f (.waitIo deadline), io, sleepers⟩ := by
  have hunarmed : s.io.ioArmed f = false := h.unarmed (by simp [hf])
  obtain ⟨harmed, hsignalled, -⟩ := beginWait_fields hbegin
  refine ⟨sound_beginWait h.sound hunarmed hbegin, fun g hg => ?_, fun g d hg => ?_,
    fun g hg => ?_⟩
  · dsimp only at hg ⊢
    by_cases hgf : g = f
    · exact ⟨deadline, by rw [hgf, update_self]⟩
    · rw [harmed, update_of_ne hgf] at hg
      rw [update_of_ne hgf]
      exact h.inside g hg
  · dsimp only at hg ⊢
    rw [harmed, hsignalled]
    by_cases hgf : g = f
    · exact .inl (by rw [hgf, update_self])
    · rw [update_of_ne hgf] at hg
      rw [update_of_ne hgf, update_of_ne hgf]
      exact h.waits g d hg
  · dsimp only at hg ⊢
    rw [hsignalled, update_apply] at hg
    split_ifs at hg with hgf
    rw [harmed, update_of_ne hgf]
    exact h.signalled g hg

omit [DecidableEq F] in
/-- What the poller drops leaves the fibers as they are. -/
theorem Linked.same {io : Poller F} (h : Linked b s) (hsound : Sound b io)
    (hsame : SameFibers s.io io) :
    Linked b { s with io := io } := by
  refine ⟨hsound, ?_, ?_, ?_⟩
  · rw [hsame.ioArmed]
    exact h.inside
  · rw [hsame.ioArmed, hsame.ioSignalled]
    exact h.waits
  · rw [hsame.ioArmed, hsame.ioSignalled]
    exact h.signalled

theorem Linked.disarm (h : Linked b s) (f : F) (sleepers : List (Sleeper F)) :
    Linked b ⟨update s.calls f .outside, s.io.disarm b f, sleepers⟩ := by
  have hsame := unregister_same b s.io f
  have harmed : (s.io.disarm b f).ioArmed = update s.io.ioArmed f false := by
    rw [Poller.disarm, hsame.ioArmed]
  have hsignalled : (s.io.disarm b f).ioSignalled = s.io.ioSignalled := hsame.ioSignalled
  refine ⟨(sound_disarm h.sound f).1, fun g hg => ?_, fun g deadline hg => ?_, fun g hg => ?_⟩
  · dsimp only at hg ⊢
    rw [harmed, update_apply] at hg
    split_ifs at hg with hgf
    rw [update_of_ne hgf]
    exact h.inside g hg
  · dsimp only at hg ⊢
    rw [update_apply] at hg
    split_ifs at hg with hgf
    rw [harmed, hsignalled, update_of_ne hgf]
    exact h.waits g deadline hg
  · dsimp only at hg ⊢
    rw [hsignalled] at hg
    rw [harmed, update_apply, h.signalled g hg]
    split_ifs
    all_goals rfl

/-- A fiber that nothing names any more is told that its descriptor is ready. -/
theorem Linked.drain (h : Linked b s) (hun : Unnamed b s.io f) :
    Linked b { s with io := s.io.drain b f } := by
  rw [Poller.drain]
  split_ifs
  · refine ⟨sound_deliver h.sound hun, fun g hg => ?_, fun g deadline hg => ?_, fun g hg => ?_⟩
    · dsimp only [Poller.deliver] at hg
      rw [update_apply] at hg
      split_ifs at hg
      exact h.inside g hg
    · dsimp only [Poller.deliver]
      by_cases hgf : g = f
      · exact .inr (by rw [hgf, update_self])
      · rw [update_of_ne hgf, update_of_ne hgf]
        exact h.waits g deadline hg
    · dsimp only [Poller.deliver] at hg ⊢
      rw [update_apply] at hg ⊢
      split_ifs at hg ⊢ with hgf
      · rfl
      · exact h.signalled g hg
  · exact h

theorem drain_sameTables (b : Netpoll) (p : Poller F) (f : F) : SameTables p (p.drain b f) := by
  rw [Poller.drain]
  split_ifs
  all_goals exact ⟨rfl, rfl, rfl, rfl, rfl, rfl⟩

theorem Linked.drains {fs : List F} (h : Linked b s) (hun : ∀ f ∈ fs, Unnamed b s.io f) :
    Linked b { s with io := fs.foldl (Poller.drain b) s.io } := by
  induction fs generalizing s with
  | nil => exact h
  | cons f fs ih =>
    have hfirst := h.drain (hun f List.mem_cons_self)
    refine ih hfirst fun g hg => ?_
    exact (hun g (List.mem_cons_of_mem f hg)).same (drain_sameTables b s.io f)

theorem Linked.reset (h : Linked b s) (hf : s.calls f = .outside) :
    Linked b { s with io := s.io.reset f } := by
  have hunarmed : s.io.ioArmed f = false := h.unarmed (by simp [hf])
  refine ⟨sound_reset h.sound hunarmed, fun g hg => ?_, fun g deadline hg => ?_, fun g hg => ?_⟩
  · dsimp only [Poller.reset] at hg
    rw [update_apply] at hg
    split_ifs at hg
    exact h.inside g hg
  · have hgf : g ≠ f := by
      rintro rfl
      rw [hf] at hg
      cases hg
    dsimp only [Poller.reset]
    rw [update_of_ne hgf, update_of_ne hgf]
    exact h.waits g deadline hg
  · dsimp only [Poller.reset] at hg ⊢
    rw [update_apply] at hg ⊢
    split_ifs at hg ⊢
    exact h.signalled g hg

/-- Whatever a step does, what can fire names a fiber inside its wait. -/
theorem Linked.effect (h : Linked b w.toWaits) (halive : Alive w) (heffect : Effect b w a s) :
    Linked b s := by
  cases heffect with
  | quiet => exact h
  | spawned f hunused =>
    refine h.reset ?_
    by_contra hin
    exact (halive.live f hin).1 hunused
  | slept f nanos now hf =>
    exact h.setCall (h.unarmed (by simp [hf])) _ (by simp) _
  | overslept f begun nanos now hf =>
    exact h.setCall (h.unarmed (by simp [hf])) _ (by simp) _
  | cancelledSleep a f begun nanos hf =>
    exact h.setCall (h.unarmed (by simp [hf])) _ (by simp) _
  | waited f fd write timeoutMs now io hf hbegin => exact h.begin hf hbegin _ _
  | answered f deadline now hf hsignalled =>
    exact h.setCall (h.signalled f hsignalled) _ (by simp) _
  | gaveUp a f deadline => exact h.disarm f _
  | fired => exact ⟨h.sound, h.inside, h.waits, h.signalled⟩
  | submitted refused hb =>
    subst hb
    have hsubmit : Linked .kqueue { w.toWaits with io := w.io.submit refused } :=
      h.same (sound_submit h.sound refused) ⟨rfl, rfl, rfl, rfl, rfl⟩
    exact hsubmit.drains fun f hf => unnamed_refused h.sound hf
  | delivered fd write f io hevent =>
    obtain ⟨hsound, hun, -⟩ := sound_event h.sound hevent
    exact (h.same hsound (event_same hevent)).drain hun

end Links

section Clock

theorem resume_clock (w : Worker F) (f : F) (late : Bool) :
    (w.resume f late).clock = w.clock := by
  rw [Worker.resume]
  cases (w.fibers f).state
  all_goals rfl

theorem dropTimer_clock (w : Worker F) (f : F) (deadline : ℤ) :
    (w.dropTimer f deadline).clock = w.clock := by
  rw [Worker.dropTimer]
  split_ifs
  all_goals rfl

theorem cancelled_clock (b : Netpoll) (w : Worker F) (f : F) :
    (w.cancelled b f).clock = w.clock := by
  rw [Worker.cancelled]
  cases w.calls f with
  | outside => rfl
  | sleep => rfl
  | waitIo deadline => exact dropTimer_clock (w.disarm b f) f deadline

theorem park_clock (b : Netpoll) (w : Worker F) (f : F) : (w.park b f).clock = w.clock := by
  rw [Worker.park]
  dsimp only
  split_ifs
  · exact cancelled_clock b w f
  · rfl
  · rfl

theorem turn_clock (b : Netpoll) (w : Worker F) (f : F) (now : ℤ) :
    (w.turn b f now).clock = w.clock := by
  rw [Worker.turn]
  cases w.calls f with
  | outside => rfl
  | sleep begun nanos =>
    dsimp only
    split_ifs
    · rfl
    · exact park_clock b w f
  | waitIo deadline =>
    dsimp only
    split_ifs
    · exact dropTimer_clock w f deadline
    · exact dropTimer_clock (w.disarm b f) f deadline
    · exact park_clock b w f

theorem waitIo_clock (b : Netpoll) (w : Worker F) (f : F) (fd : ℤ) (write : Bool)
    (timeoutMs now : ℤ) (refused : Bool) :
    (w.waitIo b f fd write timeoutMs now refused).clock = w.clock := by
  rw [Worker.waitIo]
  split_ifs
  · rfl
  cases w.io.beginWait b f fd write with
  | none => rfl
  | some io =>
    dsimp only
    rw [Worker.pushTimer]
    split_ifs
    all_goals rfl

theorem drain_clock (b : Netpoll) (w : Worker F) (f : F) : (w.drain b f).clock = w.clock := by
  rw [Worker.drain]
  split_ifs
  · exact resume_clock ..
  · rfl

theorem drains_clock (b : Netpoll) (w : Worker F) (fs : List F) :
    (fs.foldl (Worker.drain b) w).clock = w.clock := by
  induction fs generalizing w with
  | nil => rfl
  | cons f fs ih => exact (ih _).trans (drain_clock b w f)

/-- A step leaves the clock or takes a reading. -/
theorem workerStep_clock (hstep : workerStep b a w = some w') :
    w'.clock = w.clock ∨ Reading w.clock w'.clock := by
  cases a with
  | spawn f | finish f | retire f | attend f mask handler unwinding =>
    rw [workerStep] at hstep
    split_ifs at hstep
    obtain rfl := Option.some.inj hstep
    exact .inl rfl
  | pause f yields =>
    rw [workerStep] at hstep
    split_ifs at hstep
    obtain rfl := Option.some.inj hstep
    rw [Worker.pause]
    dsimp only
    split_ifs
    all_goals exact .inl rfl
  | sleep f nanos now =>
    rw [workerStep] at hstep
    split_ifs at hstep with hguard
    obtain rfl := Option.some.inj hstep
    rw [Worker.sleep]
    split_ifs
    all_goals exact .inr hguard.2.2.1
  | waitIo f fd write timeoutMs now refused =>
    rw [workerStep] at hstep
    split_ifs at hstep with hguard
    obtain rfl := Option.some.inj hstep
    rw [waitIo_clock]
    exact .inr hguard.2.2.1
  | turn f now =>
    rw [workerStep] at hstep
    split_ifs at hstep with hguard
    obtain rfl := Option.some.inj hstep
    rw [turn_clock]
    exact .inr hguard.2.2
  | dispatch f =>
    rw [workerStep] at hstep
    split_ifs at hstep
    obtain rfl := Option.some.inj hstep
    rw [Worker.dispatch]
    dsimp only
    split_ifs
    · exact .inl (cancelled_clock ..)
    · exact .inl rfl
  | resume f late =>
    obtain rfl := Option.some.inj hstep
    exact .inl (resume_clock w f late)
  | cancel f late =>
    obtain rfl := Option.some.inj hstep
    exact .inl (resume_clock _ f late)
  | fire now =>
    rw [workerStep] at hstep
    split_ifs at hstep with hguard
    rw [Worker.fireFirst] at hstep
    cases hsleepers : w.sleepers with
    | nil =>
      rw [hsleepers] at hstep
      cases hstep
    | cons first rest =>
      rw [hsleepers] at hstep
      dsimp only at hstep
      split_ifs at hstep
      obtain rfl := Option.some.inj hstep
      rw [resume_clock]
      exact .inr hguard.2
  | submit refused =>
    rw [workerStep] at hstep
    split_ifs at hstep
    obtain rfl := Option.some.inj hstep
    exact .inl (drains_clock ..)
  | event fd write =>
    rw [workerStep] at hstep
    split_ifs at hstep
    obtain ⟨⟨f, io⟩, -, rfl⟩ := Option.map_eq_some_iff.mp hstep
    exact .inl (drain_clock ..)

end Clock

/-- No fiber was spawned yet. -/
def workerInit (w : Worker F) : Prop := w = .initial

section Runs

omit [DecidableEq F] in
theorem linked_initial (b : Netpoll) : Linked b (Worker.initial : Worker F).toWaits :=
  ⟨sound_initial b, by simp [Worker.initial, Poller.initial], by simp [Worker.initial],
    by simp [Worker.initial, Poller.initial]⟩

omit [DecidableEq F] in
theorem alive_initial : Alive (Worker.initial : Worker F) :=
  ⟨by simp [Worker.initial], by simp [Worker.initial]⟩

variable {allowed : WorkerAction F → Worker F → Prop}

/-- Whatever the steps of a run are, what can fire names a fiber inside its wait. -/
theorem reachable_linked (h : Reachable (workerStep b) workerInit allowed w) :
    Linked b w.toWaits ∧ Alive w := by
  refine h.invariant (P := fun w => Linked b w.toWaits ∧ Alive w) (fun w hw => ?_)
    fun w a w' hw _ hstep => ?_
  · rw [hw]
    exact ⟨linked_initial b, alive_initial⟩
  · exact ⟨hw.1.effect hw.2 (workerStep_effect hstep), hw.2.step hstep⟩

/-- What a step from a reachable state preserves. -/
theorem reachable_invariant {P : Worker F → Prop}
    (h : Reachable (workerStep b) workerInit allowed w) (hinit : P .initial)
    (hstep : ∀ w a w', P w → Linked b w.toWaits → Alive w → allowed a w →
      workerStep b a w = some w' → P w') :
    P w := by
  refine And.left (b := Linked b w.toWaits ∧ Alive w) ?_
  refine h.invariant (P := fun w => P w ∧ Linked b w.toWaits ∧ Alive w) (fun w hw => ?_)
    fun w a w' hw hok hs => ?_
  · rw [hw]
    exact ⟨hinit, linked_initial b, alive_initial⟩
  · obtain ⟨hw, hlinked, halive⟩ := hw
    exact ⟨hstep w a w' hw hlinked halive hok hs,
      hlinked.effect halive (workerStep_effect hs), halive.step hs⟩

end Runs

end FiberIo
end Beans
