import Beans.Fiber.ThreadJoinInvariant

/-!
# The join handshake

Every step of the joining fiber keeps the invariant, except that its cancel
exit has to find the slot still naming it, or the finishing thread through.
On the runs that meet this condition, and whose parks do not pass over a latch,
the handshake keeps its promise; two runs show what happens on the others.

**Results.**
* `threadJoin_keepsHandshake`: the handshake on the allowed runs.
* `threadJoin_breaksHandshake`: a fiber that left is resumed, and a joiner is left parked.
-/

namespace Beans
namespace Fiber

open StepSystem IntrusiveQueue

variable {W F T : Type*} [DecidableEq W] [DecidableEq F] [DecidableEq T]

namespace JoinInv

variable {fin : T} {s s' : JoinState W F T}

variable {old pc : JoinPc} {p q : W × F} {f : F} {w : W} {x : Tracked F T}

omit [DecidableEq T] in
theorem joiner_setJoiner :
    (s.setJoiner p pc).joiner q = if q = p then pc else s.joiner q := by
  by_cases hq : q = p
  · subst hq
    rw [if_pos rfl]
    exact Function.update_self _ _ _
  · rw [if_neg hq]
    exact Function.update_of_ne hq _ _

omit [DecidableEq W] [DecidableEq F] [DecidableEq T] in
/-- The other fibers are outside. -/
theorem others_outside (h : JoinInv fin s) {a : JoinPc}
    (hp : s.joiner p = a) (ha : a ≠ .outside) (hq : q ≠ p) :
    s.joiner q = .outside := by
  by_contra hne
  exact hq (h.inside_eq hp ha hne)

omit [DecidableEq T] in
/-- A fiber that moves inside the loop, or out of it, by its own code. -/
theorem move (h : JoinInv fin s)
    (hold : s.joiner (w, f) = old) (hcode : ownCode old = true)
    (hloop : looping old = true) (hcode' : ownCode pc = true)
    (hloop' : looping pc = true ∨ pc = .leave)
    (hpark : pc = .park → s.finisher = .body) :
    JoinInv fin (s.setJoiner (w, f) pc) := by
  have hne : old ≠ .outside := by
    rintro rfl
    cases hcode
  have hne' : pc ≠ .outside := by
    rintro rfl
    cases hcode'
  have hother {q : W × F} (hq : q ≠ (w, f)) := h.others_outside hold hne hq
  have hread (q : W × F) : (s.setJoiner (w, f) pc).joiner q =
      if q = (w, f) then pc else s.joiner q := joiner_setJoiner
  constructor
  case kept => exact h.kept
  case on_body =>
    intro v g hg
    rw [hread] at hg
    split at hg
    · rename_i heq
      cases heq
      exact h.on_body w f (by rw [hold]; exact hcode)
    · exact h.on_body v g hg
  case off_body =>
    intro v g hg
    rw [hread] at hg
    split at hg
    · rw [hg] at hcode'
      cases hcode'
    · exact h.off_body v g hg
  case alive =>
    intro v g hg
    rw [hread] at hg
    split at hg
    · rw [hg] at hcode'
      cases hcode'
    · exact h.alive v g hg
  case one =>
    intro p q hp hq
    rw [hread] at hp hq
    have hin (r : W × F) (hr : (if r = (w, f) then pc else s.joiner r) ≠
        .outside) : r = (w, f) := by
      by_contra hr'
      rw [if_neg hr'] at hr
      exact hr (hother hr')
    rw [hin p hp, hin q hq]
  case held => exact fun _ _ => h.held (w, f) (by rw [hold]; exact hne)
  case free => exact fun _ _ => ⟨(w, f), by rw [hread, if_pos rfl]; exact hne'⟩
  case not_done => exact h.not_done
  case waiter =>
    intro p hp
    rw [hread]
    split
    · exact hloop'
    · exact h.waiter p hp
  case registered =>
    intro p hp hpc
    rw [hread] at hp
    split at hp
    · rename_i heq
      subst heq
      exact h.registered _ (by rw [hold]; exact hloop) hpc
    · exact h.registered p hp hpc
  case calling =>
    intro q hq
    obtain ⟨hnone, hj, hreg⟩ := h.calling q hq
    refine ⟨hnone, hj, fun p hp => ?_⟩
    rw [hread] at hp
    split at hp
    · rw [hp] at hloop'
      rcases hloop' with hl | hl <;> cases hl
    · exact hreg p hp
  case idle => exact h.idle
  case resuming => exact h.resuming
  case wake =>
    intro p hp
    rw [hread] at hp
    split at hp
    · rcases hp with hp | hp
      · exact WakeComes.of_body (hpark hp) p
      · rw [hp] at hcode'
        cases hcode'
    · exact h.wake p hp
  case abandoned =>
    intro p hp
    rw [hread]
    split
    · rename_i heq
      subst heq
      rcases h.abandoned _ hp with hout | hout
      · rw [hold] at hout
        exact absurd hout hne
      · rw [hold] at hout
        rw [hout] at hloop
        cases hloop
    · exact h.abandoned p hp
  case live => exact h.live

omit [DecidableEq T] in
/-- `if (t->joined) beans_panic(...); t->joined = 1;`. -/
theorem enterStep (h : JoinInv fin s) {w : W}
    (hs : Fiber.enterStep w s = some s') : JoinInv fin s' := by
  unfold Fiber.enterStep at hs
  split at hs
  · rename_i f hbody
    split at hs
    · rename_i hguard
      obtain ⟨-, hout, hfree⟩ := hguard
      cases hs
      have hall (p : W × F) : s.joiner p = .outside := by
        by_contra hp
        rw [h.held p hp] at hfree
        cases hfree
      have hread (q : W × F) :
          (({ s with joined := true } : JoinState W F T).setJoiner (w, f)
            .register).joiner q =
              if q = (w, f) then .register else s.joiner q :=
        joiner_setJoiner
      have hin {q : W × F} (hq : (({ s with joined := true } :
          JoinState W F T).setJoiner (w, f) .register).joiner q ≠ .outside) :
          q = (w, f) := by
        by_contra hne
        rw [hread, if_neg hne] at hq
        exact hq (hall q)
      have hnotloop (q : W × F) : looping ((({ s with joined := true } :
          JoinState W F T).setJoiner (w, f) .register).joiner q) = false := by
        rw [hread]
        split
        · rfl
        · rw [hall q]
          rfl
      constructor
      case kept => exact h.kept
      case on_body =>
        intro v g hg
        have heq : (v, g) = (w, f) := by
          refine hin ?_
          intro hout'
          rw [hout'] at hg
          cases hg
        cases heq
        exact hbody
      case off_body =>
        intro v g hg
        have hloop := hnotloop (v, g)
        rw [hg] at hloop
        cases hloop
      case alive =>
        intro v g hg
        have hloop := hnotloop (v, g)
        rw [hg] at hloop
        cases hloop
      case one => exact fun p q hp hq => (hin hp).trans (hin hq).symm
      case held => exact fun _ _ => rfl
      case free => exact fun _ _ => ⟨(w, f), by simp [hread]⟩
      case not_done => exact h.not_done
      case waiter =>
        intro p hp
        have hold := h.waiter p hp
        rw [hall p] at hold
        rcases hold with hold | hold <;> cases hold
      case registered =>
        intro p hp
        rw [hnotloop p] at hp
        cases hp
      case calling =>
        intro q hq
        have hj := (h.calling q hq).2.1
        rw [hfree] at hj
        cases hj
      case idle => exact h.idle
      case resuming => exact h.resuming
      case wake =>
        intro p hp
        have hloop := hnotloop p
        rcases hp with hp | hp <;> (rw [hp] at hloop; cases hloop)
      case abandoned =>
        intro p _
        rw [hread]
        split
        · exact .inr rfl
        · exact .inl (hall p)
      case live => exact h.live
    · cases hs
  · cases hs

omit [DecidableEq T] in
/-- The fiber writes itself into the handle. -/
theorem register (h : JoinInv fin s)
    (hold : s.joiner (w, f) = .register) :
    JoinInv fin (({ s with joinWaiter := some (w, f) }.setAbandoned (w, f)
      false).setJoiner (w, f) .loadDone) := by
  have hother {q : W × F} (hq : q ≠ (w, f)) :=
    h.others_outside hold (by decide) hq
  have hread (q : W × F) :
      ((({ s with joinWaiter := some (w, f) } :
        JoinState W F T).setAbandoned (w, f) false).setJoiner (w, f)
          .loadDone).joiner q =
            if q = (w, f) then .loadDone else s.joiner q :=
    joiner_setJoiner
  have hin {q : W × F} {pc : JoinPc}
      (hq : (if q = (w, f) then JoinPc.loadDone else s.joiner q) = pc)
      (hpc : pc ≠ .outside) : q = (w, f) ∧ pc = .loadDone := by
    split at hq
    · rename_i heq
      exact ⟨heq, hq.symm⟩
    · rename_i hne
      rw [hother hne] at hq
      exact absurd hq.symm hpc
  constructor
  case kept => exact h.kept
  case on_body =>
    intro v g hg
    rw [hread] at hg
    have heq := (hin rfl (by rintro hout; rw [hout] at hg; cases hg)).1
    cases heq
    exact h.on_body w f (by rw [hold]; rfl)
  case off_body =>
    intro v g hg
    rw [hread] at hg
    cases (hin hg (by decide)).2
  case alive =>
    intro v g hg
    rw [hread] at hg
    cases (hin hg (by decide)).2
  case one =>
    intro p q hp hq
    rw [hread] at hp hq
    exact (hin rfl hp).1.trans (hin rfl hq).1.symm
  case held => exact fun _ _ => h.held (w, f) (by rw [hold]; decide)
  case free => exact fun _ _ => ⟨(w, f), by rw [hread, if_pos rfl]; decide⟩
  case not_done => exact h.not_done
  case waiter =>
    rintro p hp
    cases hp
    rw [hread, if_pos rfl]
    exact .inl rfl
  case registered =>
    intro p hp _
    rw [hread] at hp
    have heq := (hin rfl (by rintro hout; rw [hout] at hp; cases hp)).1
    rw [heq]
    rfl
  case calling =>
    intro q hq
    exact absurd hold ((h.calling q hq).2.2 (w, f))
  case idle => exact h.idle
  case resuming => exact h.resuming
  case wake =>
    intro p hp
    rw [hread] at hp
    rcases hp with hp | hp <;> cases (hin hp (by decide)).2
  case abandoned =>
    intro p hp
    rw [hread]
    by_cases heq : p = (w, f)
    · subst heq
      have hself : false = true := (Function.update_self _ _ _).symm.trans hp
      cases hself
    · rw [if_neg heq]
      exact .inl (hother heq)
  case live =>
    intro p hp
    by_cases heq : p = (w, f)
    · subst heq
      have hself : false = true := (Function.update_self _ _ _).symm.trans hp
      cases hself
    · exact h.live p ((Function.update_of_ne heq _ _).symm.trans hp)

omit [DecidableEq W] in
/-- A park that observes a cancel returns at once; another one leaves the
body, alive and still owed what it was owed. -/
theorem park_cases (hkept : Kept (s.worlds w)) (hbody : (s.worlds w).1.worker = .on f .body)
    (hx : trackedStep .park (s.worlds w) = some x) :
    (fiberCancelObservable (s.worlds w).1 f = true ∧
      x.1.worker = .on f .body) ∨
    (fiberCancelObservable (s.worlds w).1 f = false ∧
      x.1.worker ≠ .on f .body ∧ Alive x.1 f ∧
      ¬RunsAgain .park (s.worlds w).1 f) := by
  obtain ⟨R, I, C, -, hc⟩ := hkept.placed
  have hst := hc.on_state f .body hbody
  obtain ⟨e, hstep⟩ := trackedStep_step hx
  simp only [step] at hstep
  split at hstep
  · cases hcancel : fiberCancelObservable (s.worlds w).1 f with
    | true =>
      simp only [chooseStep, hbody, hcancel, if_true, Option.some.injEq,
        Prod.mk.injEq] at hstep
      rw [← hstep.1]
      exact .inl ⟨rfl, hbody⟩
    | false =>
      simp only [chooseStep, hbody, hcancel, Bool.false_eq_true, if_false,
        Option.some.injEq, Prod.mk.injEq] at hstep
      rw [← hstep.1]
      refine .inr ⟨rfl, by simp [State.goto], ⟨?_, ?_, ?_⟩, ?_⟩
      · simp [State.goto, hst]
      · simp [State.goto, hst, phase]
      · simp [State.goto]
      · rintro (⟨hwork, -⟩ | ⟨-, -, hobs⟩)
        · cases hwork
        · rw [hcancel] at hobs
          cases hobs
  · cases hstep

/-- The fiber calls `beans_fiber_park`. -/
theorem park (h : JoinInv fin s) {w : W} {f : F} {x : Tracked F T}
    (hbody : (s.worlds w).1.worker = .on f .body)
    (hold : s.joiner (w, f) = .park)
    (hx : trackedStep .park (s.worlds w) = some x) :
    JoinInv fin ((s.setWorld w x).setJoiner (w, f)
      (if fiberCancelObservable (s.worlds w).1 f then .recheck
        else .parked)) := by
  have hother {q : W × F} (hq : q ≠ (w, f)) :=
    h.others_outside hold (by decide) hq
  obtain ⟨pc, hpc⟩ : ∃ pc, pc =
      (if fiberCancelObservable (s.worlds w).1 f then JoinPc.recheck
        else .parked) := ⟨_, rfl⟩
  rw [← hpc]
  have hcases := park_cases (h.kept w) hbody hx
  have hpcs : (pc = .recheck ∧ x.1.worker = .on f .body) ∨
      (pc = .parked ∧ x.1.worker ≠ .on f .body ∧ Alive x.1 f ∧
        ¬RunsAgain .park (s.worlds w).1 f) := by
    rcases hcases with ⟨hcancel, hw⟩ | ⟨hcancel, hrest⟩
    · exact .inl ⟨by simp [hpc, hcancel], hw⟩
    · exact .inr ⟨by simp [hpc, hcancel], hrest⟩
  have hne : pc ≠ .outside := by
    rcases hpcs with ⟨hp, -⟩ | ⟨hp, -⟩ <;> simp [hp]
  have hloop : looping pc = true := by
    rcases hpcs with ⟨hp, -⟩ | ⟨hp, -⟩ <;> (rw [hp]; rfl)
  obtain ⟨e, hstep⟩ := trackedStep_step hx
  have hresumes : x.1.resumes (some fin) =
      (s.worlds w).1.resumes (some fin) :=
    step_resumes hstep (by simp) (by simp)
  have hread (q : W × F) : ((s.setWorld w x).setJoiner (w, f) pc).joiner q =
      if q = (w, f) then pc else s.joiner q := joiner_setJoiner
  have hworlds : ((s.setWorld w x).setJoiner (w, f) pc).worlds =
      (s.setWorld w x).worlds := rfl
  have hin {q : W × F} (hq : (if q = (w, f) then pc else s.joiner q) ≠
      .outside) : q = (w, f) := by
    by_contra hq'
    rw [if_neg hq'] at hq
    exact hq (hother hq')
  constructor
  case kept => exact h.kept_setWorld hx (by simp)
  case on_body =>
    intro v g hg
    rw [hread] at hg
    have heq := hin (by intro hout; rw [hout] at hg; cases hg)
    cases heq
    rw [if_pos rfl] at hg
    rw [hworlds, s.setWorld_self]
    rcases hpcs with ⟨-, hw⟩ | ⟨hp, -⟩
    · exact hw
    · rw [hp] at hg
      cases hg
  case off_body =>
    intro v g hg
    rw [hread] at hg
    have heq := hin (by rw [hg]; decide)
    cases heq
    rw [if_pos rfl] at hg
    rw [hworlds, s.setWorld_self]
    rcases hpcs with ⟨hp, -⟩ | ⟨-, hw, -⟩
    · rw [hp] at hg
      cases hg
    · exact hw
  case alive =>
    intro v g hg
    rw [hread] at hg
    have heq := hin (by rw [hg]; decide)
    cases heq
    rw [if_pos rfl] at hg
    rw [hworlds, s.setWorld_self]
    rcases hpcs with ⟨hp, -⟩ | ⟨-, -, halive, -⟩
    · rw [hp] at hg
      cases hg
    · exact halive
  case one =>
    intro p q hp hq
    rw [hread] at hp hq
    exact (hin hp).trans (hin hq).symm
  case held => exact fun _ _ => h.held (w, f) (by rw [hold]; decide)
  case free => exact fun _ _ => ⟨(w, f), by rw [hread, if_pos rfl]; exact hne⟩
  case not_done => exact h.not_done
  case waiter =>
    intro p hp
    rw [hread]
    split
    · exact .inl hloop
    · exact h.waiter p hp
  case registered =>
    intro p hp hfin
    rw [hread] at hp
    have heq := hin (by intro hout; rw [hout] at hp; cases hp)
    subst heq
    exact h.registered _ (by rw [hold]; rfl) hfin
  case calling =>
    intro q hq
    obtain ⟨hnone, hj, hreg⟩ := h.calling q hq
    refine ⟨hnone, hj, fun p hp => ?_⟩
    rw [hread] at hp
    split at hp
    · rw [hp] at hloop
      cases hloop
    · exact hreg p hp
  case idle =>
    intro v hv
    rw [hworlds]
    by_cases hvw : v = w
    · subst hvw
      rw [s.setWorld_self, hresumes]
      exact h.idle v hv
    · rw [s.setWorld_other hvw]
      exact h.idle v hv
  case resuming =>
    intro v g hg
    rw [hworlds]
    by_cases hvw : v = w
    · subst hvw
      rw [s.setWorld_self, hresumes]
      exact h.resuming v g hg
    · rw [s.setWorld_other hvw]
      exact h.resuming v g hg
  case wake =>
    intro p hp
    rw [hread] at hp
    have heq := hin (by rcases hp with hp | hp <;> (rw [hp]; decide))
    subst heq
    rw [if_pos rfl] at hp
    have hnot : ¬RunsAgain .park (s.worlds w).1 f := by
      rcases hpcs with ⟨hp', -⟩ | ⟨-, -, -, hnot⟩
      · rw [hp'] at hp
        rcases hp with hp | hp <;> cases hp
      · exact hnot
    have hcomes := h.wake (w, f) (.inl hold)
    have hsamePc : ((s.setWorld w x).setJoiner (w, f) pc).finisher =
        s.finisher := rfl
    unfold WakeComes at hcomes ⊢
    dsimp only at hcomes ⊢
    rw [hworlds, s.setWorld_self, hsamePc]
    cases hf : s.finisher with
    | body => trivial
    | exchange => trivial
    | call q =>
      rw [hf] at hcomes
      exact hcomes
    | resume q =>
      rw [hf] at hcomes
      obtain ⟨rfl, hfresh⟩ := hcomes
      obtain ⟨r, hr⟩ := h.resuming w f hf
      exact ⟨rfl, (trackedStep_fresh hx hr hfresh).resolve_right hnot⟩
    | finished =>
      rw [hf] at hcomes
      exact (trackedStep_owed hx hcomes).resolve_right hnot
  case abandoned =>
    intro p hp
    rw [hread]
    split
    · rename_i heq
      subst heq
      rcases h.abandoned _ hp with hout | hout <;> (rw [hold] at hout; cases hout)
    · exact h.abandoned p hp
  case live => exact h.live

/-- The cancelled fiber clears the slot and leaves. -/
theorem clear (h : JoinInv fin s)
    (hold : s.joiner (w, f) = .clear)
    (hslot : s.joinWaiter = some (w, f) ∨ s.finisher = .finished)
    (hx : trackedStep (.mask true) (s.worlds w) = some x) :
    JoinInv fin (({ s.setWorld w x with
      joinWaiter := none
      joined := false }.setAbandoned (w, f) true).setJoiner (w, f)
        .outside) := by
  obtain ⟨e, hstep⟩ := trackedStep_step hx
  have hresumes : x.1.resumes (some fin) =
      (s.worlds w).1.resumes (some fin) :=
    step_resumes hstep (by simp) (by simp)
  have hfinisher (q : W × F) : s.finisher ≠ .call q ∧
      s.finisher ≠ .resume q := by
    rcases hslot with hslot | hslot
    · constructor <;> intro hq
      · rw [(h.calling q (.inl hq)).1] at hslot
        cases hslot
      · rw [(h.calling q (.inr hq)).1] at hslot
        cases hslot
    · simp [hslot]
  obtain ⟨s', hs'⟩ : ∃ s', s' = (({ s.setWorld w x with
      joinWaiter := none
      joined := false } : JoinState W F T).setAbandoned (w, f)
        true).setJoiner (w, f) .outside := ⟨_, rfl⟩
  rw [← hs']
  have hall (q : W × F) : s'.joiner q = .outside := by
    rw [hs', joiner_setJoiner]
    split
    · rfl
    · rename_i hq
      exact h.others_outside hold (by decide) hq
  have hworlds : s'.worlds = (s.setWorld w x).worlds := by rw [hs']; rfl
  have hsamePc : s'.finisher = s.finisher := by rw [hs']; rfl
  constructor
  case kept =>
    intro v
    rw [hworlds]
    exact h.kept_setWorld hx (by simp) v
  case on_body =>
    intro v g hg
    rw [hall] at hg
    cases hg
  case off_body =>
    intro v g hg
    rw [hall] at hg
    cases hg
  case alive =>
    intro v g hg
    rw [hall] at hg
    cases hg
  case one => exact fun p _ hp _ => absurd (hall p) hp
  case held => exact fun p hp => absurd (hall p) hp
  case free =>
    intro hj
    rw [hs'] at hj
    cases hj
  case not_done =>
    intro hd
    rw [hsamePc]
    refine h.not_done ?_
    rw [hs'] at hd
    exact hd
  case waiter =>
    intro p hp
    rw [hs'] at hp
    cases hp
  case registered =>
    intro p hp
    rw [hall] at hp
    cases hp
  case calling =>
    intro q hq
    rw [hsamePc] at hq
    rcases hq with hq | hq
    · exact absurd hq (hfinisher q).1
    · exact absurd hq (hfinisher q).2
  case idle =>
    intro v hv
    rw [hsamePc] at hv
    rw [hworlds]
    by_cases hvw : v = w
    · subst hvw
      rw [s.setWorld_self, hresumes]
      exact h.idle v hv
    · rw [s.setWorld_other hvw]
      exact h.idle v hv
  case resuming =>
    intro v g hg
    rw [hsamePc] at hg
    exact absurd hg (hfinisher (v, g)).2
  case wake =>
    intro p hp
    rw [hall] at hp
    rcases hp with hp | hp <;> cases hp
  case abandoned => exact fun p _ => .inl (hall p)
  case live =>
    intro p _
    rw [hsamePc]
    exact hfinisher p

omit [DecidableEq T] in
/-- The steps behind the loop: the store, and `pthread_join`. -/
theorem behindLoop (h : JoinInv fin s)
    (hold : s.joiner (w, f) = old) (hne : old ≠ .outside)
    (hcode : ownCode old = true) {waiter : Option (W × F)} {completed : Bool}
    (hreg : old ≠ .register)
    (hpc : (pc = .reap ∧ waiter = none ∧ completed = s.completed) ∨
      (pc = .outside ∧ waiter = s.joinWaiter ∧ s.joinWaiter = none ∧
        completed = true)) :
    JoinInv fin ({ s with
      joinWaiter := waiter
      completed := completed }.setJoiner (w, f) pc) := by
  have hother {q : W × F} (hq : q ≠ (w, f)) := h.others_outside hold hne hq
  have hread (q : W × F) : (({ s with
      joinWaiter := waiter
      completed := completed } : JoinState W F T).setJoiner (w, f)
        pc).joiner q = if q = (w, f) then pc else s.joiner q :=
    joiner_setJoiner
  have hnone : waiter = none := by
    rcases hpc with ⟨-, hw, -⟩ | ⟨-, hw, hn, -⟩
    · exact hw
    · rw [hw, hn]
  have hall {q : W × F} {a : JoinPc}
      (hq : (if q = (w, f) then pc else s.joiner q) = a)
      (ha : a ≠ .outside) : q = (w, f) ∧ a = .reap := by
    by_cases heq : q = (w, f)
    · rw [if_pos heq] at hq
      rcases hpc with ⟨hp, -⟩ | ⟨hp, -⟩
      · exact ⟨heq, hq.symm.trans hp⟩
      · exact absurd (hq.symm.trans hp) ha
    · rw [if_neg heq, hother heq] at hq
      exact absurd hq.symm ha
  constructor
  case kept => exact h.kept
  case on_body =>
    intro v g hg
    rw [hread] at hg
    have heq := (hall rfl (by intro hout; rw [hout] at hg; cases hg)).1
    cases heq
    exact h.on_body w f (by rw [hold]; exact hcode)
  case off_body =>
    intro v g hg
    rw [hread] at hg
    cases (hall hg (by decide)).2
  case alive =>
    intro v g hg
    rw [hread] at hg
    cases (hall hg (by decide)).2
  case one =>
    intro p q hp hq
    rw [hread] at hp hq
    exact (hall rfl hp).1.trans (hall rfl hq).1.symm
  case held => exact fun _ _ => h.held (w, f) (by rw [hold]; exact hne)
  case free =>
    intro hj hc
    rcases hpc with ⟨hp, -, hcomp⟩ | ⟨-, -, -, hcomp⟩
    · exact ⟨(w, f), by rw [hread, if_pos rfl, hp]; decide⟩
    · have hfalse : completed = false := hc
      rw [hcomp] at hfalse
      cases hfalse
  case not_done => exact h.not_done
  case waiter =>
    intro p hp
    have hsome : waiter = some p := hp
    rw [hnone] at hsome
    cases hsome
  case registered =>
    intro p hp
    rw [hread] at hp
    have hreap := (hall rfl (by intro hout; rw [hout] at hp; cases hp)).2
    rw [hreap] at hp
    cases hp
  case calling =>
    intro q hq
    obtain ⟨-, hj, -⟩ := h.calling q hq
    refine ⟨hnone, hj, fun p hp => ?_⟩
    rw [hread] at hp
    cases (hall hp (by decide)).2
  case idle => exact h.idle
  case resuming => exact h.resuming
  case wake =>
    intro p hp
    rw [hread] at hp
    rcases hp with hp | hp <;> cases (hall hp (by decide)).2
  case abandoned =>
    intro p hp
    rw [hread]
    by_cases heq : p = (w, f)
    · subst heq
      rcases h.abandoned _ hp with hout | hout
      · exact absurd (hold.symm.trans hout) hne
      · exact absurd (hold.symm.trans hout) hreg
    · rw [if_neg heq]
      exact .inl (hother heq)
  case live => exact h.live

/-- The running fiber's next operation in its join. -/
theorem joinStep (h : JoinInv fin s) {w : W}
    (hallowed : ∀ f, (s.worlds w).1.worker = .on f .body →
      s.joiner (w, f) = .clear →
        s.joinWaiter = some (w, f) ∨ s.finisher = .finished)
    (hs : Fiber.joinStep w s = some s') : JoinInv fin s' := by
  unfold Fiber.joinStep at hs
  split at hs
  · rename_i f hbody
    cases hpc : s.joiner (w, f) with
    | outside => simp [hpc] at hs
    | parked => simp [hpc] at hs
    | register =>
      simp only [hpc] at hs
      cases hs
      exact h.register hpc
    | loadDone =>
      simp only [hpc] at hs
      cases hs
      cases hd : s.done with
      | true => exact h.move hpc rfl rfl rfl (.inr rfl) (by simp)
      | false =>
        exact h.move hpc rfl rfl rfl (.inl rfl) fun _ => h.not_done hd
    | park =>
      simp only [hpc, Option.map_eq_some_iff] at hs
      obtain ⟨x, hx, rfl⟩ := hs
      exact h.park hbody hpc hx
    | outcome =>
      simp only [hpc] at hs
      cases hs
      cases fiberCancelObservable (s.worlds w).1 f with
      | true => exact h.move hpc rfl rfl rfl (.inl rfl) (by simp)
      | false => exact h.move hpc rfl rfl rfl (.inl rfl) (by simp)
    | recheck =>
      simp only [hpc] at hs
      cases hs
      cases s.done with
      | true => exact h.move hpc rfl rfl rfl (.inl rfl) (by simp)
      | false => exact h.move hpc rfl rfl rfl (.inl rfl) (by simp)
    | clear =>
      simp only [hpc, Option.map_eq_some_iff] at hs
      obtain ⟨x, hx, rfl⟩ := hs
      exact h.clear hpc (hallowed f hbody hpc) hx
    | leave =>
      simp only [hpc] at hs
      cases hs
      exact h.behindLoop hpc (by decide) rfl (by decide)
        (.inl ⟨rfl, rfl, rfl⟩)
    | reap =>
      simp only [hpc] at hs
      split at hs
      · cases hs
        refine h.behindLoop hpc (by decide) rfl (by decide)
          (.inr ⟨rfl, rfl, ?_, rfl⟩)
        by_contra hsome
        obtain ⟨p, hp⟩ := Option.ne_none_iff_exists'.mp hsome
        have hw := h.waiter p hp
        by_cases heq : p = (w, f)
        · subst heq
          rw [hpc] at hw
          rcases hw with hw | hw <;> cases hw
        · rw [h.others_outside hpc (by decide) heq] at hw
          rcases hw with hw | hw <;> cases hw
      · cases hs
  · cases hs

omit [DecidableEq W] [DecidableEq T] in
theorem init (hs : joinInit s) : JoinInv fin s := by
  obtain ⟨hworlds, -, hwaiter, hjoined, hf, hout, habandoned, -⟩ := hs
  have hquiet (w : W) (a : Option T) : (s.worlds w).1.resumes a = none := by
    obtain ⟨-, hw | ⟨root, hw⟩⟩ := hworlds w <;> (rw [hw]; rfl)
  have hnone {p : W × F} {b : JoinPc} (hp : s.joiner p = b)
      (hb : b ≠ .outside) : False := hb (hp.symm.trans (hout p))
  constructor
  case kept => exact fun w => .init (hworlds w)
  case on_body =>
    intro w f hp
    rw [hout] at hp
    cases hp
  case off_body => exact fun w f hp => (hnone hp (by decide)).elim
  case alive => exact fun w f hp => (hnone hp (by decide)).elim
  case one => exact fun p _ hp => absurd (hout p) hp
  case held => exact fun p hp => absurd (hout p) hp
  case free =>
    intro hj
    rw [hjoined] at hj
    cases hj
  case not_done => exact fun _ => hf
  case waiter =>
    intro p hp
    rw [hwaiter] at hp
    cases hp
  case registered =>
    intro p hp
    rw [hout] at hp
    cases hp
  case calling =>
    rintro q (hq | hq) <;> (rw [hf] at hq; cases hq)
  case idle => exact fun w _ => hquiet w _
  case resuming =>
    intro w f hq
    rw [hf] at hq
    cases hq
  case wake =>
    rintro p (hp | hp) <;> exact (hnone hp (by decide)).elim
  case abandoned =>
    intro p hp
    rw [habandoned] at hp
    cases hp
  case live =>
    intro p hp
    rw [habandoned] at hp
    cases hp

/-- Every step that is allowed. -/
theorem step (h : JoinInv fin s) {act : JoinAction W F T}
    (hallowed : JoinAllowed act s)
    (hs : joinSystem fin act s = some s') : JoinInv fin s' := by
  cases act with
  | fiber w a => exact h.fiberStep (hallowed.1 w a rfl) hs
  | finisher => exact h.finisherStep hs
  | enter w => exact h.enterStep hs
  | join w =>
    exact h.joinStep (fun f hbody hpc => hallowed.2 w f rfl hbody hpc) hs

end JoinInv

/--
What the handshake promises: a joiner whose thread has finished is on its way
and not left parked; the finishing thread neither calls nor is inside a resume
of a fiber that left through cancellation; and a handle that no join has
completed and nobody is joining can be joined.
-/
structure JoinSafe (s : JoinState W F T) : Prop where
  not_parked : ∀ w f, s.finisher = .finished → s.joiner (w, f) = .parked →
    (∀ a, (s.worlds w).1.resumes a = none) →
      (s.worlds w).1.state f ≠ some .parked
  on_its_way : ∀ w f, s.finisher = .finished → s.joiner (w, f) = .parked →
    ∃ R I C, Queues (s.worlds w).1.queueNext (s.worlds w).1.ready
        (s.worlds w).1.inbox (taken (s.worlds w).1.worker) R I C ∧
      OnItsWay (s.worlds w).1 (· ∈ R ++ I ++ C) f
  never_after : ∀ p, s.abandoned p = true →
    s.finisher ≠ .call p ∧ s.finisher ≠ .resume p
  joinable : s.completed = false → (∀ p, s.joiner p = .outside) →
    s.joined = false ∧ s.joinWaiter = none

omit [DecidableEq W] [DecidableEq F] [DecidableEq T] in
theorem JoinInv.joinSafe {fin : T} {s : JoinState W F T}
    (h : JoinInv fin s) : JoinSafe s where
  not_parked := by
    intro w f hf hp hquiet hparked
    have howed := h.wake (w, f) (.inr hp)
    unfold WakeComes at howed
    rw [hf] at howed
    have hnot := (h.kept w).wakeSafe.not_stranded f hquiet hparked
    rw [hnot] at howed
    cases howed
  on_its_way := by
    intro w f hf hp
    have howed := h.wake (w, f) (.inr hp)
    unfold WakeComes at howed
    rw [hf] at howed
    obtain ⟨R, I, C, hq, hway⟩ := (h.kept w).wakeSafe.on_its_way
    exact ⟨R, I, C, hq, hway f howed⟩
  never_after := h.live
  joinable := by
    intro hc hout
    constructor
    · by_contra hj
      obtain ⟨p, hp⟩ := h.free (Bool.not_eq_false _ ▸ hj) hc
      exact hp (hout p)
    · by_contra hsome
      obtain ⟨p, hp⟩ := Option.ne_none_iff_exists'.mp hsome
      have hw := h.waiter p hp
      rw [hout] at hw
      rcases hw with hw | hw <;> cases hw

/-- On every run whose steps are all allowed the handshake keeps its promise. -/
theorem threadJoin_keepsHandshake (fin : T) (s : JoinState W F T)
    (hs : Reachable (joinSystem fin) joinInit JoinAllowed s) : JoinSafe s := by
  have hinv : JoinInv fin s :=
    hs.invariant (fun _ => JoinInv.init)
      fun _ _ _ h hallowed hstep => h.step hallowed hstep
  exact hinv.joinSafe

/-- A thread that is running and a promoted thread as the only fiber. -/
def joinStart : JoinState Unit Unit Bool where
  worlds _ := (State.bootstrapped (), History.initial)
  done := false
  joinWaiter := none
  joined := false
  finisher := .body
  joiner _ := .outside
  abandoned _ := false
  completed := false

theorem joinStart_init : joinInit joinStart :=
  ⟨fun _ => ⟨rfl, .inr ⟨(), rfl⟩⟩, rfl, rfl, rfl, rfl, fun _ => rfl,
    fun _ => rfl, rfl⟩

omit [DecidableEq W] [DecidableEq F] [DecidableEq T] in
/-- A join's step is allowed unless it clears the slot. -/
theorem JoinAllowed.join {s : JoinState W F T} {w : W}
    (hs : ∀ f, s.joiner (w, f) ≠ .clear) : JoinAllowed (.join w) s := by
  refine ⟨fun v a hact => ?_, ?_⟩
  · cases hact
  · rintro v f hact - hclear
    cases hact
    exact absurd hclear (hs f)

omit [DecidableEq W] [DecidableEq F] [DecidableEq T] in
/-- Steps that neither clear the slot nor settle a park. -/
theorem JoinAllowed.other {s : JoinState W F T} {act : JoinAction W F T}
    (hjoin : ∀ w, act ≠ .join w) (hwork : ∀ w, act ≠ .fiber w .work) :
    JoinAllowed act s := by
  refine ⟨?_, fun w f hact => absurd hact (hjoin w)⟩
  rintro w a rfl hact
  exact absurd (by rw [hact]) (hwork w)

/-- A fiber is at its park when the thread finishes and calls the resume. -/
theorem threadJoin_keepsHandshake_parking :
    ∃ s : JoinState Unit Unit Bool, JoinSafe s ∧
      s.finisher = .resume ((), ()) ∧ s.joiner ((), ()) = .parked := by
  have hstart : Reachable (joinSystem true) joinInit JoinAllowed joinStart :=
    .start joinStart_init
  have henter := hstart.step (.enter ())
    (JoinAllowed.other (by simp) (by simp)) rfl
  have hregister := henter.step (.join ())
    (JoinAllowed.join (by intro f hf; cases hf)) rfl
  have hload := hregister.step (.join ())
    (JoinAllowed.join (by intro f hf; cases hf)) rfl
  have hpark := hload.step (.join ())
    (JoinAllowed.join (by intro f hf; cases hf)) rfl
  have hdone := hpark.step .finisher
    (JoinAllowed.other (by simp) (by simp)) rfl
  have hexchange := hdone.step .finisher
    (JoinAllowed.other (by simp) (by simp)) rfl
  have hcall := hexchange.step .finisher
    (JoinAllowed.other (by simp) (by simp)) rfl
  exact ⟨_, threadJoin_keepsHandshake true _ hcall, rfl, rfl⟩

/-- The thread finishes between the cancelled fiber's load of `done` and its
store to `join_waiter`. -/
def resumeAfterCancelRun : List (JoinAction Unit Unit Bool) :=
  [.enter (), .join (), .join (), .fiber () (.call (some false) () true),
    .join (), .join (), .finisher, .finisher, .join ()]

/-- The thread finishes between the consumed latch and the compare-and-swap of
the joiner's park. -/
def joinerStrandedRun : List (JoinAction Unit Unit Bool) :=
  [.enter (), .join (), .join (), .join (), .fiber () .work,
    .fiber () .work, .fiber () .work, .finisher, .finisher, .finisher,
    .finisher, .finisher, .finisher, .fiber () .work]

/-- The finishing thread is about to resume a fiber that has left through
cancellation; and a joiner is left parked after the thread has finished. -/
theorem threadJoin_breaksHandshake :
    (∃ s : JoinState Unit Unit Bool,
      Reachable (joinSystem true) joinInit anyStep s ∧
      s.abandoned ((), ()) = true ∧ s.finisher = .call ((), ()) ∧
      ∃ s', joinSystem true .finisher s = some s' ∧
        s'.finisher = .resume ((), ())) ∧
    ∃ s : JoinState Unit Unit Bool,
      Reachable (joinSystem true) joinInit anyStep s ∧
      s.finisher = .finished ∧ s.joiner ((), ()) = .parked ∧
      (s.worlds ()).1.state () = some .parked ∧
      (∀ a, (s.worlds ()).1.resumes a = none) ∧
      (s.worlds ()).1.ready = Line.empty ∧
      (s.worlds ()).1.inbox = Line.empty := by
  have hstart : Reachable (joinSystem true) joinInit anyStep joinStart :=
    .start joinStart_init
  constructor
  · have hrun : ∃ s, StepSystem.run (joinSystem true) resumeAfterCancelRun
        joinStart = some s ∧ s.abandoned ((), ()) = true ∧
        s.finisher = .call ((), ()) ∧
        ∃ s', joinSystem true .finisher s = some s' ∧
          s'.finisher = .resume ((), ()) := ⟨_, rfl, rfl, rfl, _, rfl, rfl⟩
    obtain ⟨s, hs, hrest⟩ := hrun
    exact ⟨s, hstart.run _ hs, hrest⟩
  · have hrun : ∃ s, StepSystem.run (joinSystem true) joinerStrandedRun
        joinStart = some s ∧ s.finisher = .finished ∧
        s.joiner ((), ()) = .parked ∧
        (s.worlds ()).1.state () = some .parked ∧
        (s.worlds ()).1.resumes none = none ∧
        (s.worlds ()).1.resumes (some true) = none ∧
        (s.worlds ()).1.resumes (some false) = none ∧
        (s.worlds ()).1.ready = Line.empty ∧
        (s.worlds ()).1.inbox = Line.empty :=
      ⟨_, rfl, rfl, rfl, rfl, rfl, rfl, rfl, rfl, rfl⟩
    obtain ⟨s, hs, hf, hp, hstate, hnone, htrue, hfalse, hqueues⟩ := hrun
    refine ⟨s, Reachable.run _ hstart hs, hf, hp, hstate, ?_, hqueues⟩
    rintro (_ | (_ | _))
    · exact hnone
    · exact hfalse
    · exact htrue

end Fiber
end Beans
