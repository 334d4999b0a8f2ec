import Beans.Fiber.Wake

/-!
# Where every fiber is

A fiber that is ready or running is in exactly one place: linked in the ready
queue, in the inbox or in a chain just taken from the inbox, or in the hands of
the worker, or in the hands of one resumer.  `Queues` is about the links,
`Control` about the program counters; every step of the worker and of a resumer
keeps both.
-/

namespace Beans
namespace Fiber

open IntrusiveQueue

variable {F T : Type*}

/-- The two queues and the taken chain share the link field and stand for
disjoint lists. -/
structure Queues (next : F → Option F) (ready inbox : Line F)
    (chain : Option F) (R I C : List F) : Prop where
  ready : Linked next ready R
  inbox : Linked next inbox I
  chain : Chain next chain C
  nodup : (R ++ I ++ C).Nodup

namespace Queues

variable {next : F → Option F} {ready inbox : Line F} {chain : Option F}
  {R I C : List F}

theorem parts (h : Queues next ready inbox chain R I C) :
    R.Disjoint I ∧ R.Disjoint C ∧ I.Disjoint C ∧ C.Nodup := by
  obtain ⟨hRI, hC, hRC⟩ := List.nodup_append'.mp h.nodup
  obtain ⟨-, -, hdis⟩ := List.nodup_append'.mp hRI
  exact ⟨hdis, fun x hx hxC => hRC (List.mem_append_left I hx) hxC,
    fun x hx hxC => hRC (List.mem_append_right R hx) hxC, hC⟩

theorem notMem_iff {f : F} :
    f ∉ R ++ I ++ C ↔ f ∉ R ∧ f ∉ I ∧ f ∉ C := by
  simp

theorem pushReady [DecidableEq F] (h : Queues next ready inbox chain R I C) {f : F}
    (hf : f ∉ R ++ I ++ C) :
    Queues (pushNext next ready f) (pushLine ready f) inbox chain (R ++ [f])
      I C := by
  obtain ⟨hR, hI, hC⟩ := notMem_iff.mp hf
  obtain ⟨hRI, hRC, -, -⟩ := h.parts
  refine ⟨h.ready.push hR, h.ready.push_other h.inbox hRI hI,
    h.chain.congr fun y hy => pushNext_of_notMem h.ready
      (fun hyR => hRC hyR hy) (ne_of_mem_of_not_mem hy hC), ?_⟩
  have hperm : (R ++ [f] ++ I ++ C).Perm (f :: (R ++ I ++ C)) := by
    rw [List.append_assoc R, List.append_assoc R, List.append_assoc R]
    exact List.perm_middle
  rw [hperm.nodup_iff, List.nodup_cons]
  exact ⟨hf, h.nodup⟩

theorem pushInbox [DecidableEq F] (h : Queues next ready inbox chain R I C) {f : F}
    (hf : f ∉ R ++ I ++ C) :
    Queues (pushNext next inbox f) ready (pushLine inbox f) chain R
      (I ++ [f]) C := by
  obtain ⟨hR, hI, hC⟩ := notMem_iff.mp hf
  obtain ⟨hRI, -, hIC, -⟩ := h.parts
  refine ⟨h.inbox.push_other h.ready hRI.symm hR, h.inbox.push hI,
    h.chain.congr fun y hy => pushNext_of_notMem h.inbox
      (fun hyI => hIC hyI hy) (ne_of_mem_of_not_mem hy hC), ?_⟩
  have hperm : (R ++ (I ++ [f]) ++ C).Perm (f :: (R ++ I ++ C)) := by
    rw [← List.append_assoc R I [f], List.append_assoc (R ++ I) [f] C]
    exact List.perm_middle
  rw [hperm.nodup_iff, List.nodup_cons]
  exact ⟨hf, h.nodup⟩

theorem chain_none (h : Queues next ready inbox none R I C) : C = [] := by
  cases C with
  | nil => rfl
  | cons x xs => exact absurd h.chain.1 (by simp)

/-- The inbox is taken as a chain. -/
theorem take (h : Queues next ready inbox none R I []) :
    Queues next ready Line.empty inbox.head R [] I := by
  refine ⟨h.ready, Linked.empty next, h.inbox.chain, ?_⟩
  have := h.nodup
  simpa using this

/-- The head of the chain goes into the ready queue. -/
theorem shift [DecidableEq F] {f : F} (h : Queues next ready inbox (some f) R I C) :
    ∃ C', C = f :: C' ∧
      Queues (pushNext next ready f) (pushLine ready f) inbox (next f)
        (R ++ [f]) I C' := by
  cases C with
  | nil => exact absurd h.chain (by simp [Chain])
  | cons x C' =>
    obtain ⟨hx, hchain⟩ := h.chain
    obtain rfl : f = x := Option.some_inj.mp hx
    have hperm : (R ++ I ++ f :: C').Perm (f :: (R ++ I ++ C')) :=
      List.perm_middle
    have hnd := hperm.nodup_iff.mp h.nodup
    obtain ⟨hf, hrest⟩ := List.nodup_cons.mp hnd
    have hq : Queues next ready inbox (next f) R I C' :=
      ⟨h.ready, h.inbox, hchain, hrest⟩
    exact ⟨C', rfl, hq.pushReady hf⟩

/-- The head of the ready queue is popped. -/
theorem popReady [DecidableEq F] {f : F} (h : Queues next ready inbox chain R I C)
    (hf : ready.head = some f) :
    ∃ R', R = f :: R' ∧
      Queues (Function.update next f none) (popLine next ready f) inbox chain
        R' I C := by
  rw [h.ready.head_eq] at hf
  cases R with
  | nil => cases hf
  | cons x R' =>
    obtain rfl : x = f := Option.some_inj.mp hf
    have hnd := h.nodup
    rw [List.cons_append, List.cons_append, List.nodup_cons] at hnd
    obtain ⟨-, hI, hC⟩ := notMem_iff.mp hnd.1
    exact ⟨R', rfl, h.ready.pop, h.inbox.update_other hI none,
      h.chain.update_other hC none, hnd.2⟩

end Queues

/-- The state a fiber has while the worker stands at a place on its behalf. -/
def phase : FiberPc → FiberState
  | .start => .ready
  | .settlePush => .ready
  | .settleExchange => .parking
  | .settleCas => .parking
  | .settleReady => .parking
  | .settleDone => .parking
  | _ => .running

/-- A fiber that has to be somewhere. -/
def Loose (st : Option FiberState) : Prop :=
  st = some .ready ∨ st = some .running ∨ st = some .parking

/-- The states and the program counters agree, `Q` being the queued fibers. -/
structure Control (s : State F T) (Q : F → Prop) : Prop where
  queued : ∀ f, Q f → s.state f = some .ready
  on_state : ∀ f p, s.worker = .on f p → s.state f = some (phase p)
  on_free : ∀ f p, s.worker = .on f p → ¬ Q f
  push_state : ∀ a f, s.resumes a = some (f, .push) → s.state f = some .ready
  push_free : ∀ a f, s.resumes a = some (f, .push) → ¬ Q f
  push_off : ∀ a f p, s.resumes a = some (f, .push) → s.worker ≠ .on f p
  push_unique : ∀ a b f, s.resumes a = some (f, .push) →
    s.resumes b = some (f, .push) → a = b
  located : ∀ f, Loose (s.state f) →
    Q f ∨ (∃ p, s.worker = .on f p) ∨ ∃ a, s.resumes a = some (f, .push)

namespace Control

variable {s s' : State F T} {Q Q' : F → Prop} {f : F}

variable {p : FiberPc} {q : SchedPc F} {a : Option T}

/-- The worker goes on for the same fiber. -/
theorem advance [DecidableEq F] (h : Control s Q) {q : FiberPc} (hw : s.worker = .on f p)
    (hstate : s'.state = Function.update s.state f (some (phase q)))
    (hw' : s'.worker = .on f q) (hr : s'.resumes = s.resumes) :
    Control s' Q := by
  have hne : ∀ g, Q g → g ≠ f := fun g hg hgf =>
    h.on_free f p hw (hgf ▸ hg)
  have hpush : ∀ a g, s.resumes a = some (g, .push) → g ≠ f :=
    fun a g ha hgf => h.push_off a g p ha (hgf ▸ hw)
  refine ⟨?_, ?_, ?_, ?_, ?_, ?_, ?_, ?_⟩
  · intro g hg
    rw [hstate, Function.update_of_ne (hne g hg)]
    exact h.queued g hg
  · intro g r hg
    rw [hw'] at hg
    cases hg
    rw [hstate, Function.update_self]
  · intro g r hg
    rw [hw'] at hg
    cases hg
    exact h.on_free f p hw
  · intro a g ha
    rw [hr] at ha
    rw [hstate, Function.update_of_ne (hpush a g ha)]
    exact h.push_state a g ha
  · intro a g ha
    rw [hr] at ha
    exact h.push_free a g ha
  · intro a g r ha hg
    rw [hr] at ha
    rw [hw'] at hg
    cases hg
    exact hpush a f ha rfl
  · rw [hr]
    exact h.push_unique
  · intro g hg
    by_cases hgf : g = f
    · subst hgf
      exact Or.inr (Or.inl ⟨q, hw'⟩)
    · rw [hstate, Function.update_of_ne hgf] at hg
      rcases h.located g hg with hQ | ⟨r, hr'⟩ | ⟨a, ha⟩
      · exact Or.inl hQ
      · rw [hw] at hr'
        cases hr'
        exact absurd rfl hgf
      · exact Or.inr (Or.inr ⟨a, by rw [hr]; exact ha⟩)

/-- The worker is done with a fiber that is not ready. -/
theorem leave [DecidableEq F] (h : Control s Q) {st : FiberState}
    (hw : s.worker = .on f p)
    (hstate : s'.state = Function.update s.state f (some st))
    (hst : st = .parked ∨ st = .done) (hw' : s'.worker = .sched q)
    (hr : s'.resumes = s.resumes) : Control s' Q := by
  have hne : ∀ g, Q g → g ≠ f := fun g hg hgf =>
    h.on_free f p hw (hgf ▸ hg)
  have hpush : ∀ a g, s.resumes a = some (g, .push) → g ≠ f :=
    fun a g ha hgf => h.push_off a g p ha (hgf ▸ hw)
  have hoff : ∀ g r, s'.worker ≠ .on g r := fun g r hg => by
    rw [hw'] at hg
    cases hg
  refine ⟨?_, fun g r hg => absurd hg (hoff g r),
    fun g r hg => absurd hg (hoff g r), ?_, ?_, fun a g r _ => hoff g r, ?_, ?_⟩
  · intro g hg
    rw [hstate, Function.update_of_ne (hne g hg)]
    exact h.queued g hg
  · intro a g ha
    rw [hr] at ha
    rw [hstate, Function.update_of_ne (hpush a g ha)]
    exact h.push_state a g ha
  · intro a g ha
    rw [hr] at ha
    exact h.push_free a g ha
  · rw [hr]
    exact h.push_unique
  · intro g hg
    by_cases hgf : g = f
    · rw [hgf, hstate, Function.update_self] at hg
      rcases hst with rfl | rfl <;> simp [Loose] at hg
    · rw [hstate, Function.update_of_ne hgf] at hg
      rcases h.located g hg with hQ | ⟨r, hr'⟩ | ⟨a, ha⟩
      · exact Or.inl hQ
      · rw [hw] at hr'
        cases hr'
        exact absurd rfl hgf
      · exact Or.inr (Or.inr ⟨a, by rw [hr]; exact ha⟩)

/-- The worker puts its ready fiber into a queue. -/
theorem unload (h : Control s Q)
    (hw : s.worker = .on f p) (hp : phase p = .ready)
    (hstate : s'.state = s.state) (hw' : s'.worker = .sched q)
    (hr : s'.resumes = s.resumes) (hQ : ∀ g, Q' g ↔ Q g ∨ g = f) :
    Control s' Q' := by
  have hpush : ∀ a g, s.resumes a = some (g, .push) → g ≠ f :=
    fun a g ha hgf => h.push_off a g p ha (hgf ▸ hw)
  have hoff : ∀ g r, s'.worker ≠ .on g r := fun g r hg => by
    rw [hw'] at hg
    cases hg
  refine ⟨?_, fun g r hg => absurd hg (hoff g r),
    fun g r hg => absurd hg (hoff g r), ?_, ?_, fun a g r _ => hoff g r, ?_, ?_⟩
  · intro g hg
    rw [hstate]
    rcases (hQ g).mp hg with hg | rfl
    · exact h.queued g hg
    · rw [h.on_state g p hw, hp]
  · intro a g ha
    rw [hr] at ha
    rw [hstate]
    exact h.push_state a g ha
  · intro a g ha hg
    rw [hr] at ha
    rcases (hQ g).mp hg with hg | rfl
    · exact h.push_free a g ha hg
    · exact hpush a g ha rfl
  · rw [hr]
    exact h.push_unique
  · intro g hg
    rw [hstate] at hg
    rcases h.located g hg with hg | ⟨r, hr'⟩ | ⟨a, ha⟩
    · exact Or.inl ((hQ g).mpr (Or.inl hg))
    · rw [hw] at hr'
      cases hr'
      exact Or.inl ((hQ f).mpr (Or.inr rfl))
    · exact Or.inr (Or.inr ⟨a, by rw [hr]; exact ha⟩)

/-- The worker takes a fiber out of a queue. -/
theorem load (h : Control s Q) (hw : s.worker = .sched q)
    (hf : Q f) (hstate : s'.state = s.state) (hw' : s'.worker = .on f .start)
    (hr : s'.resumes = s.resumes) (hQ : ∀ g, Q' g ↔ Q g ∧ g ≠ f) :
    Control s' Q' := by
  refine ⟨?_, ?_, ?_, ?_, ?_, ?_, ?_, ?_⟩
  · intro g hg
    rw [hstate]
    exact h.queued g ((hQ g).mp hg).1
  · intro g r hg
    rw [hw'] at hg
    cases hg
    rw [hstate]
    exact h.queued f hf
  · intro g r hg hgQ
    rw [hw'] at hg
    cases hg
    exact ((hQ f).mp hgQ).2 rfl
  · intro a g ha
    rw [hr] at ha
    rw [hstate]
    exact h.push_state a g ha
  · intro a g ha hg
    rw [hr] at ha
    exact h.push_free a g ha ((hQ g).mp hg).1
  · intro a g r ha hg
    rw [hr] at ha
    rw [hw'] at hg
    cases hg
    exact h.push_free a f ha hf
  · rw [hr]
    exact h.push_unique
  · intro g hg
    rw [hstate] at hg
    by_cases hgf : g = f
    · subst hgf
      exact Or.inr (Or.inl ⟨.start, hw'⟩)
    · rcases h.located g hg with hg | ⟨r, hr'⟩ | ⟨a, ha⟩
      · exact Or.inl ((hQ g).mpr ⟨hg, hgf⟩)
      · rw [hw] at hr'
        cases hr'
      · exact Or.inr (Or.inr ⟨a, by rw [hr]; exact ha⟩)

/-- Steps that leave states, queues and hands as they are. -/
theorem same (h : Control s Q) (hstate : s'.state = s.state)
    (hon : ∀ g r, s'.worker = .on g r ↔ s.worker = .on g r)
    (hpush : ∀ a g, s'.resumes a = some (g, .push) ↔
      s.resumes a = some (g, .push))
    (hQ : ∀ g, Q' g ↔ Q g) : Control s' Q' := by
  refine ⟨?_, ?_, ?_, ?_, ?_, ?_, ?_, ?_⟩
  · rw [hstate]
    exact fun g hg => h.queued g ((hQ g).mp hg)
  · intro g r hg
    rw [hstate]
    exact h.on_state g r ((hon g r).mp hg)
  · intro g r hg hgQ
    exact h.on_free g r ((hon g r).mp hg) ((hQ g).mp hgQ)
  · intro a g ha
    rw [hstate]
    exact h.push_state a g ((hpush a g).mp ha)
  · intro a g ha hg
    exact h.push_free a g ((hpush a g).mp ha) ((hQ g).mp hg)
  · intro a g r ha hg
    exact h.push_off a g r ((hpush a g).mp ha) ((hon g r).mp hg)
  · intro a b g ha hb
    exact h.push_unique a b g ((hpush a g).mp ha) ((hpush b g).mp hb)
  · intro g hg
    rw [hstate] at hg
    rcases h.located g hg with hg | ⟨r, hr⟩ | ⟨a, ha⟩
    · exact Or.inl ((hQ g).mpr hg)
    · exact Or.inr (Or.inl ⟨r, (hon g r).mpr hr⟩)
    · exact Or.inr (Or.inr ⟨a, (hpush a g).mpr ha⟩)

/-- A fiber is spawned into a queue. -/
theorem spawn [DecidableEq F] (h : Control s Q) (hnone : s.state f = none)
    (hstate : s'.state = Function.update s.state f (some .ready))
    (hw' : s'.worker = s.worker) (hr : s'.resumes = s.resumes)
    (hQ : ∀ g, Q' g ↔ Q g ∨ g = f) : Control s' Q' := by
  have hon : ∀ g r, s.worker = .on g r → g ≠ f := by
    intro g r hg hgf
    have := h.on_state g r hg
    rw [hgf, hnone] at this
    cases this
  have hpush : ∀ a g, s.resumes a = some (g, .push) → g ≠ f := by
    intro a g ha hgf
    have := h.push_state a g ha
    rw [hgf, hnone] at this
    cases this
  refine ⟨?_, ?_, ?_, ?_, ?_, ?_, ?_, ?_⟩
  · intro g hg
    rw [hstate]
    by_cases hgf : g = f
    · rw [hgf, Function.update_self]
    · rw [Function.update_of_ne hgf]
      exact h.queued g (((hQ g).mp hg).resolve_right hgf)
  · intro g r hg
    rw [hw'] at hg
    rw [hstate, Function.update_of_ne (hon g r hg)]
    exact h.on_state g r hg
  · intro g r hg hgQ
    rw [hw'] at hg
    rcases (hQ g).mp hgQ with hgQ | hgf
    · exact h.on_free g r hg hgQ
    · exact hon g r hg hgf
  · intro a g ha
    rw [hr] at ha
    rw [hstate, Function.update_of_ne (hpush a g ha)]
    exact h.push_state a g ha
  · intro a g ha hg
    rw [hr] at ha
    rcases (hQ g).mp hg with hg | hgf
    · exact h.push_free a g ha hg
    · exact hpush a g ha hgf
  · intro a g r ha
    rw [hr] at ha
    rw [hw']
    exact h.push_off a g r ha
  · rw [hr]
    exact h.push_unique
  · intro g hg
    by_cases hgf : g = f
    · exact Or.inl ((hQ g).mpr (Or.inr hgf))
    · rw [hstate, Function.update_of_ne hgf] at hg
      rcases h.located g hg with hg | ⟨r, hr'⟩ | ⟨a, ha⟩
      · exact Or.inl ((hQ g).mpr (Or.inl hg))
      · exact Or.inr (Or.inl ⟨r, by rw [hw']; exact hr'⟩)
      · exact Or.inr (Or.inr ⟨a, by rw [hr]; exact ha⟩)

/-- A resumer wins the compare-and-swap and holds the fiber. -/
theorem grab [DecidableEq F] [DecidableEq T] (h : Control s Q)
    (ha : ∀ g, s.resumes a ≠ some (g, .push))
    (hparked : s.state f = some .parked)
    (hstate : s'.state = Function.update s.state f (some .ready))
    (hw' : s'.worker = s.worker)
    (hr : s'.resumes = Function.update s.resumes a (some (f, .push))) :
    Control s' Q := by
  have hQ : ∀ g, Q g → g ≠ f := by
    intro g hg hgf
    have := h.queued g hg
    rw [hgf, hparked] at this
    cases this
  have hon : ∀ g r, s.worker = .on g r → g ≠ f := by
    intro g r hg hgf
    have := h.on_state g r hg
    rw [hgf, hparked] at this
    cases r <;> cases this
  have hpush : ∀ b g, s'.resumes b = some (g, .push) →
      (b = a ∧ g = f) ∨ (b ≠ a ∧ g ≠ f ∧ s.resumes b = some (g, .push)) := by
    intro b g hb
    rw [hr] at hb
    by_cases hba : b = a
    · rw [hba, Function.update_self] at hb
      cases hb
      exact Or.inl ⟨hba, rfl⟩
    · rw [Function.update_of_ne hba] at hb
      refine Or.inr ⟨hba, ?_, hb⟩
      intro hgf
      have := h.push_state b g hb
      rw [hgf, hparked] at this
      cases this
  refine ⟨?_, ?_, ?_, ?_, ?_, ?_, ?_, ?_⟩
  · intro g hg
    rw [hstate, Function.update_of_ne (hQ g hg)]
    exact h.queued g hg
  · intro g r hg
    rw [hw'] at hg
    rw [hstate, Function.update_of_ne (hon g r hg)]
    exact h.on_state g r hg
  · intro g r hg
    rw [hw'] at hg
    exact h.on_free g r hg
  · intro b g hb
    rw [hstate]
    rcases hpush b g hb with ⟨-, rfl⟩ | ⟨-, hgf, hb'⟩
    · exact Function.update_self _ _ _
    · rw [Function.update_of_ne hgf]
      exact h.push_state b g hb'
  · intro b g hb hg
    rcases hpush b g hb with ⟨-, hgf⟩ | ⟨-, -, hb'⟩
    · exact hQ g hg hgf
    · exact h.push_free b g hb' hg
  · intro b g r hb hg
    rw [hw'] at hg
    rcases hpush b g hb with ⟨-, hgf⟩ | ⟨-, -, hb'⟩
    · exact hon g r hg hgf
    · exact h.push_off b g r hb' hg
  · intro b c g hb hc
    rcases hpush b g hb with ⟨hb', hgf⟩ | ⟨-, hgf, hb'⟩ <;>
      rcases hpush c g hc with ⟨hc', hgf'⟩ | ⟨-, hgf', hc'⟩
    · rw [hb', hc']
    · exact absurd hgf hgf'
    · exact absurd hgf' hgf
    · exact h.push_unique b c g hb' hc'
  · intro g hg
    by_cases hgf : g = f
    · refine Or.inr (Or.inr ⟨a, ?_⟩)
      rw [hr, Function.update_self, hgf]
    · rw [hstate, Function.update_of_ne hgf] at hg
      rcases h.located g hg with hg | ⟨r, hr'⟩ | ⟨b, hb⟩
      · exact Or.inl hg
      · exact Or.inr (Or.inl ⟨r, by rw [hw']; exact hr'⟩)
      · refine Or.inr (Or.inr ⟨b, ?_⟩)
        have hba : b ≠ a := fun hba => ha g (hba ▸ hb)
        rw [hr, Function.update_of_ne hba]
        exact hb

/-- A resumer puts its fiber into a queue. -/
theorem handOver (h : Control s Q)
    (ha : s.resumes a = some (f, .push)) (hstate : s'.state = s.state)
    (hw' : s'.worker = s.worker)
    (hr : ∀ b, b ≠ a → s'.resumes b = s.resumes b)
    (hra : ∀ g, s'.resumes a ≠ some (g, .push))
    (hQ : ∀ g, Q' g ↔ Q g ∨ g = f) : Control s' Q' := by
  have hpush : ∀ b g, s'.resumes b = some (g, .push) →
      b ≠ a ∧ s.resumes b = some (g, .push) := by
    intro b g hb
    by_cases hba : b = a
    · rw [hba] at hb
      exact absurd hb (hra g)
    · rw [hr b hba] at hb
      exact ⟨hba, hb⟩
  refine ⟨?_, ?_, ?_, ?_, ?_, ?_, ?_, ?_⟩
  · intro g hg
    rw [hstate]
    rcases (hQ g).mp hg with hg | rfl
    · exact h.queued g hg
    · exact h.push_state a g ha
  · rw [hstate, hw']
    exact h.on_state
  · intro g r hg hgQ
    rw [hw'] at hg
    rcases (hQ g).mp hgQ with hgQ | rfl
    · exact h.on_free g r hg hgQ
    · exact h.push_off a g r ha hg
  · intro b g hb
    rw [hstate]
    exact h.push_state b g (hpush b g hb).2
  · intro b g hb hg
    obtain ⟨hba, hb⟩ := hpush b g hb
    rcases (hQ g).mp hg with hg | rfl
    · exact h.push_free b g hb hg
    · exact hba (h.push_unique b a g hb ha)
  · intro b g r hb
    rw [hw']
    exact h.push_off b g r (hpush b g hb).2
  · intro b c g hb hc
    exact h.push_unique b c g (hpush b g hb).2 (hpush c g hc).2
  · intro g hg
    rw [hstate] at hg
    rcases h.located g hg with hg | ⟨r, hr'⟩ | ⟨b, hb⟩
    · exact Or.inl ((hQ g).mpr (Or.inl hg))
    · exact Or.inr (Or.inl ⟨r, by rw [hw']; exact hr'⟩)
    · by_cases hba : b = a
      · rw [hba, ha] at hb
        cases hb
        exact Or.inl ((hQ f).mpr (Or.inr rfl))
      · exact Or.inr (Or.inr ⟨b, by rw [hr b hba]; exact hb⟩)

end Control

/-- The fibers just taken from the inbox and not yet moved. -/
def taken : WorkerPc F → Option F
  | .sched (.moving c) => c
  | _ => none

/-- Every fiber that has to be somewhere is in exactly one place. -/
def Placed (s : State F T) : Prop :=
  ∃ R I C, Queues s.queueNext s.ready s.inbox (taken s.worker) R I C ∧
    Control s (· ∈ R ++ I ++ C)

namespace Placed

variable {s s' : State F T}

/-- A step that leaves queues, states and hands as they are. -/
theorem same (h : Placed s) (hnext : s'.queueNext = s.queueNext)
    (hready : s'.ready = s.ready) (hinbox : s'.inbox = s.inbox)
    (htaken : taken s'.worker = taken s.worker)
    (hstate : s'.state = s.state)
    (hon : ∀ g r, s'.worker = .on g r ↔ s.worker = .on g r)
    (hpush : ∀ a g, s'.resumes a = some (g, .push) ↔
      s.resumes a = some (g, .push)) : Placed s' := by
  obtain ⟨R, I, C, hq, hc⟩ := h
  refine ⟨R, I, C, ?_, hc.same hstate hon hpush fun _ => Iff.rfl⟩
  rw [hnext, hready, hinbox, htaken]
  exact hq

variable [DecidableEq F]

/-- The worker goes on for its fiber and touches no queue. -/
theorem advance (h : Placed s) {f : F} {p q : FiberPc}
    (hw : s.worker = .on f p) (hnext : s'.queueNext = s.queueNext)
    (hready : s'.ready = s.ready) (hinbox : s'.inbox = s.inbox)
    (hstate : s'.state = Function.update s.state f (some (phase q)))
    (hw' : s'.worker = .on f q) (hr : s'.resumes = s.resumes) :
    Placed s' := by
  obtain ⟨R, I, C, hq, hc⟩ := h
  refine ⟨R, I, C, ?_, hc.advance hw hstate hw' hr⟩
  rw [hnext, hready, hinbox, hw']
  rw [hw] at hq
  exact hq

/-- The worker goes on within one phase of its fiber. -/
theorem stay (h : Placed s) {f : F} {p q : FiberPc}
    (hw : s.worker = .on f p) (hnext : s'.queueNext = s.queueNext)
    (hready : s'.ready = s.ready) (hinbox : s'.inbox = s.inbox)
    (hstate : s'.state = s.state) (hw' : s'.worker = .on f q)
    (hr : s'.resumes = s.resumes) (hpq : phase q = phase p) :
    Placed s' := by
  refine h.advance hw hnext hready hinbox ?_ hw' hr
  obtain ⟨R, I, C, -, hc⟩ := h
  rw [hpq, ← hc.on_state f p hw, Function.update_eq_self]
  exact hstate

/-- The worker is done with a fiber that is parked or has finished. -/
theorem leave (h : Placed s) {f : F} {p : FiberPc} {st : FiberState}
    (hw : s.worker = .on f p) (hst : st = .parked ∨ st = .done) :
    Placed ((s.setState f st).goto (.sched .loop)) := by
  obtain ⟨R, I, C, hq, hc⟩ := h
  rw [hw] at hq
  exact ⟨R, I, C, hq, hc.leave hw rfl hst rfl rfl⟩

end Placed

theorem mem_pushReady {R I C : List F} {f g : F} :
    g ∈ R ++ [f] ++ I ++ C ↔ g ∈ R ++ I ++ C ∨ g = f := by
  simp only [List.mem_append, List.mem_singleton]
  tauto

theorem mem_pushInbox {R I C : List F} {f g : F} :
    g ∈ R ++ (I ++ [f]) ++ C ↔ g ∈ R ++ I ++ C ∨ g = f := by
  simp only [List.mem_append, List.mem_singleton]
  tauto

namespace Placed

variable {s s' : State F T}

theorem workStep [DecidableEq F] (h : Placed s) {e : Option F}
    (hs : Fiber.workStep s = some (s', e)) : Placed s' := by
  cases hw : s.worker with
  | on f p =>
    cases p with
    | start =>
      simp only [Fiber.workStep, hw, Option.some.injEq,
        Prod.mk.injEq] at hs
      obtain ⟨rfl, -⟩ := hs
      exact h.advance hw rfl rfl rfl rfl rfl rfl
    | body => simp [Fiber.workStep, hw] at hs
    | parkExchange =>
      simp only [Fiber.workStep, hw] at hs
      split at hs <;> cases hs
      · exact h.stay hw rfl rfl rfl rfl rfl rfl rfl
      · exact h.stay hw rfl rfl rfl rfl rfl rfl rfl
    | parkStore =>
      simp only [Fiber.workStep, hw] at hs
      cases hs
      exact h.advance hw rfl rfl rfl rfl rfl rfl
    | yieldStore =>
      simp only [Fiber.workStep, hw] at hs
      cases hs
      exact h.advance hw rfl rfl rfl rfl rfl rfl
    | settleExchange =>
      simp only [Fiber.workStep, hw] at hs
      cases hs
      refine h.stay hw rfl rfl rfl rfl rfl rfl ?_
      split <;> rfl
    | settleCas =>
      simp only [Fiber.workStep, hw] at hs
      split at hs <;> cases hs
      · exact h.leave hw (Or.inl rfl)
      · exact h.stay hw rfl rfl rfl rfl rfl rfl rfl
    | settleReady =>
      simp only [Fiber.workStep, hw] at hs
      cases hs
      exact h.advance hw rfl rfl rfl rfl rfl rfl
    | settlePush =>
      simp only [Fiber.workStep, hw] at hs
      cases hs
      obtain ⟨R, I, C, hq, hc⟩ := h
      rw [hw] at hq
      exact ⟨R ++ [f], I, C, hq.pushReady (hc.on_free f _ hw),
        hc.unload hw rfl rfl rfl rfl fun g => mem_pushReady⟩
    | settleDone =>
      simp only [Fiber.workStep, hw] at hs
      cases hs
      exact h.leave hw (Or.inr rfl)
  | sched p =>
    have hon : ∀ (q : SchedPc F) g r,
        WorkerPc.sched q = .on g r ↔ s.worker = .on g r := fun q g r => by
      rw [hw]
      exact ⟨nofun, nofun⟩
    cases p with
    | moving c =>
      cases c with
      | none =>
        simp only [Fiber.workStep, hw] at hs
        cases hs
        exact h.same rfl rfl rfl (by rw [hw]; rfl) rfl (hon _)
          fun _ _ => Iff.rfl
      | some f =>
        simp only [Fiber.workStep, hw] at hs
        cases hs
        obtain ⟨R, I, C, hq, hc⟩ := h
        rw [hw] at hq
        obtain ⟨C', rfl, hq'⟩ := hq.shift
        refine ⟨R ++ [f], I, C', hq',
          hc.same rfl (hon _) (fun _ _ => Iff.rfl) ?_⟩
        intro g
        rw [mem_pushReady]
        simp only [List.mem_append, List.mem_cons]
        tauto
    | pollCheck =>
      simp only [Fiber.workStep, hw] at hs
      cases hs
      refine h.same rfl rfl rfl ?_ rfl (hon _) fun _ _ => Iff.rfl
      rw [hw]
      split <;> rfl
    | pollLower =>
      simp only [Fiber.workStep, hw] at hs
      cases hs
      exact h.same rfl rfl rfl (by rw [hw]; rfl) rfl (hon _)
        fun _ _ => Iff.rfl
    | _ => simp [Fiber.workStep, hw] at hs

/-- A resume that moves on without its fiber in hand. -/
theorem setResume [DecidableEq T] (h : Placed s) {a : Option T}
    {r : Option (F × ResumePc)} (ha : ∀ g, s.resumes a ≠ some (g, .push))
    (hr : ∀ g, r ≠ some (g, .push)) : Placed (s.setResume a r) := by
  refine h.same rfl rfl rfl rfl rfl (fun _ _ => Iff.rfl) fun b g => ?_
  by_cases hba : b = a
  · subst hba
    simp [State.setResume, ha g, hr g]
  · simp [State.setResume, Function.update_of_ne hba]

theorem resumeStep [DecidableEq F] [DecidableEq T] (h : Placed s) {a : Option T}
    (hs : Fiber.resumeStep s a = some s') : Placed s' := by
  cases hr : s.resumes a with
  | none => simp [Fiber.resumeStep, hr] at hs
  | some fr =>
    obtain ⟨f, r⟩ := fr
    have ha : r ≠ .push → ∀ g, s.resumes a ≠ some (g, .push) := by
      intro hne g hg
      rw [hr] at hg
      cases hg
      exact hne rfl
    cases r with
    | load =>
      simp only [Fiber.resumeStep, hr] at hs
      split at hs <;> cases hs <;>
        exact h.setResume (ha (by decide)) (by simp)
    | cas =>
      simp only [Fiber.resumeStep, hr] at hs
      split at hs <;> cases hs
      · obtain ⟨R, I, C, hq, hc⟩ := h
        exact ⟨R, I, C, hq,
          hc.grab (ha (by decide)) ‹_› rfl rfl rfl⟩
      · exact h.setResume (ha (by decide)) (by simp)
    | push =>
      obtain ⟨R, I, C, hq, hc⟩ := h
      have hfree := hc.push_free a f hr
      cases a with
      | none =>
        simp only [Fiber.resumeStep, hr] at hs
        cases hs
        refine ⟨R ++ [f], I, C, hq.pushReady hfree,
          hc.handOver hr rfl rfl ?_ ?_ fun g => mem_pushReady⟩
        · exact fun b hb => Function.update_of_ne hb _ _
        · simp [State.setResume]
      | some t =>
        simp only [Fiber.resumeStep, hr] at hs
        cases hs
        refine ⟨R, I ++ [f], C, hq.pushInbox hfree,
          hc.handOver hr rfl rfl ?_ ?_ fun g => mem_pushInbox⟩
        · exact fun b hb => Function.update_of_ne hb _ _
        · simp [State.setResume]
    | latch =>
      simp only [Fiber.resumeStep, hr] at hs
      cases hs
      have h' : Placed (s.setPending f true) :=
        h.same rfl rfl rfl rfl rfl (fun _ _ => Iff.rfl) fun _ _ => Iff.rfl
      exact h'.setResume (ha (by decide)) (by simp)
    | recheck =>
      simp only [Fiber.resumeStep, hr] at hs
      split at hs <;> cases hs <;>
        exact h.setResume (ha (by decide)) (by simp)
    | kick =>
      simp only [Fiber.resumeStep, hr] at hs
      cases hs
      have h' : Placed { s with kicked := s.kicked || s.inPoll } :=
        h.same rfl rfl rfl rfl rfl (fun _ _ => Iff.rfl) fun _ _ => Iff.rfl
      exact h'.setResume (ha (by decide)) (by simp)

theorem callStep [DecidableEq F] [DecidableEq T] (h : Placed s) {a : Option T} {f : F} {c : Bool}
    (hs : Fiber.callStep s a f c = some s') : Placed s' := by
  obtain ⟨flag, ha, -, -, rfl⟩ := callStep_eq hs
  have h' : Placed { s with cancelFlag := flag } :=
    h.same rfl rfl rfl rfl rfl (fun _ _ => Iff.rfl) fun _ _ => Iff.rfl
  exact h'.setResume (by simp [ha]) (by simp)

/-- The worker moves between two places without a fiber in hand. -/
theorem between [DecidableEq F] (h : Placed s) {p q : SchedPc F}
    (hw : s.worker = .sched p) (hw' : s'.worker = .sched q)
    (hnext : s'.queueNext = s.queueNext) (hready : s'.ready = s.ready)
    (hinbox : s'.inbox = s.inbox) (hstate : s'.state = s.state)
    (hr : s'.resumes = s.resumes)
    (hp : taken (.sched q) = taken (.sched p)) : Placed s' := by
  refine h.same hnext hready hinbox (by rw [hw', hw, hp]) hstate ?_ ?_
  · intro g r
    rw [hw, hw']
    exact ⟨nofun, nofun⟩
  · intro a g
    rw [hr]

/-- The worker takes the inbox. -/
theorem inboxTake (h : Placed s) {p : SchedPc F} (hw : s.worker = .sched p)
    (hp : taken (.sched p) = none) : Placed s.inboxTake := by
  obtain ⟨R, I, C, hq, hc⟩ := h
  rw [hw, hp] at hq
  have hC : C = [] := hq.chain_none
  subst hC
  refine ⟨R, [], I, hq.take, hc.same rfl ?_ (fun _ _ => Iff.rfl) ?_⟩
  · intro g r
    rw [hw]
    exact ⟨nofun, nofun⟩
  · intro g
    simp only [List.append_nil]

theorem chooseStep [DecidableEq F] (h : Placed s) {act : Action F T}
    {e : Option F} (hs : Fiber.chooseStep s act = some (s', e)) :
    Placed s' := by
  cases act with
  | work => exact h.workStep hs
  | spawn f =>
    simp only [Fiber.chooseStep] at hs
    split at hs
    · cases hs
      rename_i hguard
      obtain ⟨R, I, C, hq, hc⟩ := h
      have hf : f ∉ R ++ I ++ C := fun hf => by
        have := hc.queued f hf
        rw [hguard.1] at this
        cases this
      exact ⟨R ++ [f], I, C, hq.pushReady hf,
        hc.spawn hguard.1 rfl rfl rfl fun g => mem_pushReady⟩
    · cases hs
  | mask masked =>
    simp only [Fiber.chooseStep] at hs
    split at hs <;> cases hs
    exact h.same rfl rfl rfl rfl rfl (fun _ _ => Iff.rfl) fun _ _ => Iff.rfl
  | park =>
    simp only [Fiber.chooseStep] at hs
    split at hs
    · rename_i f hw
      split at hs <;> cases hs
      · exact h
      · exact h.stay hw rfl rfl rfl rfl rfl rfl rfl
    · cases hs
  | yield =>
    simp only [Fiber.chooseStep] at hs
    split at hs
    · rename_i f hw
      split at hs <;> cases hs
      · exact h
      · exact h.stay hw rfl rfl rfl rfl rfl rfl rfl
    · cases hs
  | finish =>
    simp only [Fiber.chooseStep] at hs
    split at hs <;> cases hs
    exact h.advance ‹_› rfl rfl rfl rfl rfl rfl
  | drain =>
    simp only [Fiber.chooseStep] at hs
    split at hs <;> cases hs
    rename_i hguard
    rcases hguard with hw | hw
    · exact h.inboxTake hw rfl
    · exact h.inboxTake hw rfl
  | drainBlock =>
    simp only [Fiber.chooseStep] at hs
    split at hs
    · rename_i hw
      split at hs <;> cases hs
      · exact h.between hw rfl rfl rfl rfl rfl rfl rfl
      · exact h.inboxTake hw rfl
    · cases hs
  | condReturn =>
    simp only [Fiber.chooseStep] at hs
    split at hs <;> cases hs
    rename_i hw
    exact h.between hw rfl rfl rfl rfl rfl rfl rfl
  | pop =>
    simp only [Fiber.chooseStep] at hs
    split at hs
    · rename_i hw
      split at hs <;> cases hs
      · exact h.between hw rfl rfl rfl rfl rfl rfl rfl
      · rename_i f hhead
        obtain ⟨R, I, C, hq, hc⟩ := h
        rw [hw] at hq
        obtain ⟨R', rfl, hq'⟩ := hq.popReady hhead
        obtain ⟨hf, -⟩ := List.nodup_cons.mp hq.nodup
        refine ⟨R', I, C, hq', hc.load hw ?_ rfl rfl rfl ?_⟩
        · exact List.mem_append_left C (List.mem_append_left I
            List.mem_cons_self)
        · intro g
          have : g ∈ R' ++ I ++ C → g ≠ f := fun hg hgf => hf (hgf ▸ hg)
          simp only [List.cons_append, List.mem_cons]
          tauto
    · cases hs
  | «continue» =>
    simp only [Fiber.chooseStep] at hs
    split at hs <;> cases hs
    rename_i hw
    exact h.between hw rfl rfl rfl rfl rfl rfl rfl
  | pollRaise =>
    simp only [Fiber.chooseStep] at hs
    split at hs <;> cases hs
    rename_i hw
    exact h.between hw rfl rfl rfl rfl rfl rfl rfl
  | pollReturn =>
    simp only [Fiber.chooseStep] at hs
    split at hs <;> cases hs
    rename_i hw
    exact h.between hw rfl rfl rfl rfl rfl rfl rfl
  | call a f c => simp [Fiber.chooseStep] at hs
  | resume a => simp [Fiber.chooseStep] at hs

/-- Every step of the worker and of a resumer keeps every fiber in one
place. -/
theorem step [DecidableEq F] [DecidableEq T] (h : Placed s)
    {act : Action F T} {e : Option F}
    (hs : Fiber.step act s = some (s', e)) : Placed s' := by
  rcases step_cases hs with ⟨a, f, c, -, hcall, -⟩ | ⟨a, -, hresume, -⟩ |
    ⟨-, -, -, hchoose⟩
  · exact h.callStep hcall
  · exact h.resumeStep hresume
  · exact h.chooseStep hchoose

theorem initial : Placed (State.initial : State F T) := by
  refine ⟨[], [], [], ⟨.empty _, .empty _, rfl, List.nodup_nil⟩,
    nofun, nofun, nofun, nofun, nofun, nofun, nofun, ?_⟩
  rintro f (h | h | h) <;> cases h

theorem bootstrapped [DecidableEq F] (root : F) :
    Placed (State.bootstrapped root : State F T) := by
  refine ⟨[], [], [], ⟨.empty _, .empty _, rfl, List.nodup_nil⟩,
    nofun, ?_, nofun, nofun, nofun, nofun, nofun, ?_⟩
  · intro f p hp
    cases hp
    exact if_pos rfl
  · intro f hf
    by_cases hfr : f = root
    · subst hfr
      exact Or.inr (Or.inl ⟨.body, rfl⟩)
    · have hnone : (State.bootstrapped root : State F T).state f = none :=
        if_neg hfr
      rw [hnone] at hf
      rcases hf with h | h | h <;> cases h

end Placed

end Fiber
end Beans
