import Beans.Cycle.Trial
import Beans.Cycle.Shells

/-!
# The global collector

One forced pass on a heap with exact counts frees only what no external
reference reaches, and leaves exact counts.  It frees what the live purple
candidates reach, unless an external reference or an object outside their reach
leads there: garbage that no candidate reaches keeps what it refers to.

**Input.**  A heap whose counts are the references to its objects, those of the heap and
those from outside, and the buffer of candidates.

**Results.**
* `ccCollect_collects`: the pass ends, frees nothing that a reference from outside reaches and
  nothing twice, and leaves what stays with the references that stay.
* `ccCollect_incomplete`: garbage that no candidate reaches keeps a candidate alive.
-/

namespace Beans
namespace Cycle

open Worklist CountedGraph

variable {N C : Type*} [DecidableEq N] [Fintype N]

/-- A parked shell whose death is over: its references are released. -/
def Husk (s : CcState N C) (p : N) : Prop := s.buf p = true ∧ s.count p = 0

/-- The objects whose references count. -/
def heapOf (s : CcState N C) : Finset N :=
  Finset.univ.filter fun p => ¬(s.buf p = true ∧ s.count p = 0)

omit [DecidableEq N] in
theorem mem_heapOf {s : CcState N C} {p : N} : p ∈ heapOf s ↔ ¬Husk s p := by
  rw [heapOf, Finset.mem_filter]
  exact and_iff_right (Finset.mem_univ p)

/-- A heap between two passes; `ext` are the references from outside the
heap. -/
structure CcReady (g : CcShape N C) (ext : N → ℕ) (s : CcState N C) :
    Prop where
  counts : ∀ p, g.immortal p = false →
    s.count p = refs g.children (heapOf s) p + ext p
  nodup : s.ccRoots.Nodup
  buffered : ∀ p, s.buf p = true ↔ p ∈ s.ccRoots
  counted : ∀ p ∈ s.ccRoots, g.immortal p = false
  rested : ∀ p, s.color p ≠ .gray
  nothing : s.freed = []

/-- Reached from a live purple candidate. -/
def Suspected (g : CcShape N C) (s : CcState N C) (p : N) : Prop :=
  ∃ r ∈ s.ccRoots, s.candidate r = true ∧ Reaches g.children r p

/-- What a pass from `s` to `s'` achieves. -/
structure Collected (g : CcShape N C) (ext : N → ℕ) (s s' : CcState N C) :
    Prop where
  /-- Nothing that an external reference reaches is freed. -/
  sound : ∀ p ∈ s'.freed, ∀ a, 0 < ext a ∨ g.immortal a = true →
    ¬Reaches g.children a p
  /-- The counts of the objects that stay are exact. -/
  exact : ∀ p, g.immortal p = false → p ∉ s'.freed →
    s'.count p = refs g.children (Finset.univ \ s'.freed.toFinset) p + ext p
  /-- What a candidate reaches is freed, unless something alive or outside the
  candidates' reach leads there. -/
  complete : ∀ p, Suspected g s p →
    (∀ a, 0 < ext a ∨ g.immortal a = true ∨
      (¬Husk s a ∧ ¬Suspected g s a) → ¬Reaches g.children a p) →
    p ∈ s'.freed
  once : s'.freed.Nodup
  emptied : s'.ccRoots = [] ∧ ∀ p, s'.buf p = false
  rested : ∀ p, p ∉ s'.freed → s'.color p ≠ .gray

variable {g : CcShape N C} {ext : N → ℕ} {s s' : CcState N C} {p q : N}

omit [DecidableEq N] [Fintype N] in
theorem globalTracer_edge : (globalTracer g).edge p = .follow ↔
    g.immortal p = false := by
  simp [globalTracer]

theorem CcReady.exactHeap (h : CcReady g ext s) :
    ExactHeap (globalTracer g) ext (heapOf s) s.count where
  counts p hp := h.counts p (globalTracer_edge.mp hp)
  dead p _ hp := by
    rw [mem_heapOf, not_not] at hp
    exact hp.2

/-- Counts are not negative, and a husk has no reference at all. -/
theorem CcReady.husk (h : CcReady g ext s) (hp : Husk s p) :
    ext p = 0 ∧ ∀ q ∈ heapOf s, p ∉ g.children q := by
  have hcounted := h.counted p ((h.buffered p).mp hp.1)
  have hcount := h.counts p hcounted
  have hrefs : 0 ≤ refs g.children (heapOf s) p := refs_nonneg
  rw [hp.2] at hcount
  exact ⟨by omega, refs_eq_zero_iff.mp (by omega)⟩

/-- The live candidates of the buffer. -/
def CcState.candidates (s : CcState N C) : List N :=
  s.ccRoots.filter s.candidate

omit [DecidableEq N] [Fintype N] in
theorem CcState.candidate_iff : s.candidate p = true ↔
    s.color p = .purple ∧ 0 < s.count p := by
  simp [candidate]

omit [Fintype N] in
theorem CcReady.seeds [Fintype N] (h : CcReady g ext s) :
    ∀ r ∈ s.candidates, (globalTracer g).edge r = .follow ∧ 0 < s.count r := by
  intro r hr
  obtain ⟨hroot, hcand⟩ := List.mem_filter.mp hr
  exact ⟨globalTracer_edge.mpr (h.counted r hroot),
    (CcState.candidate_iff.mp hcand).2⟩

omit [DecidableEq N] [Fintype N] in
/-- What is marked is suspected, and what is suspected is marked or reached
from an immortal object. -/
theorem suspected_cases (hs : Suspected g s p) :
    Marked (globalTracer g) s.candidates p ∨
      ∃ a, g.immortal a = true ∧ Reaches g.children a p := by
  obtain ⟨r, hr, hcand, hreach⟩ := hs
  refine hreach.closed (S := fun q => Marked (globalTracer g) s.candidates q ∨
    ∃ a, g.immortal a = true ∧ Reaches g.children a q) ?_ ?_
  · rintro a b (ha | ⟨i, hi, hia⟩) hb
    · cases himm : g.immortal b with
      | true => exact .inr ⟨b, himm, .refl b⟩
      | false =>
        exact .inl (ha.kid ((globalTracer g).mem_kids.mpr
          ⟨hb, globalTracer_edge.mpr himm⟩))
    · exact .inr ⟨i, hi, hia.tail hb⟩
  · exact .inl ⟨r, List.mem_filter.mpr ⟨hr, hcand⟩, .refl r⟩

omit [DecidableEq N] [Fintype N] in
/-- A path of followed children is a path. -/
theorem reaches_children {t : Tracer N} {a : N} (h : Reaches t.kids a p) :
    Reaches t.children a p :=
  h.closed (S := fun q => Reaches t.children a q)
    (fun _ _ hx hy => hx.tail (t.mem_kids.mp hy).1) (.refl a)

variable {W : Finset N} {s₀ s₁ s₂ : CcState N C} {fuel : ℕ} {r : CcState N C × List N}

/-- What a pass achieves, from the white objects of its trial deletion. -/
theorem Collected.of_white (h : CcReady g ext s)
    (hfreed : ∀ p, p ∈ s'.freed ↔ Husk s p ∨ p ∈ W)
    (hsealed : ∀ p ∈ W, g.immortal p = false ∧ ext p = 0 ∧
      ∀ q ∈ heapOf s, p ∈ g.children q → q ∈ W)
    (hcount : ∀ p, g.immortal p = false →
      s'.count p = refs g.children (heapOf s \ W) p + ext p)
    (hcomplete : ∀ p, Marked (globalTracer g) s.candidates p → p ∉ W →
      ∃ a, (0 < ext a ∨ g.immortal a = true ∨
        (¬Husk s a ∧ ¬Suspected g s a)) ∧ Reaches g.children a p)
    (honce : s'.freed.Nodup)
    (hemptied : s'.ccRoots = [] ∧ ∀ p, s'.buf p = false)
    (hrested : ∀ p, p ∉ s'.freed → s'.color p ≠ .gray) :
    Collected g ext s s' where
  sound p hp a ha hreach := by
    have hgone : Husk s a ∨ a ∈ W := by
      refine hreach.closed_back (S := fun q => Husk s q ∨ q ∈ W) ?_
        ((hfreed p).mp hp)
      intro x y hy hedge
      by_cases hx : Husk s x
      · exact .inl hx
      · rcases hy with hy | hy
        · exact absurd hedge ((h.husk hy).2 x (mem_heapOf.mpr hx))
        · exact .inr ((hsealed y hy).2.2 x (mem_heapOf.mpr hx) hedge)
    have hplain : g.immortal a = false ∧ ext a = 0 := by
      rcases hgone with hhusk | hW
      · exact ⟨h.counted a ((h.buffered a).mp hhusk.1), (h.husk hhusk).1⟩
      · exact ⟨(hsealed a hW).1, (hsealed a hW).2.1⟩
    rcases ha with ha | ha
    · rw [hplain.2] at ha
      exact lt_irrefl 0 ha
    · rw [hplain.1] at ha
      cases ha
  exact p himm hp := by
    have hset : Finset.univ \ s'.freed.toFinset = heapOf s \ W := by
      ext x
      rw [Finset.mem_sdiff, Finset.mem_sdiff, mem_heapOf, List.mem_toFinset,
        hfreed, not_or]
      exact and_iff_right (Finset.mem_univ x)
    rw [hset]
    exact hcount p himm
  complete p hp hclear := by
    rw [hfreed]
    right
    by_contra hW
    have hmarked : Marked (globalTracer g) s.candidates p := by
      rcases suspected_cases hp with hm | ⟨a, ha, hreach⟩
      · exact hm
      · exact absurd hreach (hclear a (.inr (.inl ha)))
    obtain ⟨a, hroot, hreach⟩ := hcomplete p hmarked hW
    exact hclear a hroot hreach
  once := honce
  emptied := hemptied
  rested := hrested

/-- The heap after the cheap half. -/
theorem CcReady.filtered [DecidableEq C] (h : CcReady g ext s) :
    (ccFilter g s.ccRoots s).1 = s.candidates ∧
      (ccFilter g s.ccRoots s).2.count = s.count ∧
      (ccFilter g s.ccRoots s).2.color = s.color ∧
      (∀ p, (ccFilter g s.ccRoots s).2.buf p = true ↔ p ∈ s.candidates) ∧
      (ccFilter g s.ccRoots s).2.freed.Nodup ∧
      ∀ p, p ∈ (ccFilter g s.ccRoots s).2.freed ↔ Husk s p := by
  obtain ⟨hkept, hcount, hcolor, hbuf, hfreed⟩ :=
    ccFilter_spec (g := g) s.ccRoots h.nodup s
  rw [h.nothing, List.nil_append] at hfreed
  refine ⟨hkept, hcount, hcolor, ?_, ?_, ?_⟩
  · intro p
    rw [hbuf, h.buffered, CcState.candidates, List.mem_filter]
    exact ⟨fun ⟨hroot, hc⟩ => ⟨hroot, hc hroot⟩, fun ⟨hroot, hc⟩ =>
      ⟨hroot, fun _ => hc⟩⟩
  · rw [hfreed]
    exact h.nodup.filter _
  · intro p
    rw [hfreed, List.mem_filter, Husk, h.buffered, decide_eq_true_iff]

/-- What the trial deletion leaves to be freed. -/
theorem CcReady.trial (h : CcReady g ext s)
    (hcount : s₀.count = s.count)
    (ht : Trial (globalTracer g) s₀ s₁ s₂ s.candidates W) :
    (∀ p ∈ W, g.immortal p = false ∧ ext p = 0 ∧
      ∀ q ∈ heapOf s, p ∈ g.children q → q ∈ W) ∧
    (∀ p, g.immortal p = false →
      s₂.count p = refs g.children (heapOf s \ W) p + ext p) ∧
    (∀ p, Marked (globalTracer g) s.candidates p → p ∉ W →
      ∃ a, (0 < ext a ∨ g.immortal a = true ∨
        (¬Husk s a ∧ ¬Suspected g s a)) ∧ Reaches g.children a p) ∧
    ∀ p ∈ W, ¬Husk s p := by
  have hexact : ExactHeap (globalTracer g) ext (heapOf s) s₀.count := by
    rw [hcount]
    exact h.exactHeap
  have hseeds : ∀ r ∈ s.candidates,
      (globalTracer g).edge r = .follow ∧ 0 < s₀.count r := by
    rw [hcount]
    exact h.seeds
  refine ⟨?_, ?_, ?_, ?_⟩
  · intro p hp
    obtain ⟨hext, hpreds⟩ := ht.sealed hexact hseeds hp
    have hedge := (((ht.mem p).mp hp).1.in_heap hexact hseeds).1
    exact ⟨globalTracer_edge.mp hedge, hext, hpreds⟩
  · intro p hp
    exact ht.exact hexact hseeds (globalTracer_edge.mpr hp)
  · intro p hp hW
    obtain ⟨a, hreach, -, hroot⟩ := ht.kept_by hexact hseeds hp hW
    rcases hroot with hext | ⟨hbuf, -⟩ | ⟨q, hq, hout, hchild⟩
    · exact ⟨a, .inl hext, reaches_children hreach⟩
    · cases hbuf
    · have hqp : Reaches g.children q p :=
        (Reaches.refl q).tail hchild |>.trans (reaches_children hreach)
      by_cases hqs : Suspected g s q
      · rcases suspected_cases hqs with hqm | ⟨i, hi, hiq⟩
        · exact absurd hqm hout
        · exact ⟨i, .inr (.inl hi), hiq.trans hqp⟩
      · exact ⟨q, .inr (.inr ⟨mem_heapOf.mp hq, hqs⟩), hqp⟩
  · intro p hp
    exact mem_heapOf.mp (((ht.mem p).mp hp).1.in_heap hexact hseeds).2

/-- Gathering the white objects clears the candidates' bits. -/
theorem sweep_spec {seeds : List N}
    (ht : Trial (globalTracer g) s₀ s₁ s₂ seeds W)
    (hrested : ∀ p, s₀.color p ≠ .gray)
    (hbuf : ∀ p, s₂.buf p = true → p ∈ seeds)
    (hfuel : (globalTracer g).fuel ≤ fuel) :
    ∃ r, forEach (fun p r => ccCollectWhite g fuel p (r.1.clearBuf p, r.2))
        seeds (s₂, []) = some r ∧
      (∀ p, p ∈ r.2 ↔ p ∈ W) ∧ r.2.Nodup ∧
      r.1 = { s₂ with color := r.1.color, buf := r.1.buf } ∧
      (∀ p, r.1.buf p = false) ∧ ∀ p, r.1.color p ≠ .gray := by
  have hstart := ht.collectStart
  have hspec := forEach_spec
    (I := fun todo r => (∀ q ∈ todo, q ∈ seeds) ∧
      CollectInv (globalTracer g) s₂ W seeds todo [] r ∧
      ∀ q, r.1.buf q = true → q ∈ todo)
    (f := fun p r => ccCollectWhite g fuel p (r.1.clearBuf p, r.2)) ?_
    seeds (s₂, []) ⟨fun _ hq => hq, .init fun q _ hq => hbuf q hq, hbuf⟩
  · obtain ⟨r, hr, -, hinv, hempty⟩ := hspec
    have hfalse (q : N) : r.1.buf q = false :=
      Bool.eq_false_iff.mpr fun hq => List.not_mem_nil (hempty q hq)
    refine ⟨r, hr, fun q => hinv.dead_iff (fun x hx => ((ht.mem x).mp hx).1)
      ht.white_back, hinv.nodup, hinv.frame, hfalse, fun q => ?_⟩
    rw [hinv.color q]
    split
    · decide
    · exact ht.not_gray hrested q
  · rintro p todo r ⟨hsub, hinv, hleft⟩
    have hp := hsub p List.mem_cons_self
    obtain ⟨r', hr', hinv', hbuf'⟩ :=
      (hinv.cleared hstart hp).collect hstart hfuel
    refine ⟨r', hr', fun q hq => hsub q (List.mem_cons_of_mem p hq), hinv',
      fun q hq => ?_⟩
    rw [hbuf', CcState.clearBuf_buf] at hq
    split at hq
    · cases hq
    · rename_i hne
      exact (List.mem_cons.mp (hleft q hq)).resolve_left hne

omit [Fintype N] in
/-- The dead set goes, since no member has a deinit. -/
theorem sweep_freed [DecidableEq C]
    (hfin : ∀ p, g.fin p = false) (hbuf : ∀ p, r.1.buf p = false) :
    ccRunCycleDeinits (globalTracer g) g.fin r.2 r.1 = none ∧
      SameHeads r.1 (ccFreeCycleShells g r.2 r.1) ∧
      (ccFreeCycleShells g r.2 r.1).freed = r.1.freed ++ r.2 ∧
      (ccFreeCycleShells g r.2 r.1).ccRoots = r.1.ccRoots := by
  refine ⟨?_, ?_⟩
  · have hnone : r.2.any g.fin = false := by
      rw [List.any_eq_false]
      exact fun p _ => by simp [hfin p]
    rw [ccRunCycleDeinits, hnone]
    rfl
  · obtain ⟨hsame, hfreed, hroots, -⟩ :=
      ccFreeCycleShells_spec (g := g) r.2 r.1 fun p _ => hbuf p
    exact ⟨hsame, hfreed, hroots⟩

/-- A pass without candidates. -/
theorem CcReady.idle [DecidableEq C] (h : CcReady g ext s)
    (hnone : s.candidates = []) :
    Collected g ext s { (ccFilter g s.ccRoots s).2 with ccRoots := [] } := by
  obtain ⟨-, hcount, hcolor, hbuf, hnodup, hfreed⟩ := h.filtered
  refine .of_white h (W := ∅) ?_ (by simp) ?_ ?_ hnodup ⟨rfl, ?_⟩ ?_
  · intro p
    rw [or_iff_left (Finset.notMem_empty p)]
    exact hfreed p
  · intro p hp
    rw [Finset.sdiff_empty]
    change (ccFilter g s.ccRoots s).2.count p = _
    rw [hcount]
    exact h.counts p hp
  · rintro p ⟨r, hr, -⟩
    rw [hnone] at hr
    cases hr
  · intro p
    have hp := hbuf p
    rw [hnone] at hp
    exact Bool.eq_false_iff.mpr fun ht => List.not_mem_nil (hp.mp ht)
  · intro p _
    change (ccFilter g s.ccRoots s).2.color p ≠ _
    rw [hcolor]
    exact h.rested p

omit [Fintype N] in
/-- The phases of a walking pass. -/
theorem ccCollect_walks [DecidableEq C] {sm : CcState N C}
    (hnone : s.candidates ≠ [])
    (hkept : (ccFilter g s.ccRoots s).1 = s.candidates)
    (hsm : forEach (ccMarkGray g fuel) s.candidates
      { (ccFilter g s.ccRoots s).2 with ccRoots := s.candidates } = some sm)
    (hs₂ : forEach (ccScan g fuel) s.candidates sm = some s₂)
    (hr : forEach (fun p r => ccCollectWhite g fuel p (r.1.clearBuf p, r.2))
      s.candidates (s₂, []) = some r)
    (hbodies : ccRunCycleDeinits (globalTracer g) g.fin r.2 { r.1 with
      ccRoots := []
      ccWalkMin := nextWalkMin r.2 (ccFilter g s.ccRoots s).2.ccWalkMin } =
        none) :
    ccCollect g fuel true s = some (ccFreeCycleShells g r.2 { r.1 with
      ccRoots := []
      ccWalkMin := nextWalkMin r.2 (ccFilter g s.ccRoots s).2.ccWalkMin }) := by
  rw [ccCollect]
  simp only [hkept]
  rw [if_pos ⟨hnone, .inl trivial⟩, hsm, Option.bind_eq_bind,
    Option.bind_some, hs₂, Option.bind_eq_bind, Option.bind_some, hr,
    Option.bind_some, hbodies]

/-- One forced pass without deinit bodies. -/
theorem ccCollect_collects [DecidableEq C] (h : CcReady g ext s)
    (hfin : ∀ p, g.fin p = false) {fuel : ℕ}
    (hfuel : (globalTracer g).fuel ≤ fuel) :
    ∃ s', ccCollect g fuel true s = some s' ∧ Collected g ext s s' := by
  obtain ⟨hkept, hcount, hcolor, hbuf, hnodup, hfreed⟩ := h.filtered
  by_cases hnone : s.candidates = []
  · refine ⟨_, ?_, h.idle hnone⟩
    rw [ccCollect]
    simp only [hkept]
    rw [if_neg fun hwalk => hwalk.1 hnone, hnone]
  · obtain ⟨s₀, hs₀⟩ : ∃ x, x =
        { (ccFilter g s.ccRoots s).2 with ccRoots := s.candidates } := ⟨_, rfl⟩
    have hcount₀ : s₀.count = s.count := by rw [hs₀, ← hcount]
    have hrested₀ : ∀ p, s₀.color p ≠ .gray := by
      rw [hs₀]
      change ∀ p, (ccFilter g s.ccRoots s).2.color p ≠ .gray
      rw [hcolor]
      exact h.rested
    have hworks : ∀ r ∈ s.candidates, (globalTracer g).works r = true :=
      fun _ _ => rfl
    obtain ⟨sm, hsm, hm⟩ :=
      markGray_spec (fun _ _ => rfl) hworks hrested₀ hfuel
    have hcolor₁ : sm.color = sm.color := rfl
    obtain ⟨s₂, W, hs₂, ht⟩ := trial_spec hm rfl hcolor₁ hfuel
    have hbuf₂ (p : N) (hp : s₂.buf p = true) : p ∈ s.candidates := by
      rw [ht.frame, hm.frame, hs₀] at hp
      exact (hbuf p).mp hp
    obtain ⟨r, hr, hdead, hdeadNodup, hframe, hclear, hgray⟩ :=
      sweep_spec ht hrested₀ hbuf₂ hfuel
    obtain ⟨hsealed, hexact, hcomplete, hlive⟩ := h.trial hcount₀ ht
    obtain ⟨s₃, hs₃⟩ : ∃ x, x = { r.1 with
        ccRoots := []
        ccWalkMin := nextWalkMin r.2 (ccFilter g s.ccRoots s).2.ccWalkMin } :=
      ⟨_, rfl⟩
    have hclear₃ : ∀ p, s₃.buf p = false := by
      rw [hs₃]
      exact hclear
    obtain ⟨hbodies, hsame, hfreed₃, hroots⟩ :=
      sweep_freed (g := g) (r := (s₃, r.2)) hfin hclear₃
    have hfreed₂ : s₃.freed = (ccFilter g s.ccRoots s).2.freed := by
      rw [hs₃, hframe, ht.frame, hm.frame, hs₀]
    rw [hfreed₂] at hfreed₃
    have hmem (p : N) : p ∈ (ccFreeCycleShells g r.2 s₃).freed ↔
        Husk s p ∨ p ∈ W := by
      rw [hfreed₃, List.mem_append, hfreed, hdead]
    refine ⟨_, ?_, .of_white h hmem hsealed ?_ hcomplete ?_ ⟨?_, ?_⟩ ?_⟩
    · rw [hs₃] at hbodies ⊢
      rw [hs₀] at hsm
      exact ccCollect_walks hnone hkept hsm hs₂ hr hbodies
    · intro p hp
      rw [hsame.count, hs₃, hframe]
      exact hexact p hp
    · rw [hfreed₃, List.nodup_append]
      refine ⟨hnodup, hdeadNodup, ?_⟩
      rintro p hp q hq rfl
      exact hlive p ((hdead p).mp hq) ((hfreed p).mp hp)
    · rw [hroots, hs₃]
    · rw [hsame.buf]
      exact hclear₃
    · intro p _
      rw [hsame.color, hs₃]
      exact hgray p

/-- Two objects that are not shared and have no deinit. -/
def pairShape (children : Fin 2 → List (Fin 2)) : CcShape (Fin 2) Unit where
  children := children
  immortal _ := false
  shared _ := false
  fin _ := false
  handle _ := none
  payload _ := none

/-- The first object is the only candidate. -/
def pairState (count : Fin 2 → ℤ) : CcState (Fin 2) Unit where
  count := count
  color p := if p = 0 then .purple else .black
  buf p := decide (p = 0)
  ccRoots := [0]
  ccWalkMin := 256
  workerRoots := []
  workerWalkMin := 256
  sawShared := false
  strong _ := 0
  freed := []
  deferred := []
  bodies := []

/-- Two objects that refer to each other. -/
def ringShape : CcShape (Fin 2) Unit :=
  pairShape fun p => if p = 0 then [1] else [0]

/-- Two objects that refer to themselves, and the second to the first. -/
def tailShape : CcShape (Fin 2) Unit :=
  pairShape fun p => if p = 0 then [0] else [1, 0]

/-- A ring with a candidate is freed. -/
theorem ccCollect_collects_ring : ∃ s',
    ccCollect ringShape 5 true (pairState fun _ => 1) = some s' ∧
      Collected ringShape (fun _ => 0) (pairState fun _ => 1) s' ∧
      s'.freed = [0, 1] := by
  have hready : CcReady ringShape (fun _ => 0) (pairState fun _ => 1) := by
    refine ⟨by decide, by decide, by decide, by decide, by decide, rfl⟩
  have hfuel : (globalTracer ringShape).fuel ≤ 5 := by decide
  obtain ⟨s', hs, h⟩ := ccCollect_collects hready (fun _ => rfl) hfuel
  have hfreed : (ccCollect ringShape 5 true (pairState fun _ => 1)).map
      CcState.freed = some [0, 1] := by decide
  rw [hs] at hfreed
  exact ⟨s', hs, h, Option.some_inj.mp hfreed⟩

/-- No reference comes from outside, yet the candidate stays: garbage that no
candidate reaches refers to it. -/
theorem ccCollect_incomplete :
    CcReady tailShape (fun _ => 0) (pairState fun p => 2 - p.val) ∧
    ∃ s', ccCollect tailShape 5 true (pairState fun p => 2 - p.val) =
        some s' ∧
      Suspected tailShape (pairState fun p => 2 - p.val) 0 ∧
      (0 : Fin 2) ∉ s'.freed := by
  refine ⟨⟨by decide, by decide, by decide, by decide, by decide, rfl⟩, ?_⟩
  have hfreed : (ccCollect tailShape 5 true (pairState fun p => 2 - p.val)).map
      CcState.freed = some [] := by decide
  obtain ⟨s', hs, hnil⟩ := Option.map_eq_some_iff.mp hfreed
  refine ⟨s', hs, ⟨0, by decide, by decide, .refl 0⟩, ?_⟩
  rw [hnil]
  exact List.not_mem_nil

end Cycle
end Beans
