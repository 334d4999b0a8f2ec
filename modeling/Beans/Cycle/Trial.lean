import Beans.Cycle.Scan
import Beans.Cycle.CollectWhite

/-!
# Trial deletion

Marking and scanning together: the white objects are those that the candidates
reach and that no root keeps, and the counts of the others are what the white
ones leave.  On a heap with exact counts a white object has no reference from
outside the white ones.
-/

namespace Beans
namespace Cycle

open Worklist CountedGraph

variable {N C : Type*} [DecidableEq N] [Fintype N]

/-- Marked from `s₀` and scanned from `s₁`: `W` are the white objects. -/
structure Trial (t : Tracer N) (s₀ s₁ s₂ : CcState N C) (seeds : List N)
    (W : Finset N) : Prop where
  frame : s₂ = { s₁ with count := s₂.count, color := s₂.color }
  start : ∀ p, s₁.count p + refs t.kids (s₁.colored .gray) p = s₀.count p
  gray : ∀ p, s₁.color p = .gray ↔ Marked t seeds p
  mem : ∀ p, p ∈ W ↔ Marked t seeds p ∧ ¬Kept t s₁ p
  count : ∀ p, s₂.count p = s₀.count p - refs t.kids W p
  outside : ∀ p, ¬Marked t seeds p → s₂.color p = s₀.color p
  white : ∀ p, Marked t seeds p → p ∈ W → s₂.color p = .white
  black : ∀ p, Marked t seeds p → p ∉ W → s₂.color p = .black

variable {t : Tracer N} {s₀ s₁ s₂ sm : CcState N C} {seeds : List N}
  {W heap : Finset N} {ext : N → ℕ} {p q : N}

omit [Fintype N] [DecidableEq N] in
theorem Marked.kid (h : Marked t seeds p) (hq : q ∈ t.kids p) :
    Marked t seeds q :=
  MarkInv.marked_kid h hq

/-- Scanning after marking. -/
theorem trial_spec (hm : MarkInv t s₀ seeds [] [] sm)
    (hcount : s₁.count = sm.count) (hcolor : s₁.color = sm.color) {fuel : ℕ}
    (hfuel : t.fuel ≤ fuel) :
    ∃ s₂ W, forEach (scan t fuel) seeds s₁ = some s₂ ∧
      Trial t s₀ s₁ s₂ seeds W := by
  have hgray (q : N) : s₁.color q = .gray ↔ Marked t seeds q := by
    rw [hcolor]
    exact hm.gray_iff
  have hclosed : ∀ q, s₁.color q = .gray → ∀ c ∈ t.kids q,
      s₁.color c = .gray := by
    intro q hq c hc
    exact (hgray c).mpr (((hgray q).mp hq).kid hc)
  have hseeds : ∀ r ∈ seeds, s₁.color r = .gray := fun r hr =>
    (hgray r).mpr ⟨r, hr, .refl r⟩
  have hmarked (q : N) := (hgray q).mp
  obtain ⟨s₂, hs₂, h⟩ := scan_spec hclosed hseeds hfuel
  have hstart (q : N) :
      s₁.count q + refs t.kids (s₁.colored .gray) q = s₀.count q := by
    have hset : s₁.colored .gray = sm.colored .gray := by
      rw [CcState.colored, hcolor]
      rfl
    rw [hcount, hset, hm.count q]
    ring
  have hmem (q : N) : q ∈ s₁.colored .gray ∩ s₂.colored .white ↔
      Marked t seeds q ∧ ¬Kept t s₁ q := by
    rw [Finset.mem_inter, CcState.mem_colored, CcState.mem_colored]
    constructor
    · rintro ⟨hg, hw⟩
      exact ⟨hmarked q hg,
        (h.white_iff hclosed hseeds hmarked hg).mp hw⟩
    · rintro ⟨hq, hkept⟩
      have hg := (hgray q).mpr hq
      exact ⟨hg, (h.white_iff hclosed hseeds hmarked hg).mpr hkept⟩
  refine ⟨s₂, s₁.colored .gray ∩ s₂.colored .white, hs₂, h.frame, hstart,
    hgray, hmem, ?_, ?_, ?_, ?_⟩
  · intro q
    rw [h.count_eq hclosed hseeds hmarked, hstart]
  · intro q hq
    have hne := mt (hgray q).mp hq
    rw [h.outside q hne, hcolor]
    exact hm.color q (by rw [← hcolor]; exact hne)
  · intro q _ hq
    exact CcState.mem_colored.mp (Finset.mem_inter.mp hq).2
  · intro q hq hout
    have hg := (hgray q).mpr hq
    rcases h.inside q hg with hgray' | hwhite | hblack
    · exact absurd hgray' (h.not_gray hclosed hseeds hq)
    · exact absurd (Finset.mem_inter.mpr
        ⟨CcState.mem_colored.mpr hg, CcState.mem_colored.mpr hwhite⟩) hout
    · exact hblack

/-- A heap whose counts are exact: `heap` are the objects whose references
count. -/
structure ExactHeap (t : Tracer N) (ext : N → ℕ) (heap : Finset N)
    (count : N → ℤ) : Prop where
  counts : ∀ p, t.edge p = .follow →
    count p = refs t.children heap p + ext p
  dead : ∀ p, t.edge p = .follow → p ∉ heap → count p = 0

omit [Fintype N] in
/-- A followed child counts as often in the kids. -/
theorem refs_kids (h : t.edge p = .follow) (A : Finset N) :
    refs t.kids A p = refs t.children A p := by
  refine Finset.sum_congr rfl fun q _ => ?_
  rw [Tracer.kids, Tracer.followed, List.count_filter (by simpa using h)]

omit [Fintype N] in
/-- What the candidates reach is in the heap. -/
theorem Marked.in_heap (hexact : ExactHeap t ext heap s₀.count)
    (hseeds : ∀ r ∈ seeds, t.edge r = .follow ∧ 0 < s₀.count r)
    (h : Marked t seeds p) : t.edge p = .follow ∧ p ∈ heap := by
  obtain ⟨r, hr, hreach⟩ := h
  have hpos {q : N} (hedge : t.edge q = .follow) (hq : 0 < s₀.count q) :
      q ∈ heap := by
    by_contra hout
    rw [hexact.dead q hedge hout] at hq
    exact lt_irrefl 0 hq
  refine hreach.closed (S := fun q => t.edge q = .follow ∧ q ∈ heap) ?_ ?_
  · rintro a b ⟨-, ha⟩ hb
    obtain ⟨hchild, hedge⟩ := t.mem_kids.mp hb
    refine ⟨hedge, hpos hedge ?_⟩
    have hrefs : 0 < refs t.children heap b := refs_pos_iff.mpr ⟨a, ha, hchild⟩
    rw [hexact.counts b hedge]
    omega
  · obtain ⟨hedge, hcount⟩ := hseeds r hr
    exact ⟨hedge, hpos hedge hcount⟩

namespace Trial

/-- What is left of a marked object's count: the references from outside. -/
theorem base_eq (h : Trial t s₀ s₁ s₂ seeds W)
    (hexact : ExactHeap t ext heap s₀.count)
    (hseeds : ∀ r ∈ seeds, t.edge r = .follow ∧ 0 < s₀.count r)
    (hp : Marked t seeds p) : s₁.count p =
      refs t.children (heap \ s₁.colored .gray) p + ext p := by
  have hedge := (hp.in_heap hexact hseeds).1
  have hsub : s₁.colored .gray ⊆ heap := fun q hq =>
    (((h.gray q).mp (CcState.mem_colored.mp hq)).in_heap hexact hseeds).2
  have hstart := h.start p
  rw [refs_kids hedge, hexact.counts p hedge] at hstart
  rw [refs_sdiff hsub]
  linarith

/-- A white object has no reference from outside the white ones. -/
theorem sealed (h : Trial t s₀ s₁ s₂ seeds W)
    (hexact : ExactHeap t ext heap s₀.count)
    (hseeds : ∀ r ∈ seeds, t.edge r = .follow ∧ 0 < s₀.count r)
    (hp : p ∈ W) :
    ext p = 0 ∧ ∀ q ∈ heap, p ∈ t.children q → q ∈ W := by
  obtain ⟨hmarked, hkept⟩ := (h.mem p).mp hp
  have hedge := (hmarked.in_heap hexact hseeds).1
  have hgray := (h.gray p).mpr hmarked
  have hbase := h.base_eq hexact hseeds hmarked
  have hheld : ¬0 < s₁.count p := fun hpos =>
    hkept ⟨p, hgray, .inr hpos, .refl p⟩
  have hrefs : 0 ≤ refs t.children (heap \ s₁.colored .gray) p := refs_nonneg
  have hzero : refs t.children (heap \ s₁.colored .gray) p = 0 := by omega
  refine ⟨by omega, fun q hq hchild => ?_⟩
  have hqg : q ∈ s₁.colored .gray := by
    by_contra hout
    exact refs_eq_zero_iff.mp hzero q (Finset.mem_sdiff.mpr ⟨hq, hout⟩) hchild
  have hqgray := CcState.mem_colored.mp hqg
  refine (h.mem q).mpr ⟨(h.gray q).mp hqgray, ?_⟩
  rintro ⟨a, ha, hheld', hreach⟩
  exact hkept ⟨a, ha, hheld', hreach.tail (t.mem_kids.mpr ⟨hchild, hedge⟩)⟩

/-- A marked object that stays is reached from an external reference, from a
buffered object where those are roots, or from outside. -/
theorem kept_by (h : Trial t s₀ s₁ s₂ seeds W)
    (hexact : ExactHeap t ext heap s₀.count)
    (hseeds : ∀ r ∈ seeds, t.edge r = .follow ∧ 0 < s₀.count r)
    (hp : Marked t seeds p) (hW : p ∉ W) :
    ∃ a, Reaches t.kids a p ∧ Marked t seeds a ∧ (0 < ext a ∨
      (t.holdsBuffered = true ∧ s₁.buf a = true) ∨
      ∃ q ∈ heap, ¬Marked t seeds q ∧ a ∈ t.children q) := by
  have hkept : Kept t s₁ p := by
    by_contra hnot
    exact hW ((h.mem p).mpr ⟨hp, hnot⟩)
  obtain ⟨a, ha, hheld, hreach⟩ := hkept
  have hmarked := (h.gray a).mp ha
  refine ⟨a, hreach, hmarked, ?_⟩
  rcases hheld with hbuf | hpos
  · exact .inr (.inl hbuf)
  · rw [h.base_eq hexact hseeds hmarked] at hpos
    by_cases hext : 0 < ext a
    · exact .inl hext
    · have hrefs : 0 < refs t.children (heap \ s₁.colored .gray) a := by omega
      obtain ⟨q, hq, hchild⟩ := refs_pos_iff.mp hrefs
      obtain ⟨hheap, hout⟩ := Finset.mem_sdiff.mp hq
      refine .inr (.inr ⟨q, hheap, fun hqm => hout ?_, hchild⟩)
      exact CcState.mem_colored.mpr ((h.gray q).mpr hqm)

/-- What refers to a white object is white. -/
theorem white_back (h : Trial t s₀ s₁ s₂ seeds W) (a b : N)
    (ha : Marked t seeds a) (hb : b ∈ W) (hedge : b ∈ t.kids a) : a ∈ W := by
  refine (h.mem a).mpr ⟨ha, ?_⟩
  rintro ⟨x, hx, hheld, hreach⟩
  exact ((h.mem b).mp hb).2 ⟨x, hx, hheld, hreach.tail hedge⟩

theorem collectStart (h : Trial t s₀ s₁ s₂ seeds W) :
    CollectStart t s₂ W seeds := by
  have hwhite {q : N} (hq : Marked t seeds q) (hw : s₂.color q = .white) :
      q ∈ W := by
    by_contra hout
    rw [h.black q hq hout] at hw
    cases hw
  refine ⟨fun q hq => ?_, fun q hq c hc hw => ?_, fun r hr hw => ?_⟩
  · exact h.white q ((h.mem q).mp hq).1 hq
  · exact hwhite (((h.mem q).mp hq).1.kid hc) hw
  · exact hwhite ⟨r, hr, .refl r⟩ hw

theorem not_gray (h : Trial t s₀ s₁ s₂ seeds W)
    (hrested : ∀ q, s₀.color q ≠ .gray) (q : N) : s₂.color q ≠ .gray := by
  by_cases hq : Marked t seeds q
  · by_cases hW : q ∈ W
    · rw [h.white q hq hW]
      decide
    · rw [h.black q hq hW]
      decide
  · rw [h.outside q hq]
    exact hrested q

/-- The counts that are left are exact without the white objects. -/
theorem exact (h : Trial t s₀ s₁ s₂ seeds W)
    (hexact : ExactHeap t ext heap s₀.count)
    (hseeds : ∀ r ∈ seeds, t.edge r = .follow ∧ 0 < s₀.count r)
    (hp : t.edge p = .follow) :
    s₂.count p = refs t.children (heap \ W) p + ext p := by
  have hsub : W ⊆ heap := fun q hq =>
    (((h.mem q).mp hq).1.in_heap hexact hseeds).2
  rw [h.count p, refs_kids hp, hexact.counts p hp, refs_sdiff hsub]
  ring

end Trial

end Cycle
end Beans
