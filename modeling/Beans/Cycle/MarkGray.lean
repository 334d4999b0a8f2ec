import Beans.Cycle.Heap
import Beans.Foundation.CountedGraph

/-!
# Walking and marking

What a visitor does to the stack and the heap when `cc_walk` has passed it over
all children of an object.

`mark_gray` turns what a root reaches gray and takes one count away for every
edge that leaves a gray object.
-/

namespace Beans
namespace Cycle

open Worklist CountedGraph

variable {N C : Type*} [DecidableEq N]

/-- The children a collector follows, among the listed ones. -/
def Tracer.followed (t : Tracer N) (l : List N) : List N :=
  l.filter fun c => t.edge c = .follow

/-- The children of an object that a collector follows. -/
def Tracer.kids (t : Tracer N) (p : N) : List N := t.followed (t.children p)

/-- A child that is a boundary is among the listed ones. -/
def Tracer.bounded (t : Tracer N) (l : List N) : Bool :=
  l.any fun c => t.edge c = .boundary

variable {t : Tracer N} {p c : N} {l : List N} {s : CcState N C} {st : List N}

omit [DecidableEq N] in
theorem Tracer.mem_kids :
    c ∈ t.kids p ↔ c ∈ t.children p ∧ t.edge c = .follow := by
  rw [kids, followed, List.mem_filter, decide_eq_true_iff]

omit [DecidableEq N] in
theorem Tracer.followed_cons_follow (h : t.edge c = .follow) :
    t.followed (c :: l) = c :: t.followed l :=
  List.filter_cons_of_pos (by simpa using h)

omit [DecidableEq N] in
theorem Tracer.followed_cons_other (h : t.edge c ≠ .follow) :
    t.followed (c :: l) = t.followed l :=
  List.filter_cons_of_neg (by simpa using h)

variable {acc : List N × CcState N C}

omit [DecidableEq N] in
theorem visitPush_follow (h : t.edge c = .follow) :
    visitPush t c acc = (c :: acc.1, acc.2) := by
  rw [visitPush, h]

omit [DecidableEq N] in
theorem visitPush_other
    (h : t.edge c ≠ .follow) : visitPush t c acc = acc := by
  rw [visitPush]
  split
  · contradiction
  · rfl

omit [DecidableEq N] in
theorem ccWalk_visitPush : ccWalk t (visitPush t) p (st, s) =
    ((t.kids p).reverse ++ st, s) := by
  rw [ccWalk, Tracer.kids]
  induction t.children p generalizing st with
  | nil => rfl
  | cons c rest ih =>
    rw [List.foldl_cons]
    by_cases hedge : t.edge c = .follow
    · rw [visitPush_follow hedge, ih, t.followed_cons_follow hedge,
        List.reverse_cons, List.append_assoc]
      rfl
    · rw [visitPush_other hedge, ih, t.followed_cons_other hedge]

/-- The counts after the edges to the listed children are taken away. -/
def CcState.dropEdges (s : CcState N C) (l : List N) : CcState N C :=
  { s with count := fun c => s.count c - l.count c }

/-- The counts after the edges to the listed children are put back. -/
def CcState.addEdges (s : CcState N C) (l : List N) : CcState N C :=
  { s with count := fun c => s.count c + l.count c }

theorem dropEdges_addCount :
    (s.addCount c (-1)).dropEdges l = s.dropEdges (c :: l) := by
  have hcount (q : N) : (s.addCount c (-1)).count q - l.count q =
      s.count q - (c :: l).count q := by
    rw [s.addCount_count]
    split_ifs with hq
    · subst hq
      rw [List.count_cons_self]
      push_cast
      ring
    · rw [List.count_cons_of_ne (Ne.symm hq)]
  rw [CcState.dropEdges, funext hcount]
  rfl

theorem addEdges_addCount :
    (s.addCount c 1).addEdges l = s.addEdges (c :: l) := by
  have hcount (q : N) : (s.addCount c 1).count q + l.count q =
      s.count q + (c :: l).count q := by
    rw [s.addCount_count]
    split_ifs with hq
    · subst hq
      rw [List.count_cons_self]
      push_cast
      ring
    · rw [List.count_cons_of_ne (Ne.symm hq)]
  rw [CcState.addEdges, funext hcount]
  rfl

theorem ccWalk_visitDecPush : ccWalk t (visitDecPush t) p (st, s) =
    ((t.kids p).reverse ++ st,
      { s.dropEdges (t.kids p) with
        sawShared := s.sawShared || t.bounded (t.children p) }) := by
  rw [ccWalk, Tracer.kids]
  induction t.children p generalizing st s with
  | nil =>
    refine Prod.ext rfl ?_
    simp [Tracer.followed, Tracer.bounded, CcState.dropEdges]
  | cons c rest ih =>
    rw [List.foldl_cons]
    have hbound : t.bounded (c :: rest) =
        (decide (t.edge c = .boundary) || t.bounded rest) := rfl
    cases hedge : t.edge c with
    | follow =>
      have hvisit : visitDecPush t c (st, s) =
          (c :: st, s.addCount c (-1)) := by rw [visitDecPush, hedge]
      rw [hvisit, ih, t.followed_cons_follow hedge, dropEdges_addCount,
        hbound, hedge, List.reverse_cons, List.append_assoc]
      rfl
    | skip =>
      have hvisit : visitDecPush t c (st, s) = (st, s) := by
        rw [visitDecPush, hedge]
      rw [hvisit, ih, t.followed_cons_other (by simp [hedge]), hbound,
        hedge]
      rfl
    | boundary =>
      have hvisit : visitDecPush t c (st, s) =
          (st, { s with sawShared := true }) := by
        rw [visitDecPush, hedge]
      rw [hvisit, ih, t.followed_cons_other (by simp [hedge]), hbound,
        hedge]
      simp [CcState.dropEdges]

/-- The listed objects turned black. -/
def CcState.blacken (s : CcState N C) (l : List N) : CcState N C :=
  { s with color := fun c => if c ∈ l then .black else s.color c }

theorem blacken_black (h : s.color c = .black) :
    s.blacken (c :: l) = s.blacken l := by
  have hcolor (q : N) : (if q ∈ c :: l then .black else s.color q) =
      if q ∈ l then .black else s.color q := by
    by_cases hq : q = c
    · subst hq
      rw [if_pos List.mem_cons_self, h, ite_self]
    · simp only [List.mem_cons, hq, false_or]
  rw [CcState.blacken, funext hcolor]
  rfl

theorem blacken_setColor :
    (s.setColor c .black).blacken l = s.blacken (c :: l) := by
  have hcolor (q : N) :
      (if q ∈ l then .black else (s.setColor c .black).color q) =
        if q ∈ c :: l then .black else s.color q := by
    rw [s.setColor_color]
    by_cases hq : q = c
    · simp [hq]
    · simp only [List.mem_cons, hq, false_or, if_false]
  rw [CcState.blacken, funext hcolor]
  rfl

theorem visitIncPush_other
    (h : t.edge c ≠ .follow) : visitIncPush t c acc = acc := by
  rw [visitIncPush]
  split
  · contradiction
  · rfl

/-- The children that were not black are black and on the stack. -/
theorem ccWalk_visitIncPush (t : Tracer N) (p : N) (st : List N)
    (s : CcState N C) : ∃ new, ccWalk t (visitIncPush t) p (st, s) =
      (new ++ st, (s.addEdges (t.kids p)).blacken (t.kids p)) ∧
    new.Nodup ∧ ∀ c, c ∈ new ↔ c ∈ t.kids p ∧ s.color c ≠ .black := by
  rw [ccWalk, Tracer.kids]
  induction t.children p generalizing st s with
  | nil =>
    refine ⟨[], Prod.ext rfl ?_, List.nodup_nil, by simp [Tracer.followed]⟩
    simp [Tracer.followed, CcState.addEdges, CcState.blacken]
  | cons c rest ih =>
    rw [List.foldl_cons]
    by_cases hedge : t.edge c = .follow
    · rw [t.followed_cons_follow hedge]
      by_cases hblack : s.color c = .black
      · have hvisit : visitIncPush t c (st, s) = (st, s.addCount c 1) := by
          rw [visitIncPush, hedge]
          exact if_neg (not_not.mpr hblack)
        obtain ⟨new, hwalk, hnodup, hmem⟩ := ih st (s.addCount c 1)
        refine ⟨new, ?_, hnodup, ?_⟩
        · rw [hvisit, hwalk, addEdges_addCount]
          exact congrArg (Prod.mk _)
            (blacken_black (s := s.addEdges _) hblack).symm
        · intro q
          rw [hmem, List.mem_cons]
          have hq : q = c → ¬s.color q ≠ .black := by
            rintro rfl
            exact not_not.mpr hblack
          change q ∈ _ ∧ s.color q ≠ .black ↔ _
          tauto
      · have hvisit : visitIncPush t c (st, s) =
            (c :: st, (s.addCount c 1).setColor c .black) := by
          rw [visitIncPush, hedge]
          exact if_pos hblack
        obtain ⟨new, hwalk, hnodup, hmem⟩ := ih (c :: st)
          ((s.addCount c 1).setColor c .black)
        have hcolor (q : N) :
            ((s.addCount c 1).setColor c .black).color q =
              if q = c then .black else s.color q :=
          CcState.setColor_color _ _ _ _
        have hout : c ∉ new := by
          intro hc
          have hc' := ((hmem c).mp hc).2
          rw [hcolor, if_pos rfl] at hc'
          exact hc' rfl
        refine ⟨new ++ [c], ?_, ?_, ?_⟩
        · rw [hvisit, hwalk, List.append_assoc]
          refine congrArg (Prod.mk _) ?_
          rw [← addEdges_addCount, ← blacken_setColor]
          rfl
        · rw [List.nodup_append]
          refine ⟨hnodup, List.nodup_singleton c, ?_⟩
          rintro a ha b hb rfl
          rw [List.mem_singleton] at hb
          exact hout (hb ▸ ha)
        · intro q
          rw [List.mem_append, hmem, hcolor, List.mem_singleton,
            List.mem_cons]
          by_cases hq : q = c
          · subst hq
            simp [hblack]
          · simp [hq]
    · rw [visitIncPush_other hedge, t.followed_cons_other hedge]
      exact ih st s

variable [Fintype N]

/-- The objects of one colour. -/
def CcState.colored (s : CcState N C) (c : Color) : Finset N :=
  Finset.univ.filter fun p => s.color p = c

omit [DecidableEq N] in
@[simp] theorem CcState.mem_colored {s : CcState N C} {c : Color} {p : N} :
    p ∈ s.colored c ↔ s.color p = c := by
  rw [colored, Finset.mem_filter]
  exact and_iff_right (Finset.mem_univ p)

/-- The edges that leave a set. -/
def Tracer.edges (t : Tracer N) (A : Finset N) : ℕ :=
  ∑ q ∈ A, (t.kids q).length

/-- Enough fuel for every loop. -/
def Tracer.fuel (t : Tracer N) : ℕ :=
  1 + t.edges Finset.univ + Fintype.card N

/-- The candidates reach the object. -/
def Marked (t : Tracer N) (seeds : List N) (p : N) : Prop :=
  ∃ r ∈ seeds, Reaches t.kids r p

/-- Marking under way from `s₀`: `todo` are the roots it has not begun with. -/
structure MarkInv (t : Tracer N) (s₀ : CcState N C) (seeds todo st : List N)
    (s : CcState N C) : Prop where
  frame : s = { s₀ with
    count := s.count
    color := s.color
    sawShared := s.sawShared }
  color : ∀ p, s.color p ≠ .gray → s.color p = s₀.color p
  count : ∀ p, s.count p = s₀.count p - refs t.kids (s.colored .gray) p
  marked : ∀ p, s.color p = .gray → Marked t seeds p
  stack : ∀ p ∈ st, t.works p = true ∧ Marked t seeds p
  closed : ∀ p, s.color p = .gray → ∀ c ∈ t.kids p,
    s.color c = .gray ∨ c ∈ st
  begun : ∀ r ∈ seeds, s.color r = .gray ∨ r ∈ st ∨ r ∈ todo
  saw : s.sawShared = true → s₀.sawShared = true ∨
    ∃ p, s.color p = .gray ∧ t.bounded (t.children p) = true

variable {s₀ : CcState N C} {seeds todo : List N}

omit [Fintype N] in
theorem Tracer.edges_insert {A : Finset N} (h : p ∉ A) :
    t.edges (insert p A) = (t.kids p).length + t.edges A :=
  Finset.sum_insert h

omit [DecidableEq N] [Fintype N] in
theorem Tracer.edges_mono {A B : Finset N} (h : A ⊆ B) :
    t.edges A ≤ t.edges B :=
  Finset.sum_le_sum_of_subset h

theorem colored_setColor (s : CcState N C) (p : N) (c : Color) :
    (s.setColor p c).colored c = insert p (s.colored c) := by
  ext q
  rw [CcState.mem_colored, s.setColor_color, Finset.mem_insert,
    CcState.mem_colored]
  by_cases hq : q = p
  · simp [hq]
  · simp [hq]

/-- Turning an object gray takes its edges out of the work that is left. -/
theorem edges_setColor (h : s.color p ≠ .gray) :
    (t.kids p).length + t.edges ((s.setColor p .gray).colored .gray)ᶜ =
      t.edges (s.colored .gray)ᶜ := by
  have hout : p ∉ (insert p (s.colored .gray))ᶜ := by simp
  have hin : insert p (insert p (s.colored .gray))ᶜ = (s.colored .gray)ᶜ := by
    rw [Finset.compl_insert, Finset.insert_erase]
    rw [Finset.mem_compl, CcState.mem_colored]
    exact h
  rw [colored_setColor, ← Tracer.edges_insert hout, hin]

namespace MarkInv

omit [DecidableEq N] [Fintype N] in
theorem marked_kid {q : N} (h : Marked t seeds p) (hq : q ∈ t.kids p) :
    Marked t seeds q := by
  obtain ⟨r, hr, hreach⟩ := h
  exact ⟨r, hr, hreach.tail hq⟩

/-- An object that is gray already. -/
theorem skip (h : MarkInv t s₀ seeds todo (p :: st) s)
    (hp : s.color p = .gray) : MarkInv t s₀ seeds todo st s where
  frame := h.frame
  color := h.color
  count := h.count
  marked := h.marked
  stack q hq := h.stack q (List.mem_cons_of_mem p hq)
  closed q hq c hc := by
    rcases h.closed q hq c hc with hgray | hmem
    · exact .inl hgray
    · rcases List.mem_cons.mp hmem with rfl | hst
      · exact .inl hp
      · exact .inr hst
  begun r hr := by
    rcases h.begun r hr with hgray | hmem | htodo
    · exact .inl hgray
    · rcases List.mem_cons.mp hmem with rfl | hst
      · exact .inl hp
      · exact .inr (.inl hst)
    · exact .inr (.inr htodo)
  saw := h.saw

/-- An object that turns gray. -/
theorem visit (h : MarkInv t s₀ seeds todo (p :: st) s)
    (hfollow : ∀ c, t.edge c = .follow → t.works c = true)
    (hp : s.color p ≠ .gray) :
    MarkInv t s₀ seeds todo ((t.kids p).reverse ++ st)
      { (s.setColor p .gray).dropEdges (t.kids p) with
        sawShared := s.sawShared || t.bounded (t.children p) } := by
  have hcolor (q : N) : (s.setColor p .gray).color q =
      if q = p then .gray else s.color q := s.setColor_color p q _
  have hkeep {q : N} (hq : s.color q = .gray) :
      (s.setColor p .gray).color q = .gray := by
    rw [hcolor]
    split
    · rfl
    · exact hq
  have hmarked := (h.stack p List.mem_cons_self).2
  constructor
  case frame =>
    rw [h.frame]
    rfl
  case color =>
    intro q hq
    change (s.setColor p .gray).color q ≠ _ at hq
    change (s.setColor p .gray).color q = _
    rw [hcolor] at hq ⊢
    split at hq
    · exact absurd rfl hq
    · rename_i hne
      rw [if_neg hne]
      exact h.color q hq
  case count =>
    intro q
    change s.count q - _ = s₀.count q -
      refs t.kids ((s.setColor p .gray).colored .gray) q
    have hout : p ∉ s.colored .gray := fun hmem =>
      hp (CcState.mem_colored.mp hmem)
    rw [h.count q, colored_setColor, refs_insert hout]
    ring
  case marked =>
    intro q hq
    change (s.setColor p .gray).color q = _ at hq
    rw [hcolor] at hq
    split at hq
    · rename_i heq
      exact heq ▸ hmarked
    · exact h.marked q hq
  case stack =>
    intro q hq
    rcases List.mem_append.mp hq with hkid | hst
    · have hkid' := List.mem_reverse.mp hkid
      exact ⟨hfollow q (t.mem_kids.mp hkid').2, marked_kid hmarked hkid'⟩
    · exact h.stack q (List.mem_cons_of_mem p hst)
  case closed =>
    intro q hq c hc
    change (s.setColor p .gray).color q = _ at hq
    change (s.setColor p .gray).color c = _ ∨ _
    rw [hcolor] at hq
    split at hq
    · rename_i heq
      subst heq
      exact .inr (List.mem_append_left _ (List.mem_reverse.mpr hc))
    · rcases h.closed q hq c hc with hgray | hmem
      · exact .inl (hkeep hgray)
      · rcases List.mem_cons.mp hmem with rfl | hst
        · exact .inl (by rw [hcolor, if_pos rfl])
        · exact .inr (List.mem_append_right _ hst)
  case begun =>
    intro r hr
    change (s.setColor p .gray).color r = _ ∨ _
    rcases h.begun r hr with hgray | hmem | htodo
    · exact .inl (hkeep hgray)
    · rcases List.mem_cons.mp hmem with rfl | hst
      · exact .inl (by rw [hcolor, if_pos rfl])
      · exact .inr (.inl (List.mem_append_right _ hst))
    · exact .inr (.inr htodo)
  case saw =>
    intro hsaw
    rcases (Bool.or_eq_true _ _).mp hsaw with hbefore | hbound
    · rcases h.saw hbefore with hstart | ⟨q, hq, hb⟩
      · exact .inl hstart
      · exact .inr ⟨q, hkeep hq, hb⟩
    · refine .inr ⟨p, ?_, hbound⟩
      change (s.setColor p .gray).color p = _
      rw [hcolor, if_pos rfl]

/-- One root, with nothing on the stack. -/
theorem root (h : MarkInv t s₀ seeds (p :: todo) [] s)
    (hfollow : ∀ c, t.edge c = .follow → t.works c = true)
    (hworks : t.works p = true) (hseed : p ∈ seeds) {fuel : ℕ}
    (hfuel : t.fuel ≤ fuel) :
    ∃ s', markGray t fuel p s = some s' ∧ MarkInv t s₀ seeds todo [] s' := by
  have hstart : MarkInv t s₀ seeds todo [p] s := by
    refine ⟨h.frame, h.color, h.count, h.marked, ?_, ?_, ?_, h.saw⟩
    · intro q hq
      obtain rfl := List.mem_singleton.mp hq
      exact ⟨hworks, q, hseed, .refl q⟩
    · intro q hq c hc
      exact (h.closed q hq c hc).imp_right fun hmem => by cases hmem
    · intro r hr
      rcases h.begun r hr with hgray | hmem | htodo
      · exact .inl hgray
      · cases hmem
      · rcases List.mem_cons.mp htodo with rfl | hrest
        · exact .inr (.inl List.mem_cons_self)
        · exact .inr (.inr hrest)
  refine drain_spec (I := fun st s => MarkInv t s₀ seeds todo st s)
    (μ := fun s => t.edges (s.colored .gray)ᶜ) ?_ fuel [p] s ?_ hstart
  · intro q st s h
    by_cases hgray : s.color q = .gray
    · refine ⟨st, s, ?_, h.skip hgray, le_rfl⟩
      rw [markGrayBody, if_neg (by simp [(h.stack q List.mem_cons_self).1]),
        if_pos hgray]
    · refine ⟨_, _, ?_, h.visit hfollow hgray, ?_⟩
      · rw [markGrayBody, if_neg (by simp [(h.stack q List.mem_cons_self).1]),
          if_neg hgray, ccWalk_visitDecPush]
        rfl
      · have hedges := edges_setColor (t := t) hgray
        rw [List.length_append, List.length_reverse]
        change _ + t.edges ((s.setColor q .gray).colored .gray)ᶜ ≤ _
        omega
  · have hle := t.edges_mono (Finset.subset_univ (s.colored .gray)ᶜ)
    rw [Tracer.fuel] at hfuel
    simp only [List.length_singleton]
    omega

end MarkInv

/-- Marking from all candidates. -/
theorem markGray_spec (hfollow : ∀ c, t.edge c = .follow → t.works c = true)
    (hworks : ∀ r ∈ seeds, t.works r = true)
    (hnone : ∀ p, s₀.color p ≠ .gray) {fuel : ℕ} (hfuel : t.fuel ≤ fuel) :
    ∃ s, forEach (markGray t fuel) seeds s₀ = some s ∧
      MarkInv t s₀ seeds [] [] s := by
  have hempty : s₀.colored .gray = ∅ := by
    ext p
    simp [hnone p]
  have hstart : MarkInv t s₀ seeds seeds [] s₀ := by
    refine ⟨rfl, fun _ _ => rfl, ?_, ?_, by simp, ?_, ?_, .inl⟩
    · intro p
      rw [hempty, refs_empty, sub_zero]
    · exact fun p hp => absurd hp (hnone p)
    · exact fun p hp => absurd hp (hnone p)
    · exact fun r hr => .inr (.inr hr)
  have hspec := forEach_spec
    (I := fun todo s => (∀ r ∈ todo, r ∈ seeds) ∧ MarkInv t s₀ seeds todo [] s)
    (f := markGray t fuel) ?_ seeds s₀ ⟨fun _ h => h, hstart⟩
  · obtain ⟨s, hs, -, h⟩ := hspec
    exact ⟨s, hs, h⟩
  · rintro r todo s ⟨hsub, h⟩
    have hr := hsub r List.mem_cons_self
    obtain ⟨s', hs, h'⟩ := h.root hfollow (hworks r hr) hr hfuel
    exact ⟨s', hs, fun q hq => hsub q (List.mem_cons_of_mem r hq), h'⟩

/-- At the end gray is what the candidates reach. -/
theorem MarkInv.gray_iff (h : MarkInv t s₀ seeds [] [] s) :
    s.color p = .gray ↔ Marked t seeds p := by
  refine ⟨h.marked p, ?_⟩
  rintro ⟨r, hr, hreach⟩
  refine hreach.closed (S := fun q => s.color q = .gray) ?_ ?_
  · intro a b ha hb
    exact (h.closed a ha b hb).resolve_right (by simp)
  · exact (h.begun r hr).resolve_right (by simp)

end Cycle
end Beans
