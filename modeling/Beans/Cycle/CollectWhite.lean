import Beans.Cycle.MarkGray

/-!
# Collecting

`collect_white` gathers the white objects, each once.  It leaves buffered
objects to the turn of their own root, whose bit is cleared before.
-/

namespace Beans
namespace Cycle

open Worklist CountedGraph

variable {N C : Type*} [DecidableEq N]

/-- The collection under way from `s₂`: `W` are the objects to gather, `todo`
the roots it has not begun with. -/
structure CollectInv (t : Tracer N) (s₂ : CcState N C) (W : Finset N)
    (seeds todo st : List N) (r : CcState N C × List N) : Prop where
  frame : r.1 = { s₂ with color := r.1.color, buf := r.1.buf }
  nodup : r.2.Nodup
  dead : ∀ p ∈ r.2, p ∈ W
  color : ∀ p, r.1.color p = if p ∈ r.2 then .black else s₂.color p
  closed : ∀ p ∈ r.2, ∀ c ∈ t.kids p, c ∈ W →
    c ∈ r.2 ∨ c ∈ st ∨ r.1.buf c = true
  stack : ∀ p ∈ st, s₂.color p = .white → p ∈ W
  begun : ∀ p ∈ seeds, p ∈ W → p ∈ r.2 ∨ p ∈ st ∨ p ∈ todo
  buffered : ∀ p ∈ W, r.1.buf p = true → p ∈ todo

/-- What `collect_white` may rely on: the objects to gather are white, and so
is no other child of theirs. -/
structure CollectStart (t : Tracer N) (s₂ : CcState N C) (W : Finset N)
    (seeds : List N) : Prop where
  white : ∀ p ∈ W, s₂.color p = .white
  kids : ∀ p ∈ W, ∀ c ∈ t.kids p, s₂.color c = .white → c ∈ W
  seeds : ∀ p ∈ seeds, s₂.color p = .white → p ∈ W

variable {t : Tracer N} {s₂ : CcState N C} {W : Finset N}
  {seeds todo st : List N} {r : CcState N C × List N} {p : N}

namespace CollectInv

theorem init (hbuf : ∀ q ∈ W, s₂.buf q = true → q ∈ seeds) :
    CollectInv t s₂ W seeds seeds [] (s₂, []) where
  frame := rfl
  nodup := List.nodup_nil
  dead q hq := by cases hq
  color q := (if_neg List.not_mem_nil).symm
  closed q hq := by cases hq
  stack q hq := by cases hq
  begun q hq _ := .inr (.inr hq)
  buffered := hbuf

theorem white_iff (h : CollectInv t s₂ W seeds todo st r)
    (hs : CollectStart t s₂ W seeds) (hp : p ∈ W) :
    r.1.color p = .white ↔ p ∉ r.2 := by
  rw [h.color p, hs.white p hp]
  split
  · rename_i hdead
    exact iff_of_false (by decide) (not_not.mpr hdead)
  · rename_i hdead
    exact iff_of_true rfl hdead

/-- An object that is not white, or left to its own root. -/
theorem skip (h : CollectInv t s₂ W seeds todo (p :: st) r)
    (hs : CollectStart t s₂ W seeds)
    (hp : r.1.color p ≠ .white ∨ r.1.buf p = true) :
    CollectInv t s₂ W seeds todo st r where
  frame := h.frame
  nodup := h.nodup
  dead := h.dead
  color := h.color
  closed q hq c hc hW := by
    rcases h.closed q hq c hc hW with hdead | hmem | hbuf
    · exact .inl hdead
    · rcases List.mem_cons.mp hmem with rfl | hst
      · rcases hp with hne | hbuf
        · exact .inl (not_not.mp (mt (h.white_iff hs hW).mpr hne))
        · exact .inr (.inr hbuf)
      · exact .inr (.inl hst)
    · exact .inr (.inr hbuf)
  stack q hq := h.stack q (List.mem_cons_of_mem p hq)
  begun q hq hW := by
    rcases h.begun q hq hW with hdead | hmem | htodo
    · exact .inl hdead
    · rcases List.mem_cons.mp hmem with rfl | hst
      · rcases hp with hne | hbuf
        · exact .inl (not_not.mp (mt (h.white_iff hs hW).mpr hne))
        · exact .inr (.inr (h.buffered q hW hbuf))
      · exact .inr (.inl hst)
    · exact .inr (.inr htodo)
  buffered := h.buffered

/-- A white object is gathered. -/
theorem gather (h : CollectInv t s₂ W seeds todo (p :: st) r)
    (hs : CollectStart t s₂ W seeds) (hp : r.1.color p = .white) :
    CollectInv t s₂ W seeds todo ((t.kids p).reverse ++ st)
      (r.1.setColor p .black, r.2 ++ [p]) := by
  have hcolor := h.color p
  have hout : p ∉ r.2 := by
    intro hdead
    rw [if_pos hdead, hp] at hcolor
    cases hcolor
  rw [if_neg hout, hp] at hcolor
  have hW := h.stack p List.mem_cons_self hcolor.symm
  constructor
  case frame =>
    change r.1.setColor p .black = _
    rw [h.frame]
    rfl
  case nodup =>
    rw [List.nodup_append]
    refine ⟨h.nodup, List.nodup_singleton p, ?_⟩
    rintro a ha b hb rfl
    exact hout (List.mem_singleton.mp hb ▸ ha)
  case dead =>
    intro q hq
    rcases List.mem_append.mp hq with hdead | hself
    · exact h.dead q hdead
    · rw [List.mem_singleton.mp hself]
      exact hW
  case color =>
    intro q
    rw [CcState.setColor_color, h.color q]
    by_cases hq : q = p
    · simp [hq]
    · simp [hq]
  case closed =>
    intro q hq c hc hcW
    rcases List.mem_append.mp hq with hdead | hself
    · rcases h.closed q hdead c hc hcW with hin | hmem | hbuf
      · exact .inl (List.mem_append_left _ hin)
      · rcases List.mem_cons.mp hmem with rfl | hst
        · exact .inl (List.mem_append_right _ List.mem_cons_self)
        · exact .inr (.inl (List.mem_append_right _ hst))
      · exact .inr (.inr hbuf)
    · rw [List.mem_singleton.mp hself] at hc
      exact .inr (.inl (List.mem_append_left _ (List.mem_reverse.mpr hc)))
  case stack =>
    intro q hq hwhite
    rcases List.mem_append.mp hq with hkid | hst
    · exact hs.kids p hW q (List.mem_reverse.mp hkid) hwhite
    · exact h.stack q (List.mem_cons_of_mem p hst) hwhite
  case begun =>
    intro q hq hqW
    rcases h.begun q hq hqW with hdead | hmem | htodo
    · exact .inl (List.mem_append_left _ hdead)
    · rcases List.mem_cons.mp hmem with rfl | hst
      · exact .inl (List.mem_append_right _ List.mem_cons_self)
      · exact .inr (.inl (List.mem_append_right _ hst))
    · exact .inr (.inr htodo)
  case buffered => exact h.buffered

/-- A root's own turn. -/
theorem collect [Fintype N] (h : CollectInv t s₂ W seeds todo [p] r)
    (hs : CollectStart t s₂ W seeds) {fuel : ℕ} (hfuel : t.fuel ≤ fuel) :
    ∃ r', collectWhite t fuel p r = some r' ∧
      CollectInv t s₂ W seeds todo [] r' ∧ r'.1.buf = r.1.buf := by
  refine drain_spec
    (I := fun st x => CollectInv t s₂ W seeds todo st x ∧ x.1.buf = r.1.buf)
    (μ := fun x => t.edges (x.1.colored .white)) ?_ fuel [p] r ?_ ⟨h, rfl⟩
  · rintro q st r ⟨h, hbuf⟩
    by_cases hq : r.1.color q ≠ .white ∨ r.1.buf q = true
    · refine ⟨st, r, ?_, ⟨h.skip hs hq, hbuf⟩, le_rfl⟩
      rw [collectWhiteBody, if_pos hq]
    · obtain ⟨hwhite, -⟩ := not_or.mp hq
      refine ⟨_, _, ?_, ⟨h.gather hs (not_not.mp hwhite), hbuf⟩, ?_⟩
      · rw [collectWhiteBody, if_neg hq, ccWalk_visitPush]
      · have hset : r.1.colored .white =
            insert q ((r.1.setColor q .black).colored .white) := by
          ext x
          rw [Finset.mem_insert, CcState.mem_colored, CcState.mem_colored,
            CcState.setColor_color]
          by_cases hx : x = q
          · simp [hx, not_not.mp hwhite]
          · simp [hx]
        have hout : q ∉ (r.1.setColor q .black).colored .white := by
          rw [CcState.mem_colored, CcState.setColor_color, if_pos rfl]
          decide
        rw [hset, t.edges_insert hout, List.length_append,
          List.length_reverse]
        change _ + t.edges ((r.1.setColor q .black).colored .white) ≤ _
        omega
  · have hle := t.edges_mono (Finset.subset_univ (r.1.colored .white))
    rw [Tracer.fuel] at hfuel
    simp only [List.length_singleton]
    omega

/-- The next root, its bit cleared. -/
theorem cleared (h : CollectInv t s₂ W seeds (p :: todo) [] r)
    (hs : CollectStart t s₂ W seeds) (hp : p ∈ seeds) :
    CollectInv t s₂ W seeds todo [p] (r.1.clearBuf p, r.2) where
  frame := by
    change r.1.clearBuf p = _
    rw [h.frame]
    rfl
  nodup := h.nodup
  dead := h.dead
  color := h.color
  closed q hq c hc hW := by
    rcases h.closed q hq c hc hW with hdead | hmem | hbuf
    · exact .inl hdead
    · cases hmem
    · by_cases hcp : c = p
      · exact .inr (.inl (List.mem_singleton.mpr hcp))
      · refine .inr (.inr ?_)
        rw [CcState.clearBuf_buf, if_neg hcp]
        exact hbuf
  stack q hq hwhite := by
    rw [List.mem_singleton.mp hq] at hwhite ⊢
    exact hs.seeds p hp hwhite
  begun q hq hW := by
    rcases h.begun q hq hW with hdead | hmem | htodo
    · exact .inl hdead
    · cases hmem
    · rcases List.mem_cons.mp htodo with rfl | hrest
      · exact .inr (.inl List.mem_cons_self)
      · exact .inr (.inr hrest)
  buffered q hW hbuf := by
    rw [CcState.clearBuf_buf] at hbuf
    split at hbuf
    · cases hbuf
    · rename_i hne
      exact (List.mem_cons.mp (h.buffered q hW hbuf)).resolve_left hne

/-- At the end exactly the objects to gather are dead. -/
theorem dead_iff (h : CollectInv t s₂ W seeds [] [] r)
    (hmarked : ∀ q ∈ W, Marked t seeds q)
    (hback : ∀ a b, Marked t seeds a → b ∈ W → b ∈ t.kids a → a ∈ W) :
    p ∈ r.2 ↔ p ∈ W := by
  refine ⟨h.dead p, fun hp => ?_⟩
  obtain ⟨root, hroot, hreach⟩ := hmarked p hp
  induction hreach with
  | refl => exact (h.begun root hroot hp).resolve_right (by simp)
  | @tail b c hrb hedge ih =>
    have hb : b ∈ W := hback b c ⟨root, hroot, hrb⟩ hp hedge
    rcases h.closed b (ih hb) c hedge hp with hdead | hst | hbuf
    · exact hdead
    · cases hst
    · cases h.buffered c hp hbuf

end CollectInv

end Cycle
end Beans
