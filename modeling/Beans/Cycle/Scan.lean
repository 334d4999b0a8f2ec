import Beans.Cycle.MarkGray

/-!
# Scanning

`scan` starts from the gray objects.  One with a count left, or held in a
buffer, is a root: `scan_black` turns what it reaches black and puts the edges
that leave black objects back.  The others turn white.
-/

namespace Beans
namespace Cycle

open Worklist CountedGraph

variable {N C : Type*} [DecidableEq N] [Fintype N]

/-- A root for the scan of `s₁`. -/
def Held (t : Tracer N) (s₁ : CcState N C) (p : N) : Prop :=
  (t.holdsBuffered = true ∧ s₁.buf p = true) ∨ 0 < s₁.count p

/-- Reached from a gray root. -/
def Kept (t : Tracer N) (s₁ : CcState N C) (p : N) : Prop :=
  ∃ a, s₁.color a = .gray ∧ Held t s₁ a ∧ Reaches t.kids a p

/-- The gray objects of `s₁` that are black. -/
def blackened (s₁ s : CcState N C) : Finset N :=
  s₁.colored .gray ∩ s.colored .black

/-- `scan_black` under way, begun in `s'`. -/
structure BlackInv (t : Tracer N) (s₁ s' : CcState N C) (st : List N)
    (s : CcState N C) : Prop where
  frame : s = { s₁ with count := s.count, color := s.color }
  mono : ∀ p, s.color p = s'.color p ∨
    (s.color p = .black ∧ s₁.color p = .gray)
  count : ∀ p, s.count p =
    s₁.count p + refs t.kids (blackened s₁ s \ st.toFinset) p
  nodup : st.Nodup
  stack : ∀ p ∈ st, s₁.color p = .gray ∧ s.color p = .black
  closed : ∀ p, s₁.color p = .gray → s.color p = .black → p ∉ st →
    ∀ c ∈ t.kids p, s.color c = .black
  kept : ∀ p, s₁.color p = .gray → s.color p = .black → Kept t s₁ p

/-- The scan under way from `s₁`: `todo` are the roots it has not begun
with. -/
structure ScanInv (t : Tracer N) (s₁ : CcState N C) (seeds todo st : List N)
    (s : CcState N C) : Prop where
  frame : s = { s₁ with count := s.count, color := s.color }
  outside : ∀ p, s₁.color p ≠ .gray → s.color p = s₁.color p
  inside : ∀ p, s₁.color p = .gray →
    s.color p = .gray ∨ s.color p = .white ∨ s.color p = .black
  count : ∀ p, s.count p = s₁.count p + refs t.kids (blackened s₁ s) p
  closed : ∀ p, s₁.color p = .gray → s.color p = .black →
    ∀ c ∈ t.kids p, s.color c = .black
  white : ∀ p, s₁.color p = .gray → s.color p = .white →
    ¬Held t s₁ p ∧ ∀ c ∈ t.kids p, s.color c ≠ .gray ∨ c ∈ st
  kept : ∀ p, s₁.color p = .gray → s.color p = .black → Kept t s₁ p
  stack : ∀ p ∈ st, s₁.color p = .gray
  begun : ∀ r ∈ seeds, s.color r ≠ .gray ∨ r ∈ st ∨ r ∈ todo

variable {t : Tracer N} {s₁ s s' : CcState N C} {seeds todo st : List N}
  {p : N}

theorem mem_blackened :
    p ∈ blackened s₁ s ↔ s₁.color p = .gray ∧ s.color p = .black := by
  rw [blackened, Finset.mem_inter, CcState.mem_colored, CcState.mem_colored]

namespace BlackInv

/-- One object whose edges are put back. -/
theorem visit (h : BlackInv t s₁ s' (p :: st) s)
    (hclosed : ∀ q, s₁.color q = .gray → ∀ c ∈ t.kids q, s₁.color c = .gray)
    {new : List N} (hnodup : new.Nodup)
    (hnew : ∀ c, c ∈ new ↔ c ∈ t.kids p ∧ s.color c ≠ .black) :
    BlackInv t s₁ s' (new ++ st)
      ((s.addEdges (t.kids p)).blacken (t.kids p)) := by
  have hcolor (q : N) :
      ((s.addEdges (t.kids p)).blacken (t.kids p)).color q =
        if q ∈ t.kids p then .black else s.color q := rfl
  have hstay {q : N} (hq : s.color q = .black) :
      ((s.addEdges (t.kids p)).blacken (t.kids p)).color q = .black := by
    rw [hcolor, hq, ite_self]
  obtain ⟨hgray, hblack⟩ := h.stack p List.mem_cons_self
  obtain ⟨hpst, hst⟩ := List.nodup_cons.mp h.nodup
  have hset : blackened s₁ ((s.addEdges (t.kids p)).blacken (t.kids p)) \
      (new ++ st).toFinset =
        insert p (blackened s₁ s \ (p :: st).toFinset) := by
    ext q
    rw [Finset.mem_sdiff, mem_blackened, hcolor, Finset.mem_insert,
      Finset.mem_sdiff, mem_blackened, List.mem_toFinset, List.mem_toFinset,
      List.mem_append, List.mem_cons, hnew]
    by_cases hq : q = p
    · subst hq
      simp [hgray, hblack, hpst]
    · by_cases hkid : q ∈ t.kids p
      · have hq' := hclosed p hgray q hkid
        simp only [hkid, if_true, hq', hq, true_and, false_or]
        tauto
      · simp only [hkid, if_false, hq, false_and, false_or]
  constructor
  case frame =>
    rw [h.frame]
    rfl
  case mono =>
    intro q
    rw [hcolor]
    split
    · rename_i hkid
      exact .inr ⟨rfl, hclosed p hgray q hkid⟩
    · exact h.mono q
  case count =>
    intro q
    have hout : p ∉ blackened s₁ s \ (p :: st).toFinset := by simp
    rw [hset, refs_insert hout]
    change s.count q + _ = _
    rw [h.count q]
    ring
  case nodup =>
    rw [List.nodup_append]
    refine ⟨hnodup, hst, ?_⟩
    rintro a ha b hb rfl
    exact ((hnew a).mp ha).2 (h.stack a (List.mem_cons_of_mem p hb)).2
  case stack =>
    intro q hq
    rcases List.mem_append.mp hq with hin | hin
    · have hkid := ((hnew q).mp hin).1
      exact ⟨hclosed p hgray q hkid, by rw [hcolor, if_pos hkid]⟩
    · obtain ⟨hg, hb⟩ := h.stack q (List.mem_cons_of_mem p hin)
      exact ⟨hg, hstay hb⟩
  case closed =>
    intro q hg hb hout c hc
    by_cases hq : q = p
    · subst hq
      rw [hcolor, if_pos hc]
    · have hold : s.color q = .black := by
        by_contra hne
        rw [hcolor] at hb
        split at hb
        · rename_i hkid
          exact hout (List.mem_append_left _ ((hnew q).mpr ⟨hkid, hne⟩))
        · exact hne hb
      refine hstay (h.closed q hg hold ?_ c hc)
      rw [List.mem_cons, not_or]
      exact ⟨hq, fun hin => hout (List.mem_append_right _ hin)⟩
  case kept =>
    intro q hg hb
    rw [hcolor] at hb
    split at hb
    · rename_i hkid
      obtain ⟨a, ha, hheld, hreach⟩ := h.kept p hgray hblack
      exact ⟨a, ha, hheld, hreach.tail hkid⟩
    · exact h.kept q hg hb

/-- The objects that turn black are taken from those that are not. -/
theorem card_blacken {new l : List N} (hnodup : new.Nodup)
    (hnew : ∀ c, c ∈ new ↔ c ∈ l ∧ s.color c ≠ .black) :
    new.length + (((s.blacken l).colored .black)ᶜ).card =
      ((s.colored .black)ᶜ).card := by
  have hset : ((s.blacken l).colored .black)ᶜ =
      (s.colored .black)ᶜ \ new.toFinset := by
    ext q
    rw [Finset.mem_sdiff, Finset.mem_compl, Finset.mem_compl,
      CcState.mem_colored, CcState.mem_colored, List.mem_toFinset, hnew]
    change (if q ∈ l then Color.black else s.color q) ≠ _ ↔ _
    split <;> simp_all
  have hsub : new.toFinset ⊆ (s.colored .black)ᶜ := by
    intro q hq
    rw [Finset.mem_compl, CcState.mem_colored]
    exact ((hnew q).mp (List.mem_toFinset.mp hq)).2
  have hle := Finset.card_le_card hsub
  rw [List.toFinset_card_of_nodup hnodup] at hle
  rw [hset, Finset.card_sdiff_of_subset hsub,
    List.toFinset_card_of_nodup hnodup]
  omega

theorem scanBlack (h : BlackInv t s₁ s' [p] (s.setColor p .black))
    (hclosed : ∀ q, s₁.color q = .gray → ∀ c ∈ t.kids q, s₁.color c = .gray)
    {fuel : ℕ} (hfuel : t.fuel ≤ fuel) :
    ∃ s₂, Cycle.scanBlack t fuel p s = some s₂ ∧ BlackInv t s₁ s' [] s₂ ∧
      s₂.color p = .black := by
  refine drain_spec
    (I := fun st s => BlackInv t s₁ s' st s ∧ s.color p = .black)
    (μ := fun s => ((s.colored .black)ᶜ).card) ?_ fuel [p] _ ?_
    ⟨h, (h.stack p List.mem_cons_self).2⟩
  · rintro q st s ⟨h, hp⟩
    obtain ⟨new, hwalk, hnodup, hnew⟩ :=
      ccWalk_visitIncPush t q st s
    refine ⟨_, _, ?_, ⟨h.visit hclosed hnodup hnew, ?_⟩, ?_⟩
    · rw [scanBlackBody, hwalk]
    · change (if p ∈ t.kids q then Color.black else s.color p) = _
      rw [hp, ite_self]
    · have hcard := card_blacken (s := s.addEdges (t.kids q)) hnodup hnew
      rw [List.length_append]
      change _ ≤ _ + ((CcState.colored (s.addEdges (t.kids q)) .black)ᶜ).card
      omega
  · have hle := Finset.card_le_univ (((s.setColor p .black).colored .black)ᶜ)
    rw [Tracer.fuel] at hfuel
    simp only [List.length_singleton]
    omega

end BlackInv

namespace ScanInv

/-- A gray object still has the count of `s₁`. -/
theorem count_gray (h : ScanInv t s₁ seeds todo st s)
    (hp : s.color p ≠ .black) : s.count p = s₁.count p := by
  have hnone : refs t.kids (blackened s₁ s) p = 0 := by
    rw [refs_eq_zero_iff]
    intro q hq hkid
    obtain ⟨hg, hb⟩ := mem_blackened.mp hq
    exact hp (h.closed q hg hb p hkid)
  rw [h.count p, hnone, add_zero]

theorem skip (h : ScanInv t s₁ seeds todo (p :: st) s)
    (hp : s.color p ≠ .gray) : ScanInv t s₁ seeds todo st s where
  frame := h.frame
  outside := h.outside
  inside := h.inside
  count := h.count
  closed := h.closed
  white q hg hw := by
    obtain ⟨hheld, hkids⟩ := h.white q hg hw
    refine ⟨hheld, fun c hc => ?_⟩
    rcases hkids c hc with hne | hmem
    · exact .inl hne
    · rcases List.mem_cons.mp hmem with rfl | hst
      · exact .inl hp
      · exact .inr hst
  kept := h.kept
  stack q hq := h.stack q (List.mem_cons_of_mem p hq)
  begun r hr := by
    rcases h.begun r hr with hne | hmem | htodo
    · exact .inl hne
    · rcases List.mem_cons.mp hmem with rfl | hst
      · exact .inl hp
      · exact .inr (.inl hst)
    · exact .inr (.inr htodo)

/-- An object that turns white. -/
theorem whiten (h : ScanInv t s₁ seeds todo (p :: st) s)
    (hclosed : ∀ q, s₁.color q = .gray → ∀ c ∈ t.kids q, s₁.color c = .gray)
    (hp : s.color p = .gray) (hheld : ¬Held t s₁ p) :
    ScanInv t s₁ seeds todo ((t.kids p).reverse ++ st)
      (s.setColor p .white) := by
  have hcolor (q : N) : (s.setColor p .white).color q =
      if q = p then .white else s.color q := s.setColor_color p q _
  have hgray := h.stack p List.mem_cons_self
  have hblack (q : N) : (s.setColor p .white).color q = .black ↔
      s.color q = .black := by
    rw [hcolor]
    split
    · rename_i heq
      rw [heq, hp]
      exact iff_of_false (by decide) (by decide)
    · exact Iff.rfl
  have hstay {q : N} (hq : s.color q ≠ .gray) :
      (s.setColor p .white).color q ≠ .gray := by
    rw [hcolor]
    split
    · decide
    · exact hq
  have hset : blackened s₁ (s.setColor p .white) = blackened s₁ s := by
    ext q
    rw [mem_blackened, mem_blackened, hblack]
  constructor
  case frame =>
    rw [h.frame]
    rfl
  case outside =>
    intro q hq
    rw [hcolor, if_neg (by rintro rfl; exact hq hgray)]
    exact h.outside q hq
  case inside =>
    intro q hq
    rw [hcolor]
    split
    · exact .inr (.inl rfl)
    · exact h.inside q hq
  case count =>
    intro q
    rw [hset]
    exact h.count q
  case closed =>
    intro q hg hb c hc
    exact (hblack c).mpr (h.closed q hg ((hblack q).mp hb) c hc)
  case white =>
    intro q hg hw
    by_cases hq : q = p
    · subst hq
      exact ⟨hheld, fun c hc =>
        .inr (List.mem_append_left _ (List.mem_reverse.mpr hc))⟩
    · rw [hcolor, if_neg hq] at hw
      obtain ⟨hheld', hkids⟩ := h.white q hg hw
      refine ⟨hheld', fun c hc => ?_⟩
      rcases hkids c hc with hne | hmem
      · exact .inl (hstay hne)
      · rcases List.mem_cons.mp hmem with rfl | hst
        · exact .inl (by rw [hcolor, if_pos rfl]; decide)
        · exact .inr (List.mem_append_right _ hst)
  case kept =>
    intro q hg hb
    exact h.kept q hg ((hblack q).mp hb)
  case stack =>
    intro q hq
    rcases List.mem_append.mp hq with hkid | hst
    · exact hclosed p hgray q (List.mem_reverse.mp hkid)
    · exact h.stack q (List.mem_cons_of_mem p hst)
  case begun =>
    intro r hr
    rcases h.begun r hr with hne | hmem | htodo
    · exact .inl (hstay hne)
    · rcases List.mem_cons.mp hmem with rfl | hst
      · exact .inl (by rw [hcolor, if_pos rfl]; decide)
      · exact .inr (.inl (List.mem_append_right _ hst))
    · exact .inr (.inr htodo)

/-- A root turns black. -/
theorem blackStart (h : ScanInv t s₁ seeds todo (p :: st) s)
    (hheld : Held t s₁ p) (hp : s.color p = .gray) :
    BlackInv t s₁ s [p] (s.setColor p .black) := by
  have hcolor (q : N) : (s.setColor p .black).color q =
      if q = p then .black else s.color q := s.setColor_color p q _
  have hgray := h.stack p List.mem_cons_self
  have hset : blackened s₁ (s.setColor p .black) \ [p].toFinset =
      blackened s₁ s := by
    ext q
    rw [Finset.mem_sdiff, mem_blackened, mem_blackened, hcolor,
      List.mem_toFinset, List.mem_singleton]
    by_cases hq : q = p
    · simp [hq, hp]
    · simp [hq]
  constructor
  case frame =>
    rw [h.frame]
    rfl
  case mono =>
    intro q
    rw [hcolor]
    split
    · rename_i heq
      exact .inr ⟨rfl, heq ▸ hgray⟩
    · exact .inl rfl
  case count =>
    intro q
    rw [hset]
    exact h.count q
  case nodup => exact List.nodup_singleton p
  case stack =>
    intro q hq
    obtain rfl := List.mem_singleton.mp hq
    exact ⟨hgray, by rw [hcolor, if_pos rfl]⟩
  case closed =>
    intro q hg hb hout c hc
    rw [List.mem_singleton] at hout
    rw [hcolor, if_neg hout] at hb
    rw [hcolor, h.closed q hg hb c hc, ite_self]
  case kept =>
    intro q hg hb
    by_cases hq : q = p
    · subst hq
      exact ⟨q, hgray, hheld, .refl q⟩
    · rw [hcolor, if_neg hq] at hb
      exact h.kept q hg hb

/-- The scan after a root's subgraph is restored. -/
theorem restored (h : ScanInv t s₁ seeds todo (p :: st) s)
    (hb : BlackInv t s₁ s [] s') (hp : s'.color p = .black) :
    ScanInv t s₁ seeds todo st s' := by
  have hstay {q : N} (hq : s.color q ≠ .gray) : s'.color q ≠ .gray := by
    rcases hb.mono q with heq | ⟨hblack, -⟩
    · rw [heq]
      exact hq
    · rw [hblack]
      decide
  have hp' : s'.color p ≠ .gray := by
    rw [hp]
    decide
  constructor
  case frame => exact hb.frame
  case outside =>
    intro q hq
    rcases hb.mono q with heq | ⟨-, hg⟩
    · rw [heq]
      exact h.outside q hq
    · exact absurd hg hq
  case inside =>
    intro q hq
    rcases hb.mono q with heq | ⟨hblack, -⟩
    · rw [heq]
      exact h.inside q hq
    · exact .inr (.inr hblack)
  case count =>
    intro q
    have hcount := hb.count q
    rw [List.toFinset_nil, Finset.sdiff_empty] at hcount
    exact hcount
  case closed => exact fun q hg hq => hb.closed q hg hq (by simp)
  case white =>
    intro q hg hw
    have hold : s.color q = .white := by
      rcases hb.mono q with heq | ⟨hblack, -⟩
      · rw [← heq]
        exact hw
      · rw [hblack] at hw
        cases hw
    obtain ⟨hheld, hkids⟩ := h.white q hg hold
    refine ⟨hheld, fun c hc => ?_⟩
    rcases hkids c hc with hne | hmem
    · exact .inl (hstay hne)
    · rcases List.mem_cons.mp hmem with rfl | hst
      · exact .inl hp'
      · exact .inr hst
  case kept => exact hb.kept
  case stack => exact fun q hq => h.stack q (List.mem_cons_of_mem p hq)
  case begun =>
    intro r hr
    rcases h.begun r hr with hne | hmem | htodo
    · exact .inl (hstay hne)
    · rcases List.mem_cons.mp hmem with rfl | hst
      · exact .inl hp'
      · exact .inr (.inl hst)
    · exact .inr (.inr htodo)

/-- What the loop's test finds. -/
theorem held_iff (h : ScanInv t s₁ seeds todo st s) (hp : s.color p = .gray) :
    (t.holdsBuffered = true ∧ s.buf p = true) ∨ 0 < s.count p ↔
      Held t s₁ p := by
  have hbuf : s.buf = s₁.buf := by rw [h.frame]
  rw [h.count_gray (by rw [hp]; decide), hbuf]
  rfl

theorem step (h : ScanInv t s₁ seeds todo (p :: st) s)
    (hclosed : ∀ q, s₁.color q = .gray → ∀ c ∈ t.kids q, s₁.color c = .gray)
    {fuel : ℕ} (hfuel : t.fuel ≤ fuel) :
    ∃ st' s', scanBody t fuel p st s = some (st', s') ∧
      ScanInv t s₁ seeds todo st' s' ∧
      st'.length + t.edges (s'.colored .gray) ≤
        st.length + t.edges (s.colored .gray) := by
  by_cases hp : s.color p = .gray
  · by_cases hheld : Held t s₁ p
    · obtain ⟨s', hs, hb, hblack⟩ :=
        (h.blackStart hheld hp).scanBlack hclosed hfuel
      refine ⟨st, s', ?_, h.restored hb hblack, ?_⟩
      · rw [scanBody, if_neg (not_not.mpr hp), if_pos ((h.held_iff hp).mpr hheld),
          hs]
        rfl
      · have hsub : s'.colored .gray ⊆ s.colored .gray := by
          intro q hq
          rw [CcState.mem_colored] at hq ⊢
          rcases hb.mono q with heq | ⟨hq', -⟩
          · rw [← heq, hq]
          · rw [hq'] at hq
            cases hq
        exact Nat.add_le_add_left (t.edges_mono hsub) _
    · refine ⟨_, _, ?_, h.whiten hclosed hp hheld, ?_⟩
      · rw [scanBody, if_neg (not_not.mpr hp),
          if_neg (mt (h.held_iff hp).mp hheld), ccWalk_visitPush]
      · have hset : s.colored .gray =
            insert p ((s.setColor p .white).colored .gray) := by
          ext q
          rw [Finset.mem_insert, CcState.mem_colored, CcState.mem_colored,
            s.setColor_color]
          by_cases hq : q = p
          · simp [hq, hp]
          · simp [hq]
        have hout : p ∉ (s.setColor p .white).colored .gray := by
          rw [CcState.mem_colored, s.setColor_color, if_pos rfl]
          decide
        rw [hset, t.edges_insert hout, List.length_append,
          List.length_reverse]
        omega
  · refine ⟨st, s, ?_, h.skip hp, le_rfl⟩
    rw [scanBody, if_pos hp]

/-- One root, with nothing on the stack. -/
theorem root (h : ScanInv t s₁ seeds (p :: todo) [] s)
    (hclosed : ∀ q, s₁.color q = .gray → ∀ c ∈ t.kids q, s₁.color c = .gray)
    (hp : s₁.color p = .gray) {fuel : ℕ} (hfuel : t.fuel ≤ fuel) :
    ∃ s', scan t fuel p s = some s' ∧ ScanInv t s₁ seeds todo [] s' := by
  have hstart : ScanInv t s₁ seeds todo [p] s := by
    refine ⟨h.frame, h.outside, h.inside, h.count, h.closed, ?_, h.kept, ?_,
      ?_⟩
    · intro q hg hw
      obtain ⟨hheld, hkids⟩ := h.white q hg hw
      exact ⟨hheld, fun c hc => (hkids c hc).imp_right fun hmem => by cases hmem⟩
    · intro q hq
      obtain rfl := List.mem_singleton.mp hq
      exact hp
    · intro r hr
      rcases h.begun r hr with hne | hmem | htodo
      · exact .inl hne
      · cases hmem
      · rcases List.mem_cons.mp htodo with rfl | hrest
        · exact .inr (.inl List.mem_cons_self)
        · exact .inr (.inr hrest)
  refine drain_spec (I := fun st s => ScanInv t s₁ seeds todo st s)
    (μ := fun s => t.edges (s.colored .gray)) ?_ fuel [p] s ?_ hstart
  · exact fun q st s h => h.step hclosed hfuel
  · have hle := t.edges_mono (Finset.subset_univ (s.colored .gray))
    rw [Tracer.fuel] at hfuel
    simp only [List.length_singleton]
    omega

end ScanInv

/-- The scan from all candidates. -/
theorem scan_spec (hclosed : ∀ q, s₁.color q = .gray → ∀ c ∈ t.kids q, s₁.color c = .gray)
    (hseeds : ∀ r ∈ seeds, s₁.color r = .gray) {fuel : ℕ} (hfuel : t.fuel ≤ fuel) :
    ∃ s, forEach (scan t fuel) seeds s₁ = some s ∧
      ScanInv t s₁ seeds [] [] s := by
  have hempty : blackened s₁ s₁ = ∅ := by
    ext p
    rw [mem_blackened]
    refine iff_of_false ?_ (Finset.notMem_empty p)
    rintro ⟨hg, hb⟩
    rw [hg] at hb
    cases hb
  have hfalse {q : N} {c : Color} (hg : s₁.color q = .gray) (hc : c ≠ .gray)
      (hq : s₁.color q = c) : False := hc (hq.symm.trans hg)
  have hstart : ScanInv t s₁ seeds seeds [] s₁ := by
    refine ⟨rfl, fun _ _ => rfl, fun _ => .inl, ?_, ?_, ?_, ?_, by simp, ?_⟩
    · intro p
      rw [hempty, refs_empty, add_zero]
    · exact fun p hg hb => (hfalse hg (by decide) hb).elim
    · exact fun p hg hw => (hfalse hg (by decide) hw).elim
    · exact fun p hg hb => (hfalse hg (by decide) hb).elim
    · exact fun r hr => .inr (.inr hr)
  have hspec := forEach_spec
    (I := fun todo s => (∀ r ∈ todo, r ∈ seeds) ∧ ScanInv t s₁ seeds todo [] s)
    (f := scan t fuel) ?_ seeds s₁ ⟨fun _ h => h, hstart⟩
  · obtain ⟨s, hs, -, h⟩ := hspec
    exact ⟨s, hs, h⟩
  · rintro r todo s ⟨hsub, h⟩
    have hr := hsub r List.mem_cons_self
    obtain ⟨s', hs, h'⟩ := h.root hclosed (hseeds r hr) hfuel
    exact ⟨s', hs, fun q hq => hsub q (List.mem_cons_of_mem r hq), h'⟩

/-- At the end nothing that the candidates reach is gray. -/
theorem ScanInv.not_gray (h : ScanInv t s₁ seeds [] [] s)
    (hclosed : ∀ q, s₁.color q = .gray → ∀ c ∈ t.kids q, s₁.color c = .gray)
    (hseeds : ∀ r ∈ seeds, s₁.color r = .gray) (hp : Marked t seeds p) :
    s.color p ≠ .gray := by
  obtain ⟨r, hr, hreach⟩ := hp
  have hboth : s₁.color p = .gray ∧ s.color p ≠ .gray := by
    refine hreach.closed
      (S := fun q => s₁.color q = .gray ∧ s.color q ≠ .gray) ?_ ?_
    · rintro a b ⟨hg, hne⟩ hb
      refine ⟨hclosed a hg b hb, ?_⟩
      rcases h.inside a hg with hgray | hwhite | hblack
      · exact absurd hgray hne
      · exact ((h.white a hg hwhite).2 b hb).resolve_right (by simp)
      · rw [h.closed a hg hblack b hb]
        decide
    · exact ⟨hseeds r hr, (h.begun r hr).resolve_right (by simp)⟩
  exact hboth.2

/-- At the end white is what no root keeps. -/
theorem ScanInv.white_iff (h : ScanInv t s₁ seeds [] [] s)
    (hclosed : ∀ q, s₁.color q = .gray → ∀ c ∈ t.kids q, s₁.color c = .gray)
    (hseeds : ∀ r ∈ seeds, s₁.color r = .gray)
    (hmarked : ∀ q, s₁.color q = .gray → Marked t seeds q)
    (hp : s₁.color p = .gray) : s.color p = .white ↔ ¬Kept t s₁ p := by
  have hcolor {q : N} (hg : s₁.color q = .gray) :
      s.color q = .white ∨ s.color q = .black :=
    (h.inside q hg).resolve_left
      (h.not_gray hclosed hseeds (hmarked q hg))
  constructor
  · rintro hw ⟨a, ha, hheld, hreach⟩
    have hab : s.color a = .black :=
      (hcolor ha).resolve_left fun haw => (h.white a ha haw).1 hheld
    have hboth : s₁.color p = .gray ∧ s.color p = .black := by
      refine hreach.closed
        (S := fun q => s₁.color q = .gray ∧ s.color q = .black) ?_ ⟨ha, hab⟩
      rintro b c ⟨hbg, hbb⟩ hc
      exact ⟨hclosed b hbg c hc, h.closed b hbg hbb c hc⟩
    rw [hboth.2] at hw
    cases hw
  · intro hkept
    exact (hcolor hp).resolve_right fun hb => hkept (h.kept p hp hb)

/-- At the end the edges that leave white objects are missing from the
counts. -/
theorem ScanInv.count_eq (h : ScanInv t s₁ seeds [] [] s)
    (hclosed : ∀ q, s₁.color q = .gray → ∀ c ∈ t.kids q, s₁.color c = .gray)
    (hseeds : ∀ r ∈ seeds, s₁.color r = .gray)
    (hmarked : ∀ q, s₁.color q = .gray → Marked t seeds q) (p : N) :
    s.count p = s₁.count p + refs t.kids (s₁.colored .gray) p -
      refs t.kids (s₁.colored .gray ∩ s.colored .white) p := by
  have hsplit : blackened s₁ s =
      s₁.colored .gray \ (s₁.colored .gray ∩ s.colored .white) := by
    ext q
    rw [mem_blackened, Finset.mem_sdiff, Finset.mem_inter,
      CcState.mem_colored, CcState.mem_colored]
    constructor
    · rintro ⟨hg, hb⟩
      refine ⟨hg, fun hw => ?_⟩
      rw [hw.2] at hb
      cases hb
    · rintro ⟨hg, hw⟩
      refine ⟨hg, ?_⟩
      rcases h.inside q hg with hgray | hwhite | hblack
      · exact absurd hgray (h.not_gray hclosed hseeds (hmarked q hg))
      · exact absurd ⟨hg, hwhite⟩ hw
      · exact hblack
  rw [h.count p, hsplit, refs_sdiff Finset.inter_subset_left]
  ring

end Cycle
end Beans
