import Beans.Channel.Channel

/-!
# The wait lines of a channel

A line holds the fibers that wait on its side and are not signalled, in the order in which
they went in, and a condition wait holds threads that wait on its side.  Every operation
under the mutex keeps this, also the removal of a cancelled fiber from the middle.
-/

namespace Beans
namespace Channel

open Function IntrusiveQueue

variable {P V : Type*}

/-- The party is in the wait of a call on the side. -/
def ChanState.WaitsFor (s : ChanState P V) (p : P) (side : Side) : Prop :=
  ∃ c, s.place p = .waiting c ∧ c.side = side

/-- The party waits for a wake. -/
def ChanState.Asleep (fiber : P → Bool) (s : ChanState P V) (p : P) (side : Side) : Prop :=
  s.WaitsFor p side ∧ if fiber p then s.signalled p = false else p ∈ s.cond side

/-- The lists that the lines stand for. -/
structure Lined (fiber : P → Bool) (s : ChanState P V) (l : Side → List P) : Prop where
  linked : ∀ side, Linked s.next (s.line side) (l side)
  listed : ∀ p side, p ∈ l side ↔ fiber p = true ∧ s.signalled p = false ∧ s.WaitsFor p side
  blocked : ∀ p side, p ∈ s.cond side → fiber p = false ∧ s.WaitsFor p side
  distinct : ∀ side, (s.cond side).Nodup
  ordered : ∀ side, (l side).Pairwise fun p r => s.since p < s.since r
  stamped : ∀ side, ∀ p ∈ l side, s.since p < s.pushes
  short : ∀ side, (l side).length ≤ s.pushes

/-- The party is in no line and in no condition wait. -/
def Rests (s : ChanState P V) (l : Side → List P) (p : P) : Prop :=
  ∀ side, p ∉ l side ∧ p ∉ s.cond side

variable {fiber : P → Bool} {s : ChanState P V} {l : Side → List P} {p r : P}
  {side d : Side}

theorem ChanState.WaitsFor.unique (h : s.WaitsFor p side) (hd : s.WaitsFor p d) :
    side = d := by
  obtain ⟨c, hc, rfl⟩ := h
  obtain ⟨e, he, rfl⟩ := hd
  rw [hc] at he
  cases he
  rfl

theorem not_waitsFor_of_free (h : (s.place p).free = true) : ¬s.WaitsFor p side := by
  rintro ⟨c, hc, -⟩
  rw [hc] at h
  cases h

theorem lined_new (fiber : P → Bool) (cap : ℤ) (zero : V) :
    Lined fiber (beansChanNew cap zero) fun _ => [] where
  linked _ := Linked.empty _
  listed p side := by simp [ChanState.WaitsFor, beansChanNew]
  blocked := by nofun
  distinct _ := List.nodup_nil
  ordered _ := List.Pairwise.nil
  stamped := by nofun
  short _ := le_rfl

namespace Lined

theorem rests_of_free (h : Lined fiber s l) (hp : (s.place p).free = true) :
    Rests s l p := by
  intro side
  constructor
  · intro hl
    exact not_waitsFor_of_free hp ((h.listed p side).mp hl).2.2
  · intro hc
    exact not_waitsFor_of_free hp (h.blocked p side hc).2

theorem asleep_iff (h : Lined fiber s l) :
    s.Asleep fiber p side ↔ p ∈ l side ∨ p ∈ s.cond side := by
  have hblocked := h.blocked p side
  rw [ChanState.Asleep, h.listed]
  cases hf : fiber p <;> simp_all [and_comm]

/-- A party that was let go. -/
theorem rests_of_waits (h : Lined fiber s l) (hp : s.WaitsFor p side)
    (hgone : ¬s.Asleep fiber p side) : Rests s l p := by
  intro d
  by_cases hd : d = side
  · subst hd
    exact not_or.mp (mt h.asleep_iff.mpr hgone)
  · exact ⟨fun hl => hd (((h.listed p d).mp hl).2.2.unique hp),
      fun hc => hd ((h.blocked p d hc).2.unique hp)⟩

theorem disjoint (h : Lined fiber s l) (hne : side ≠ d) (hp : p ∈ l side) : p ∉ l d :=
  fun hd => hne (((h.listed p side).mp hp).2.2.unique ((h.listed p d).mp hd).2.2)

/-- Shorter lists for one side. -/
theorem update_sublist {m : Side → List P} {x : List P} (hx : x.Sublist (m side)) (d : Side) :
    (update m side x d).Sublist (m d) :=
  (forall_update_iff m fun d x => x.Sublist (m d)).mpr ⟨hx, fun _ _ => .refl _⟩ d

theorem mem_update {m : Side → List P} {x : List P} (hx : r ∈ x ↔ r ∈ m side) (d : Side) :
    r ∈ update m side x d ↔ r ∈ m d :=
  (forall_update_iff m fun d x => r ∈ x ↔ r ∈ m d).mpr ⟨hx, fun _ _ => .rfl⟩ d

variable [DecidableEq P]

theorem waitsFor_setPlace {x : Place V} (hr : r ≠ p) :
    (s.setPlace p x).WaitsFor r side ↔ s.WaitsFor r side := by
  simp [ChanState.WaitsFor, ChanState.setPlace, hr]

theorem waitsFor_setPlace_self {x : Place V} :
    (s.setPlace p x).WaitsFor p side ↔ ∃ c, x = .waiting c ∧ c.side = side := by
  simp [ChanState.WaitsFor, ChanState.setPlace]

/-- A party outside of the lines leaves its call, or was in none. -/
theorem setPlace (h : Lined fiber s l) (hp : Rests s l p) {x : Place V}
    (hx : ∀ c, x ≠ .waiting c) : Lined fiber (s.setPlace p x) l where
  linked := h.linked
  listed r side := by
    by_cases hr : r = p
    · subst hr
      simp [(hp side).1, waitsFor_setPlace_self, hx]
    · rw [waitsFor_setPlace hr]
      exact h.listed r side
  blocked r side hc := by
    have hr : r ≠ p := fun he => (hp side).2 (he ▸ hc)
    rw [waitsFor_setPlace hr]
    exact h.blocked r side hc
  distinct := h.distinct
  ordered := h.ordered
  stamped := h.stamped
  short := h.short

/-- A fiber goes to the end of its line. -/
theorem push (h : Lined fiber s l) (hp : Rests s l p) (hfiber : fiber p = true)
    (c : Call V) :
    Lined fiber ((s.fiberLinePush c.side p).setPlace p (.waiting c))
      (update l c.side (l c.side ++ [p])) where
  linked := by
    refine (forall_update_iff l _).mpr ⟨?_, fun d hd => ?_⟩
    · simp only [update_self, ChanState.setPlace, ChanState.fiberLinePush]
      exact (h.linked _).push (hp _).1
    · simp only [update_of_ne hd, ChanState.setPlace, ChanState.fiberLinePush]
      exact (h.linked _).push_other (h.linked d)
        (fun _ hx => h.disjoint (Ne.symm hd) hx) (hp d).1
  listed r d := by
    by_cases hr : r = p
    · subst hr
      rw [waitsFor_setPlace_self]
      by_cases hd : d = c.side
      · subst hd
        simp [ChanState.setPlace, ChanState.fiberLinePush, hfiber]
      · simp [update_of_ne hd, (hp d).1, Ne.symm hd]
    · rw [waitsFor_setPlace hr]
      rw [mem_update (by simp [hr]), h.listed r d]
      simp [ChanState.setPlace, ChanState.fiberLinePush, hr, ChanState.WaitsFor]
  blocked r d hc := by
    have hr : r ≠ p := fun he => (hp d).2 (he ▸ hc)
    rw [waitsFor_setPlace hr]
    exact h.blocked r d hc
  distinct := h.distinct
  ordered d := by
    have hsame : ∀ r, r ≠ p → update s.since p s.pushes r = s.since r :=
      fun r hr => update_of_ne hr _ _
    have hold (d : Side) : (l d).Pairwise fun r q =>
        update s.since p s.pushes r < update s.since p s.pushes q := by
      refine (h.ordered d).imp_of_mem fun hr hq hlt => ?_
      rw [hsame _ (ne_of_mem_of_not_mem hr (hp d).1),
        hsame _ (ne_of_mem_of_not_mem hq (hp d).1)]
      exact hlt
    refine (forall_update_iff l fun _ m => m.Pairwise _).mpr ⟨?_, fun d _ => hold d⟩ d
    refine List.pairwise_append.mpr ⟨hold _, List.pairwise_singleton _ _, fun r hr q hq => ?_⟩
    obtain rfl := List.mem_singleton.mp hq
    simp only [update_self, hsame r (ne_of_mem_of_not_mem hr (hp c.side).1)]
    exact h.stamped _ r hr
  stamped d r hr := by
    by_cases hrp : r = p
    · subst hrp
      simp [ChanState.setPlace, ChanState.fiberLinePush]
    · have hmem : r ∈ l d := (mem_update (by simp [hrp]) d).mp hr
      simp only [ChanState.setPlace, ChanState.fiberLinePush, update_of_ne hrp]
      exact Nat.lt_succ_of_lt (h.stamped d r hmem)
  short := (forall_update_iff l fun _ m => m.length ≤ s.pushes + 1).mpr
    ⟨by simpa using h.short c.side, fun d _ => (h.short d).trans (Nat.le_succ _)⟩

/-- A thread goes into the condition wait of its side. -/
theorem block (h : Lined fiber s l) (hp : Rests s l p) (hthread : fiber p = false)
    (c : Call V) :
    Lined fiber { s.setPlace p (.waiting c) with
      cond := update s.cond c.side (s.cond c.side ++ [p]) } l where
  linked := h.linked
  listed r d := by
    by_cases hr : r = p
    · subst hr
      simp [(hp d).1, hthread]
    · exact (h.listed r d).trans (and_congr_right' (and_congr_right'
        (waitsFor_setPlace hr).symm))
  blocked r d hc := by
    by_cases hr : r = p
    · subst hr
      refine ⟨hthread, c, update_self _ _ _, ?_⟩
      by_contra hd
      dsimp only at hc
      rw [update_of_ne (Ne.symm hd)] at hc
      exact (hp d).2 hc
    · have hold : r ∈ s.cond d := (mem_update (by simp [hr]) d).mp hc
      exact ⟨(h.blocked r d hold).1, (waitsFor_setPlace hr).mpr (h.blocked r d hold).2⟩
  distinct := (forall_update_iff s.cond fun _ m => m.Nodup).mpr
    ⟨(List.nodup_append_comm.mp (List.nodup_cons.mpr ⟨(hp _).2, h.distinct _⟩)),
      fun d _ => h.distinct d⟩
  ordered := h.ordered
  stamped := h.stamped
  short := h.short

omit [DecidableEq P] in
/-- Shorter lists of the same fibers keep the order. -/
theorem shorten (h : Lined fiber s l) {s' : ChanState P V} {l' : Side → List P}
    (hsub : ∀ d, (l' d).Sublist (l d)) (hcond : ∀ d, (s'.cond d).Sublist (s.cond d))
    (hsince : s'.since = s.since) (hpushes : s'.pushes = s.pushes)
    (hlinked : ∀ d, Linked s'.next (s'.line d) (l' d))
    (hlisted : ∀ r d, r ∈ l' d ↔
      fiber r = true ∧ s'.signalled r = false ∧ s'.WaitsFor r d)
    (hblocked : ∀ r d, r ∈ s'.cond d → s'.WaitsFor r d) : Lined fiber s' l' where
  linked := hlinked
  listed := hlisted
  blocked r d hr := ⟨(h.blocked r d ((hcond d).subset hr)).1, hblocked r d hr⟩
  distinct d := (h.distinct d).sublist (hcond d)
  ordered d := by
    rw [hsince]
    exact (h.ordered d).sublist (hsub d)
  stamped d r hr := by
    rw [hsince, hpushes]
    exact h.stamped d r ((hsub d).subset hr)
  short d := by
    rw [hpushes]
    exact (hsub d).length_le.trans (h.short d)

/-- The first fiber of a line is signalled and leaves it. -/
theorem pop (h : Lined fiber s l) {rest : List P} (hl : l side = p :: rest) :
    Lined fiber (s.fiberLinePop side p) (update l side rest) := by
  have hp : p ∈ l side := hl ▸ List.mem_cons_self
  have hout : p ∉ rest := (List.nodup_cons.mp (hl ▸ (h.linked side).nodup)).1
  refine h.shorten (update_sublist ?_) (fun d => .refl _) rfl rfl ?_ (fun r d => ?_)
    fun r d hr => (h.blocked r d hr).2
  · rw [hl]
    exact List.sublist_cons_self p rest
  · refine (forall_update_iff l _).mpr ⟨?_, fun d hd => ?_⟩
    · simp only [update_self, ChanState.fiberLinePop]
      exact Linked.pop (hl ▸ h.linked side)
    · simp only [update_of_ne hd, ChanState.fiberLinePop]
      exact (h.linked d).update_other (h.disjoint (Ne.symm hd) hp) none
  · by_cases hr : r = p
    · subst hr
      by_cases hd : d = side
      · subst hd
        simp [ChanState.fiberLinePop, hout]
      · simp [ChanState.fiberLinePop, update_of_ne hd, h.disjoint (Ne.symm hd) hp]
    · rw [mem_update (by simp [hl, hr]), h.listed r d]
      simp [ChanState.fiberLinePop, hr, ChanState.WaitsFor]

omit [DecidableEq P] in
/-- A condition wait lets threads go. -/
theorem release (h : Lined fiber s l) {cond : Side → List P}
    (hsub : ∀ d, (cond d).Sublist (s.cond d)) : Lined fiber { s with cond := cond } l :=
  h.shorten (fun _ => .refl _) hsub rfl rfl h.linked h.listed fun r d hr =>
    (h.blocked r d ((hsub d).subset hr)).2

omit [DecidableEq P] in
/-- The ring is nothing to the lines. -/
theorem ring (h : Lined fiber s l) {q : ℕ → V} {cap head count : ℕ} {closed : Bool}
    {sent received : List V} : Lined fiber
      { s with
        q := q, cap := cap, head := head, count := count, closed := closed
        sent := sent, received := received } l :=
  ⟨h.linked, h.listed, h.blocked, h.distinct, h.ordered, h.stamped, h.short⟩

/-- A wake takes the first fiber, or a thread where there is none. -/
theorem wake (h : Lined fiber s l) (side : Side) (pick : ℕ) :
    Lined fiber (s.chanWake side pick) (update l side (l side).tail) := by
  have hhead := (h.linked side).head_eq
  cases hl : l side with
  | cons f rest =>
    rw [hl] at hhead
    rw [ChanState.chanWake, hhead]
    exact h.pop hl
  | nil =>
    rw [hl] at hhead
    rw [ChanState.chanWake, hhead]
    have hsame : update l side [] = l := by rw [← hl, update_eq_self]
    rw [List.tail_nil, hsame]
    exact h.release (update_sublist (List.eraseIdx_sublist _ _))

/-- A cancelled fiber leaves its line, wherever it stands. -/
theorem remove (h : Lined fiber s l) (hp : p ∈ l side) :
    ∃ s', s.fiberLineRemove side p = some s' ∧
      s' = { s with line := s'.line, next := s'.next } ∧
      Lined fiber (s'.setPlace p .cancelled) (update l side ((l side).erase p)) := by
  obtain ⟨before, after, hout, hl, herase⟩ := List.exists_erase_eq hp
  have hlinked := h.linked side
  rw [hl] at hlinked
  have hlen : before.length < s.pushes + 1 := by
    have hshort := h.short side
    simp only [hl, List.length_append, List.length_cons] at hshort
    omega
  have hfound : seek s.next p (s.pushes + 1) none (s.line side).head =
      some (before.getLast?, some p) := by
    rw [hlinked.chain.seek_eq hout hlen, Option.or_none]
  have hremoved : s.fiberLineRemove side p = some { s with
      line := update s.line side (unlinkLine s.next (s.line side) before.getLast? p)
      next := unlinkNext s.next before.getLast? p } := by
    rw [ChanState.fiberLineRemove, hfound]
  refine ⟨_, hremoved, rfl, ?_⟩
  have hgone : p ∉ before ++ after := by
    rw [← herase]
    exact (h.linked side).nodup.not_mem_erase
  refine h.shorten (update_sublist List.erase_sublist) (fun d => .refl _) rfl rfl ?_
    (fun r d => ?_) fun r d hr => ?_
  · refine (forall_update_iff l _).mpr ⟨?_, fun d hd => ?_⟩
    · simp only [update_self, ChanState.setPlace, herase]
      exact hlinked.unlink
    · simp only [update_of_ne hd, ChanState.setPlace]
      refine (h.linked d).unlink_other (h.disjoint (Ne.symm hd) hp) fun q hq => ?_
      refine h.disjoint (Ne.symm hd) ?_
      rw [hl]
      exact List.mem_append_left _ (List.mem_of_getLast? hq)
  · by_cases hr : r = p
    · subst hr
      rw [waitsFor_setPlace_self]
      by_cases hd : d = side
      · subst hd
        simp [herase, hgone]
      · simp [update_of_ne hd, h.disjoint (Ne.symm hd) hp]
    · rw [mem_update (List.mem_erase_of_ne hr), waitsFor_setPlace hr]
      exact h.listed r d
  · have hfiber := ((h.listed p side).mp hp).1
    have hne : r ≠ p := by
      rintro rfl
      rw [(h.blocked r d hr).1] at hfiber
      cases hfiber
    exact (waitsFor_setPlace hne).mpr (h.blocked r d hr).2

/-- The loops of the closer empty a line. -/
theorem popAll (side : Side) (n : ℕ) (h : Lined fiber s l) (hn : (l side).length ≤ n) :
    Lined fiber (ChanState.popAll side n s) (update l side []) := by
  induction n generalizing s l with
  | zero =>
    have hnil := List.length_eq_zero_iff.mp (Nat.le_zero.mp hn)
    rw [← hnil, update_eq_self]
    exact h
  | succ n ih =>
    have hhead := (h.linked side).head_eq
    cases hl : l side with
    | nil =>
      rw [hl] at hhead
      rw [ChanState.popAll, hhead, ← hl, update_eq_self, hl]
      exact h
    | cons f rest =>
      rw [hl] at hhead hn
      rw [ChanState.popAll, hhead]
      have hrest := ih (h.pop hl) (by simpa using hn)
      rwa [update_idem] at hrest

end Lined

end Channel
end Beans
