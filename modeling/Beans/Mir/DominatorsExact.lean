import Beans.Mir.Dominators

/-!
# The dominator sets settle on the dominators

Every set always holds the dominators of its block, and a visit never makes a
set larger: the rounds stop.  The sets they stop with satisfy the dominance
equation of every edge, so that they hold nothing else.
-/

namespace Beans
namespace Mir

open Dominance

variable {function : MirFunction} {reachable : List Bool}

variable {b p v : ℕ} {result : Dominators function}

theorem meetSource_unmarked {next : MirValueSet function.blocks.length × Bool}
    (hp : ¬ reachable.getD p false = true) :
    meetSource function reachable result next p = next :=
  if_pos (Bool.not_eq_true _ ▸ hp)

/-- What a marked predecessor leaves of an id. -/
theorem meetSource_marked {result : Dominators function}
    {next : MirValueSet function.blocks.length × Bool} {p : ℕ}
    (hp : reachable.getD p false = true) :
    (meetSource function reachable result next p).2 = false ∧
      ∀ v, (meetSource function reachable result next p).1.has v =
        if next.2 then next.1.has v || (result.of p).has v
        else next.1.has v && (result.of p).has v := by
  have hmarked : ¬ reachable.getD p false = false := by
    rw [hp]
    decide
  rw [meetSource, if_neg hmarked]
  cases hnext : next.2 with
  | false => exact ⟨rfl, fun v => MirValueSet.has_intersect _ _ v⟩
  | true => exact ⟨rfl, fun v => MirValueSet.has_merge _ _ v⟩

/-- Meeting predecessors in turn: once one was taken, every further one cuts the
set down. -/
theorem has_foldl_meetSource (result : Dominators function) (sources : List ℕ)
    (next : MirValueSet function.blocks.length × Bool)
    (hfirst : next.2 = true → ∀ v, next.1.has v = false) (v : ℕ) :
    (sources.foldl (meetSource function reachable result) next).1.has v = true ↔
      (next.2 = false → next.1.has v = true) ∧
      (next.2 = true → ∃ p ∈ sources, reachable.getD p false = true) ∧
      ∀ p ∈ sources, reachable.getD p false = true → (result.of p).has v = true := by
  induction sources generalizing next with
  | nil =>
    rw [List.foldl_nil]
    cases hnext : next.2 with
    | false => simp
    | true => simp [hfirst hnext v]
  | cons p rest ih =>
    rw [List.foldl_cons, List.forall_mem_cons, List.exists_mem_cons_iff]
    by_cases hp : reachable.getD p false = true
    · obtain ⟨htaken, hmeet⟩ := @meetSource_marked function reachable result next p hp
      have hlater : (meetSource function reachable result next p).2 = true →
          ∀ v, (meetSource function reachable result next p).1.has v = false := by
        rw [htaken]
        exact fun h => absurd h Bool.false_ne_true
      rw [ih _ hlater, htaken, hmeet]
      cases hnext : next.2 with
      | false =>
        simp only [Bool.false_eq_true, if_false, Bool.and_eq_true, forall_const, hp]
        tauto
      | true =>
        simp only [if_true, hfirst hnext v, Bool.false_or, hp]
        tauto
    · rw [meetSource_unmarked hp, ih next hfirst]
      tauto

/-- What the round finds for a block is the block, and what every predecessor
that is marked agrees on. -/
theorem has_nextDominators (result : Dominators function) (hb : b < function.blocks.length)
    (v : ℕ) :
    (nextDominators function reachable result b).has v = true ↔
      v = b ∨
        (∃ p ∈ blockSources function b, reachable.getD p false = true) ∧
        ∀ p ∈ blockSources function b, reachable.getD p false = true →
          (result.of p).has v = true := by
  have hmeet := @has_foldl_meetSource function reachable result (blockSources function b)
    ((MirValueSet.empty _).clear, true) (fun _ v => MirValueSet.has_clear _ v) v
  have hadd := MirValueSet.has_add
    ((blockSources function b).foldl (meetSource function reachable result)
      ((MirValueSet.empty _).clear, true)).1 hb v
  rw [nextDominators, hadd, Bool.or_eq_true, decide_eq_true_eq, hmeet]
  simp only [Bool.true_eq_false, false_imp_iff, true_and, forall_const]

/-- Smaller sets give smaller sets. -/
theorem nextDominators_mono {result' : Dominators function}
    (hle : ∀ b v, (result'.of b).has v = true → (result.of b).has v = true)
    (hb : b < function.blocks.length)
    (h : (nextDominators function reachable result' b).has v = true) :
    (nextDominators function reachable result b).has v = true := by
  rw [has_nextDominators _ hb] at h ⊢
  rcases h with h | ⟨hexists, hall⟩
  · exact Or.inl h
  · exact Or.inr ⟨hexists, fun p hp hmarked => hle p v (hall p hp hmarked)⟩

theorem Dominators.of_set (hb : b < result.length) (next : MirValueSet function.blocks.length)
    (c : ℕ) :
    Dominators.of (result.set b next) c = if c = b then next else result.of c :=
  getD_set result hb next (.empty _) c

/-- A visit leaves everything, or finds an other set for a block it works on. -/
theorem dominatorsBlock_cases (result : Dominators function) (b : ℕ) :
    (dominatorsBlock function reachable result b = (result, false) ∧
      (reachable.getD b false = true → b ≠ function.entry →
        nextDominators function reachable result b = result.of b)) ∨
    (reachable.getD b false = true ∧ b ≠ function.entry ∧
      nextDominators function reachable result b ≠ result.of b ∧
      dominatorsBlock function reachable result b =
        (result.set b (nextDominators function reachable result b), true)) := by
  by_cases hskip : reachable.getD b false = false ∨ b = function.entry
  · refine Or.inl ⟨?_, fun hmarked hne => ?_⟩
    · rw [dominatorsBlock, if_pos hskip]
    · rcases hskip with h | h
      · rw [h] at hmarked
        cases hmarked
      · exact absurd h hne
  · obtain ⟨hmarked, hne⟩ := not_or.mp hskip
    rw [Bool.not_eq_false] at hmarked
    by_cases hequal : (nextDominators function reachable result b).equals (result.of b) = true
    · refine Or.inl ⟨?_, fun _ _ => (MirValueSet.equals_iff _ _).mp hequal⟩
      rw [dominatorsBlock, if_neg hskip]
      exact if_pos hequal
    · refine Or.inr ⟨hmarked, hne, fun h => hequal ((MirValueSet.equals_iff _ _).mpr h), ?_⟩
      rw [dominatorsBlock, if_neg hskip]
      dsimp only
      rw [if_neg hequal, MirValueSet.copyFrom_eq]

/-- The marks are those of the first loop. -/
def Exact (function : MirFunction) (reachable : List Bool) : Prop :=
  ∀ b < function.blocks.length, reachable.getD b false = true ↔ function.Reached b

/-- The sets on the way: those of the entry and of unreached blocks are done,
the others hold all dominators, and no visit would make one larger. -/
structure Narrowing (function : MirFunction) (reachable : List Bool)
    (result : Dominators function) : Prop where
  length_eq : result.length = function.blocks.length
  entry : function.entry < function.blocks.length →
    ∀ v, (result.of function.entry).has v = true ↔ v = function.entry
  unreached : ∀ b < function.blocks.length, ¬ function.Reached b →
    ∀ v, (result.of b).has v = false
  complete : ∀ b < function.blocks.length, function.Reached b →
    ∀ v, Dominates function.Edge function.entry v b → (result.of b).has v = true
  shrinks : ∀ b < function.blocks.length, function.Reached b → b ≠ function.entry →
    ∀ v, (nextDominators function reachable result b).has v = true →
      (result.of b).has v = true

/-- A block that is reached, but not the entry, has a marked predecessor. -/
theorem exists_marked_source (hexact : Exact function reachable) (hreached : function.Reached b)
    (hne : b ≠ function.entry) :
    ∃ p ∈ blockSources function b, reachable.getD p false = true := by
  obtain ⟨p, hp, he⟩ := hreached.source hne
  exact ⟨p, (MirFunction.edge_iff.mp he).2, (hexact p he.source_lt).mpr hp⟩

theorem marked_source (hexact : Exact function reachable) (hb : b < function.blocks.length)
    (hp : p ∈ blockSources function b) :
    function.Edge p b ∧ (reachable.getD p false = true ↔ function.Reached p) := by
  have he : function.Edge p b := MirFunction.edge_iff.mpr ⟨hb, hp⟩
  exact ⟨he, hexact p he.source_lt⟩

/-- What a round finds for a block still holds all dominators. -/
theorem Narrowing.next_complete (hexact : Exact function reachable)
    (h : Narrowing function reachable result) (hb : b < function.blocks.length)
    (hreached : function.Reached b) (hne : b ≠ function.entry)
    (hdom : Dominates function.Edge function.entry v b) :
    (nextDominators function reachable result b).has v = true := by
  rw [has_nextDominators _ hb]
  by_cases hv : v = b
  · exact Or.inl hv
  · refine Or.inr ⟨exists_marked_source hexact hreached hne, fun p hp hmarked => ?_⟩
    obtain ⟨he, hp'⟩ := marked_source hexact hb hp
    exact h.complete p he.source_lt (hp'.mp hmarked) v (hdom.source hv he)

/-- A step of the iteration shrinks one set, and not below the dominators. -/
theorem Narrowing.set (hexact : Exact function reachable) {result : Dominators function}
    (h : Narrowing function reachable result) {b : ℕ} (hb : b < function.blocks.length)
    (hreached : function.Reached b) (hne : b ≠ function.entry) :
    Narrowing function reachable
      (result.set b (nextDominators function reachable result b)) := by
  have hset := Dominators.of_set (by rw [h.length_eq]; exact hb)
    (nextDominators function reachable result b)
  have hle : ∀ c v,
      (Dominators.of (result.set b (nextDominators function reachable result b)) c).has v =
        true → (result.of c).has v = true := by
    intro c v hc
    rw [hset] at hc
    by_cases hcb : c = b
    · rw [if_pos hcb] at hc
      rw [hcb]
      exact h.shrinks b hb hreached hne v hc
    · rw [if_neg hcb] at hc
      exact hc
  refine ⟨?_, fun hentry v => ?_, fun c hc hunreached v => ?_, fun c hc hcreached v hdom => ?_,
    fun c hc hcreached hcne v hnext => ?_⟩
  · rw [List.length_set]
    exact h.length_eq
  · rw [hset, if_neg (Ne.symm hne)]
    exact h.entry hentry v
  · have hcb : c ≠ b := by
      rintro rfl
      exact hunreached hreached
    rw [hset, if_neg hcb]
    exact h.unreached c hc hunreached v
  · rw [hset]
    by_cases hcb : c = b
    · subst hcb
      rw [if_pos rfl]
      exact h.next_complete hexact hc hcreached hne hdom
    · rw [if_neg hcb]
      exact h.complete c hc hcreached v hdom
  · have hbefore := nextDominators_mono hle hc hnext
    rw [hset]
    by_cases hcb : c = b
    · subst hcb
      rw [if_pos rfl]
      exact hbefore
    · rw [if_neg hcb]
      exact h.shrinks c hc hcreached hcne v hbefore

/-- The pairs of a block and an id that its set has lost. -/
def lostPairs (result : Dominators function) : Finset (ℕ × ℕ) :=
  (Finset.range function.blocks.length ×ˢ Finset.range function.blocks.length).filter
    fun pair => (result.of pair.1).has pair.2 = false

theorem card_lostPairs_le (result : Dominators function) :
    (lostPairs result).card ≤ function.blocks.length * function.blocks.length := by
  refine le_trans (Finset.card_filter_le _ _) ?_
  rw [Finset.card_product, Finset.card_range]

theorem Narrowing.card_lt (h : Narrowing function reachable result)
    (hb : b < function.blocks.length) (hreached : function.Reached b) (hne : b ≠ function.entry)
    (hother : nextDominators function reachable result b ≠ result.of b) :
    (lostPairs result).card <
      (@lostPairs function
        (result.set b (nextDominators function reachable result b))).card := by
  have hset := Dominators.of_set (by rw [h.length_eq]; exact hb)
    (nextDominators function reachable result b)
  have hshrinks := h.shrinks b hb hreached hne
  obtain ⟨v, hold, hnew⟩ : ∃ v, (result.of b).has v = true ∧
      (nextDominators function reachable result b).has v = false := by
    by_contra hnone
    push Not at hnone
    refine hother (MirValueSet.has_ext fun v => Bool.eq_iff_iff.mpr ⟨hshrinks v, fun hold => ?_⟩)
    exact Bool.not_eq_false _ ▸ hnone v hold
  refine Finset.card_lt_card (Finset.ssubset_iff_of_subset ?_ |>.mpr ⟨(b, v), ?_, ?_⟩)
  · rintro ⟨c, u⟩ hpair
    rw [lostPairs, Finset.mem_filter] at hpair ⊢
    refine ⟨hpair.1, ?_⟩
    rw [hset]
    by_cases hcb : c = b
    · subst hcb
      rw [if_pos rfl]
      by_contra hnext
      have hlost := hpair.2
      rw [hshrinks u (Bool.not_eq_false _ ▸ hnext)] at hlost
      cases hlost
    · rw [if_neg hcb]
      exact hpair.2
  · rw [lostPairs, Finset.mem_filter, Finset.mem_product, Finset.mem_range, Finset.mem_range,
      hset, if_pos rfl]
    exact ⟨⟨hb, MirValueSet.has_lt hold⟩, hnew⟩
  · rw [lostPairs, Finset.mem_filter, hold]
    simp

/-- A visit keeps the invariant, and loses a pair when it changes anything. -/
theorem Narrowing.visit (hexact : Exact function reachable)
    (h : Narrowing function reachable result) (hb : b < function.blocks.length) :
    Narrowing function reachable (dominatorsBlock function reachable result b).1 ∧
      (lostPairs result).card ≤
        (lostPairs (dominatorsBlock function reachable result b).1).card ∧
      ((dominatorsBlock function reachable result b).2 = true →
        (lostPairs result).card <
          (lostPairs (dominatorsBlock function reachable result b).1).card) := by
  rcases @dominatorsBlock_cases function reachable result b with
    ⟨heq, -⟩ | ⟨hmarked, hne, hother, heq⟩
  · rw [heq]
    exact ⟨h, le_refl _, fun h => absurd h Bool.false_ne_true⟩
  · rw [heq]
    have hreached := (hexact b hb).mp hmarked
    have hlt := h.card_lt hb hreached hne hother
    exact ⟨h.set hexact hb hreached hne, hlt.le, fun _ => hlt⟩

theorem startDominators_of (hb : b < function.blocks.length) :
    Dominators.of (startDominators function reachable) b =
      if reachable.getD b false then
        if b = function.entry then (MirValueSet.empty _).add b
        else (MirValueSet.empty _).fill
      else .empty _ := by
  have hlt : b < (startDominators function reachable).length := by
    rw [startDominators, List.length_map, List.length_range]
    exact hb
  rw [Dominators.of, List.getD_eq_getElem _ _ hlt]
  simp only [startDominators, List.getElem_map, List.getElem_range]

theorem startDominators_narrowing (hexact : Exact function reachable) :
    Narrowing function reachable (startDominators function reachable) := by
  have hfull : ∀ b < function.blocks.length, function.Reached b → b ≠ function.entry →
      ∀ v < function.blocks.length,
        (Dominators.of (startDominators function reachable) b).has v = true := by
    intro b hb hreached hne v hv
    rw [startDominators_of hb, if_pos ((hexact b hb).mpr hreached), if_neg hne,
      MirValueSet.has_fill]
    exact decide_eq_true hv
  have hentry : function.entry < function.blocks.length → ∀ v,
      (Dominators.of (startDominators function reachable) function.entry).has v = true ↔
        v = function.entry := by
    intro hlt v
    rw [startDominators_of hlt, if_pos ((hexact _ hlt).mpr ⟨[], .start⟩), if_pos rfl,
      MirValueSet.has_add _ hlt, MirValueSet.has_empty, Bool.or_false, decide_eq_true_eq]
  refine ⟨?_, hentry, fun b hb hunreached v => ?_, fun b hb hreached v hdom => ?_,
    fun b hb hreached hne v hnext => hfull b hb hreached hne v (MirValueSet.has_lt hnext)⟩
  · rw [startDominators, List.length_map, List.length_range]
  · rw [startDominators_of hb, if_neg (fun h => hunreached ((hexact b hb).mp h)),
      MirValueSet.has_empty]
  · have hv := MirFunction.Reached.lt hb (hdom.reachable hreached)
    by_cases hne : b = function.entry
    · subst hne
      exact (hentry hb v).mpr hdom.at_entry
    · exact hfull b hb hreached hne v hv

/-- The sets of dominators, exactly: those of a block that is not reached are
empty. -/
structure DominatorsExact (function : MirFunction) (result : Dominators function) : Prop where
  length_eq : result.length = function.blocks.length
  reached : ∀ b < function.blocks.length, function.Reached b →
    ∀ v, (result.of b).has v = true ↔ Dominates function.Edge function.entry v b
  unreached : ∀ b < function.blocks.length, ¬ function.Reached b →
    ∀ v, (result.of b).has v = false

/-- Sets that no visit changes hold dominators only. -/
theorem Narrowing.exact (hexact : Exact function reachable) {result : Dominators function}
    (h : Narrowing function reachable result)
    (hstable : ∀ b < function.blocks.length, function.Reached b → b ≠ function.entry →
      nextDominators function reachable result b = result.of b) :
    DominatorsExact function result := by
  refine ⟨h.length_eq, fun b hb hreached v => ⟨fun hv => ?_, h.complete b hb hreached v⟩,
    h.unreached⟩
  refine @dominates_of_sets _ _ _ (fun b v => function.Reached b ∧ (result.of b).has v = true)
    (fun d hd => (h.entry (MirFunction.entry_lt_of hb) d).mp hd.2) ?_ v b ⟨hreached, hv⟩
  rintro p q d hp he hq ⟨hqreached, hd⟩
  rw [← hstable q he.1 hqreached hq, has_nextDominators _ he.1] at hd
  refine hd.imp_right fun hall => ⟨hp, ?_⟩
  exact hall.2 p (MirFunction.edge_iff.mp he).2 ((hexact p he.source_lt).mpr hp)

/-- Both loops end, with the sets of dominators. -/
theorem dominators_spec (function : MirFunction) :
    ∃ fuel₀, ∀ fuel ≥ fuel₀, ∃ result,
      dominators function fuel = some result ∧ DominatorsExact function result := by
  obtain ⟨fuel₁, hreach⟩ := @reachable_spec function
  obtain ⟨marks, hmarks, hexact⟩ := hreach fuel₁ (le_refl _)
  have hvisit : ∀ s, ∀ b ∈ List.range function.blocks.length, Narrowing function marks s →
      Narrowing function marks (dominatorsBlock function marks s b).1 :=
    fun s b hb hs => (hs.visit hexact (List.mem_range.mp hb)).1
  have hup : ∀ s, ∀ b ∈ List.range function.blocks.length, Narrowing function marks s →
      (lostPairs s).card ≤ (lostPairs (dominatorsBlock function marks s b).1).card ∧
        ((dominatorsBlock function marks s b).2 = true →
          (lostPairs s).card < (lostPairs (dominatorsBlock function marks s b).1).card) :=
    fun s b hb hs => (hs.visit hexact (List.mem_range.mp hb)).2
  have hkeep : ∀ s, Narrowing function marks s →
      Narrowing function marks (dominatorsRound function marks s).1 :=
    fun s hs => sweep_inv hvisit hs
  have hraise : ∀ s, Narrowing function marks s →
      (dominatorsRound function marks s).2 = true →
        (lostPairs s).card < (lostPairs (dominatorsRound function marks s).1).card :=
    fun s hs => (sweep_rank hvisit hup hs).2
  have hstart := startDominators_narrowing hexact
  obtain ⟨fuel₂, result, hresult⟩ : ∃ fuel₂ result,
      untilStable (dominatorsRound function marks) fuel₂ (startDominators function marks) =
        some result :=
    ⟨_, untilStable_returns hkeep hraise (fun s _ => card_lostPairs_le s) hstart⟩
  obtain ⟨s, hs, hquiet, hlast⟩ := untilStable_spec hkeep hstart hresult
  obtain ⟨hsame, hall⟩ := sweep_stable (fun b _ hb => by
    rcases @dominatorsBlock_cases function marks s b with ⟨heq, -⟩ | ⟨-, -, -, heq⟩
    · rw [heq]
    · rw [heq] at hb
      cases hb) hquiet
  have hdone : result = s := hlast.trans hsame
  have hstable : ∀ b < function.blocks.length, function.Reached b → b ≠ function.entry →
      nextDominators function marks result b = result.of b := by
    intro b hb hreached hne
    rw [hdone]
    rcases @dominatorsBlock_cases function marks s b with
      ⟨-, hnext⟩ | ⟨-, -, -, heq⟩
    · exact hnext ((hexact b hb).mpr hreached) hne
    · have hsilent := hall b (List.mem_range.mpr hb)
      rw [heq] at hsilent
      cases hsilent
  refine ⟨max fuel₁ fuel₂, fun fuel hfuel => ⟨result, ?_, ?_⟩⟩
  · rw [dominators, untilStable_of_le (le_trans (le_max_left _ _) hfuel) hmarks,
      Option.bind_some]
    exact untilStable_of_le (le_trans (le_max_right _ _) hfuel) hresult
  · rw [hdone] at hstable ⊢
    exact hs.exact hexact hstable

end Mir
end Beans
