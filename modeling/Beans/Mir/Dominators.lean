import Beans.Foundation.Dominance
import Beans.Mir.LocalOwnership
import Beans.Mir.ValueSet

/-!
# Dominators

`dominators` first marks the blocks that control reaches from the entry, and
then cuts the sets of the reachable blocks down from the full set, round by
round, to what every reachable predecessor agrees on and the block itself.
-/

namespace Beans
namespace Mir

open Dominance

namespace MirFunction

variable (function : MirFunction)

def targets (block : ℕ) : List ℤ :=
  (function.blocks[block]?.map fun b => b.terminator.targets).getD []

/-- Control may leave block `p` for block `q`; a target that is no block is
not followed. -/
def Edge (p q : ℕ) : Prop :=
  q < function.blocks.length ∧ (q : ℤ) ∈ function.targets p

end MirFunction

variable (function : MirFunction)

/-- A target that is a block is marked once. -/
def reachTarget (reachable : List Bool) (target : ℤ) : List Bool × Bool :=
  if 0 ≤ target ∧ target < function.blocks.length ∧
      reachable.getD target.toNat false = false then
    (reachable.set target.toNat true, true)
  else (reachable, false)

/-- The targets of a marked block are marked. -/
def reachBlock (reachable : List Bool) (block : ℕ) : List Bool × Bool :=
  if reachable.getD block false = false then (reachable, false)
  else sweep (reachTarget function) (function.targets block) reachable

def reachRound (reachable : List Bool) : List Bool × Bool :=
  sweep (reachBlock function) (List.range function.blocks.length) reachable

/-- At first the entry alone is marked. -/
def startReachable : List Bool :=
  (function.blocks.map fun _ => false).set function.entry true

/-- The sets of all blocks, by the block's id. -/
abbrev Dominators := List (MirValueSet function.blocks.length)

variable {function} in
def Dominators.of (result : Dominators function) (block : ℕ) :
    MirValueSet function.blocks.length :=
  result.getD block (.empty _)

variable (reachable : List Bool)

/-- The first reachable predecessor is taken whole, the others cut it down. -/
def meetSource (result : Dominators function)
    (next : MirValueSet function.blocks.length × Bool) (predecessor : ℕ) :
    MirValueSet function.blocks.length × Bool :=
  if reachable.getD predecessor false = false then next
  else if next.2 then (next.1.merge (result.of predecessor), false)
  else (next.1.intersect (result.of predecessor), next.2)

/-- What a round finds for a block.  The source keeps one set for this and
clears it every time. -/
def nextDominators (result : Dominators function) (block : ℕ) :
    MirValueSet function.blocks.length :=
  ((blockSources function block).foldl (meetSource function reachable result)
    ((MirValueSet.empty _).clear, true)).1.add block

/-- The set of a block is met from those of its predecessors. -/
def dominatorsBlock (result : Dominators function) (block : ℕ) :
    Dominators function × Bool :=
  if reachable.getD block false = false ∨ block = function.entry then
    (result, false)
  else
    let next := nextDominators function reachable result block
    if next.equals (result.of block) then (result, false)
    else (result.set block ((result.of block).copyFrom next), true)

def dominatorsRound (result : Dominators function) : Dominators function × Bool :=
  sweep (dominatorsBlock function reachable) (List.range function.blocks.length) result

/-- The entry starts with itself, every other block with everything. -/
def startDominators : Dominators function :=
  (List.range function.blocks.length).map fun block =>
    if reachable.getD block false then
      if block = function.entry then (MirValueSet.empty _).add block
      else (MirValueSet.empty _).fill
    else .empty _

/-- The sets of dominators; `none` when a loop did not settle in `fuel`
rounds. -/
def dominators (fuel : ℕ) : Option (Dominators function) :=
  (untilStable (reachRound function) fuel (startReachable function)).bind
    fun reachable =>
      untilStable (dominatorsRound function reachable) fuel
        (startDominators function reachable)

structure MirPosition where
  block : ℤ
  index : ℤ

/-- Inside of a block by order, between blocks by the dominator sets. -/
def positionDominates {function : MirFunction} (dominators : Dominators function)
    (before after : MirPosition) : Bool :=
  if before.block = after.block then decide (before.index < after.index)
  else
    decide (0 ≤ after.block) && decide (after.block < dominators.length) &&
      (dominators.of after.block.toNat).contains before.block

variable {function reachable}

variable {b p q : ℕ} {t : ℤ}

theorem MirFunction.mem_targets :
    t ∈ function.targets p ↔
      ∃ block, function.blocks[p]? = some block ∧ t ∈ block.terminator.targets := by
  rw [MirFunction.targets]
  cases h : function.blocks[p]? with
  | none => simp
  | some block => simp

theorem MirFunction.edge_iff :
    function.Edge p q ↔ q < function.blocks.length ∧ p ∈ blockSources function q := by
  rw [MirFunction.Edge, mem_blockSources, MirFunction.mem_targets]

theorem MirFunction.Edge.source_lt (h : function.Edge p q) :
    p < function.blocks.length := by
  obtain ⟨block, hblock, -⟩ := MirFunction.mem_targets.mp h.2
  exact (List.getElem?_eq_some_iff.mp hblock).1

theorem MirFunction.entry_lt_of (h : b < function.blocks.length) :
    function.entry < function.blocks.length := by
  refine function.entry_lt fun hnil => ?_
  rw [hnil] at h
  exact Nat.not_lt_zero b h

/-- A block of a function is reached from its entry. -/
abbrev MirFunction.Reached (function : MirFunction) (b : ℕ) : Prop :=
  Reachable function.Edge function.entry b

theorem MirFunction.Reached.lt {c : ℕ} (hc : c < function.blocks.length)
    (h : function.Reached b) : b < function.blocks.length :=
  Reachable.induct (P := fun b => b < function.blocks.length)
    (MirFunction.entry_lt_of hc) (fun _ _ _ _ he => he.1) h

/-- The flags so far: only reached blocks, and the entry. -/
structure Marked (function : MirFunction) (reachable : List Bool) : Prop where
  length_eq : reachable.length = function.blocks.length
  sound : ∀ b, reachable.getD b false = true → function.Reached b
  entry : function.entry < function.blocks.length →
    reachable.getD function.entry false = true

/-- The number of blocks marked. -/
def markedCount (function : MirFunction) (reachable : List Bool) : ℕ :=
  ((Finset.range function.blocks.length).filter
    fun b => reachable.getD b false = true).card

theorem markedCount_le : markedCount function reachable ≤ function.blocks.length := by
  refine le_trans (Finset.card_filter_le _ _) ?_
  rw [Finset.card_range]

theorem Marked.mark (h : Marked function reachable)
    (hq : q < function.blocks.length) (hreached : function.Reached q) :
    Marked function (reachable.set q true) := by
  have hset := getD_set reachable (by rw [h.length_eq]; exact hq) true false
  refine ⟨by rw [List.length_set, h.length_eq], fun b hb => ?_, fun hentry => ?_⟩
  · rw [hset] at hb
    by_cases hbq : b = q
    · rw [hbq]
      exact hreached
    · rw [if_neg hbq] at hb
      exact h.sound b hb
  · rw [hset, h.entry hentry, ite_self]

theorem markedCount_mark (h : Marked function reachable)
    (hq : q < function.blocks.length) (hfresh : reachable.getD q false = false) :
    markedCount function reachable < markedCount function (reachable.set q true) := by
  have hset := getD_set reachable (by rw [h.length_eq]; exact hq) true false
  refine Finset.card_lt_card (Finset.ssubset_iff_of_subset ?_ |>.mpr ⟨q, ?_, ?_⟩)
  · intro b hb
    rw [Finset.mem_filter] at hb ⊢
    rw [hset, hb.2, ite_self]
    exact ⟨hb.1, rfl⟩
  · rw [Finset.mem_filter, hset, if_pos rfl, Finset.mem_range]
    exact ⟨hq, rfl⟩
  · rw [Finset.mem_filter, hfresh]
    simp

theorem reachTarget_spec (hp : function.Reached p)
    (ht : t ∈ function.targets p) (h : Marked function reachable) :
    Marked function (reachTarget function reachable t).1 ∧
      markedCount function reachable ≤
        markedCount function (reachTarget function reachable t).1 ∧
      ((reachTarget function reachable t).2 = true →
        markedCount function reachable <
          markedCount function (reachTarget function reachable t).1) := by
  rw [reachTarget]
  by_cases hnew : 0 ≤ t ∧ t < function.blocks.length ∧
      reachable.getD t.toNat false = false
  · rw [if_pos hnew]
    obtain ⟨hpos, hlt, hfresh⟩ := hnew
    have hq : t.toNat < function.blocks.length := by omega
    have hedge : function.Edge p t.toNat := by
      refine ⟨hq, ?_⟩
      rw [Int.toNat_of_nonneg hpos]
      exact ht
    have hup := markedCount_mark h hq hfresh
    exact ⟨h.mark hq (hp.step hedge), hup.le, fun _ => hup⟩
  · rw [if_neg hnew]
    exact ⟨h, le_refl _, fun h => absurd h Bool.false_ne_true⟩

theorem reachBlock_spec (b : ℕ) (h : Marked function reachable) :
    Marked function (reachBlock function reachable b).1 ∧
      markedCount function reachable ≤
        markedCount function (reachBlock function reachable b).1 ∧
      ((reachBlock function reachable b).2 = true →
        markedCount function reachable <
          markedCount function (reachBlock function reachable b).1) := by
  rw [reachBlock]
  by_cases hb : reachable.getD b false = false
  · rw [if_pos hb]
    exact ⟨h, le_refl _, fun h => absurd h Bool.false_ne_true⟩
  · rw [if_neg hb]
    have hreached := h.sound b (Bool.not_eq_false _ ▸ hb)
    have hkeep : ∀ s, ∀ t ∈ function.targets b, Marked function s →
        Marked function (reachTarget function s t).1 :=
      fun s t ht hs => (reachTarget_spec hreached ht hs).1
    exact ⟨sweep_inv hkeep h,
      sweep_rank hkeep (fun s t ht hs => (reachTarget_spec hreached ht hs).2) h⟩

theorem reachTarget_same (h : (reachTarget function reachable t).2 = false) :
    (reachTarget function reachable t).1 = reachable := by
  rw [reachTarget] at h ⊢
  split at h
  · cases h
  · rw [if_neg ‹_›]

theorem reachBlock_same (h : (reachBlock function reachable b).2 = false) :
    (reachBlock function reachable b).1 = reachable ∧
      (reachable.getD b false = true →
        ∀ q, function.Edge b q → reachable.getD q false = true) := by
  rw [reachBlock] at h ⊢
  by_cases hb : reachable.getD b false = false
  · rw [if_pos hb]
    refine ⟨rfl, fun hmarked => ?_⟩
    rw [hb] at hmarked
    cases hmarked
  · rw [if_neg hb] at h ⊢
    obtain ⟨hsame, hall⟩ := sweep_stable (fun t _ ht => reachTarget_same ht) h
    refine ⟨hsame, fun _ q hq => ?_⟩
    have hquiet := hall q hq.2
    by_contra hfresh
    rw [reachTarget, if_pos ⟨Int.natCast_nonneg q, Int.ofNat_lt.mpr hq.1,
      Bool.not_eq_true _ ▸ hfresh⟩] at hquiet
    cases hquiet

theorem startReachable_marked : Marked function (startReachable function) := by
  have hlength : (function.blocks.map fun _ => false).length = function.blocks.length :=
    List.length_map _
  have hfalse : ∀ b, (function.blocks.map fun _ => false).getD b false = false := by
    intro b
    rw [List.map_const', List.getD_eq_getElem?_getD, List.getElem?_getD_replicate_default_eq]
  refine ⟨by rw [startReachable, List.length_set, hlength], fun b hb => ?_, fun h => ?_⟩
  · by_cases hentry : function.entry < function.blocks.length
    · rw [startReachable, getD_set _ (by rw [hlength]; exact hentry), hfalse] at hb
      by_cases hbe : b = function.entry
      · rw [hbe]
        exact ⟨[], .start⟩
      · rw [if_neg hbe] at hb
        cases hb
    · rw [startReachable, List.set_eq_of_length_le (by rw [hlength]; omega), hfalse] at hb
      cases hb
  · rw [startReachable, getD_set _ (by rw [hlength]; exact h), if_pos rfl]

/-- The first loop ends, and it marks the blocks reached from the entry. -/
theorem reachable_spec :
    ∃ fuel₀, ∀ fuel ≥ fuel₀, ∃ reachable,
      untilStable (reachRound function) fuel (startReachable function) =
          some reachable ∧
        ∀ b < function.blocks.length,
          reachable.getD b false = true ↔ function.Reached b := by
  have hvisit : ∀ s, ∀ b ∈ List.range function.blocks.length, Marked function s →
      Marked function (reachBlock function s b).1 :=
    fun s b _ hs => (reachBlock_spec b hs).1
  have hup : ∀ s, ∀ b ∈ List.range function.blocks.length, Marked function s →
      markedCount function s ≤ markedCount function (reachBlock function s b).1 ∧
        ((reachBlock function s b).2 = true →
          markedCount function s < markedCount function (reachBlock function s b).1) :=
    fun s b _ hs => (reachBlock_spec b hs).2
  have hkeep : ∀ s, Marked function s → Marked function (reachRound function s).1 :=
    fun s hs => sweep_inv hvisit hs
  have hraise : ∀ s, Marked function s → (reachRound function s).2 = true →
      markedCount function s < markedCount function (reachRound function s).1 :=
    fun s hs => (sweep_rank hvisit hup hs).2
  obtain ⟨reachable, hend⟩ := untilStable_returns hkeep hraise
    (fun s _ => markedCount_le) startReachable_marked
  refine ⟨_, fun fuel hfuel => ⟨reachable, untilStable_of_le hfuel hend, fun b hb => ?_⟩⟩
  obtain ⟨s, hs, hquiet, rfl⟩ := untilStable_spec hkeep startReachable_marked hend
  obtain ⟨hsame, hall⟩ := sweep_stable (fun b _ h => (reachBlock_same h).1) hquiet
  have hsame' : (reachRound function s).1 = s := hsame
  rw [hsame']
  refine ⟨hs.sound b, fun hreached => ?_⟩
  have hclosed : b < function.blocks.length ∧ s.getD b false = true := by
    refine Reachable.induct (P := fun b => b < function.blocks.length ∧ s.getD b false = true)
      ⟨MirFunction.entry_lt_of hb, hs.entry (MirFunction.entry_lt_of hb)⟩ ?_ hreached
    intro p q _ hp he
    exact ⟨he.1, (reachBlock_same (hall p (List.mem_range.mpr hp.1))).2 hp.2 q he⟩
  exact hclosed.2

end Mir
end Beans
