import Beans.Foundation.Loop
import Beans.Mir.DominatorsExact

/-!
# Natural loops

`loop_blocks_of` walks backwards from the latches of a header and stops at the
header.  It finds the blocks that reach a latch without passing the header, and
no edge enters what it finds but at the header.

**Input.**  Any control-flow graph, also with blocks that no path reaches.

**Results.**
* `loops_and_dominators`: the dominator sets, the order of positions and the loops are those
  of the graph, with fuel enough.
* `stray_position_not_ordered`: a position in a block that no path reaches.
-/

namespace Beans
namespace Mir

open Dominance

variable (function : MirFunction)

/-- One turn of the backward walk; the top of the stack comes first. -/
def loopBody (candidate : ℕ) (work : List ℕ)
    (members : MirValueSet function.blocks.length) :
    Option (List ℕ × MirValueSet function.blocks.length) :=
  if members.contains candidate then some (work, members)
  else
    some ((blockSources function candidate).reverse ++ work, members.add candidate)

/-- The sources of back edges into `head`, as the walk finds them. -/
def loopLatches (dominance : Dominators function) (head : ℕ) : List ℕ :=
  (blockSources function head).filter fun source =>
    decide (source < dominance.length) && (dominance.of source).contains head

def loopBlocksOf (dominance : Dominators function) (head : ℕ) (fuel : ℕ) :
    Option (MirValueSet function.blocks.length) :=
  Worklist.drain (loopBody function) fuel (loopLatches function dominance head).reverse
    ((MirValueSet.empty _).add head)

/-- A reached block with an edge to the header that dominates it. -/
def MirFunction.Latch (head latch : ℕ) : Prop :=
  function.Edge latch head ∧ function.Reached latch ∧
    Dominates function.Edge function.entry head latch

/-- The natural loop of a header. -/
def MirFunction.InLoop (head b : ℕ) : Prop :=
  b = head ∨ ∃ latch, function.Latch head latch ∧ ReachesAvoiding function.Edge head b latch

variable {function} {dominance : Dominators function} {head : ℕ}

variable {b latch : ℕ} {members : MirValueSet function.blocks.length}

theorem mem_loopLatches (hexact : DominatorsExact function dominance)
    (hhead : head < function.blocks.length)
    :
    latch ∈ loopLatches function dominance head ↔ function.Latch head latch := by
  rw [loopLatches, List.mem_filter, Bool.and_eq_true, decide_eq_true_eq,
    MirValueSet.contains_natCast, hexact.length_eq]
  constructor
  · rintro ⟨hsource, hlt, hhas⟩
    have hreached : function.Reached latch := by
      by_contra hunreached
      rw [hexact.unreached latch hlt hunreached head] at hhas
      cases hhas
    exact ⟨MirFunction.edge_iff.mpr ⟨hhead, hsource⟩, hreached,
      (hexact.reached latch hlt hreached head).mp hhas⟩
  · rintro ⟨he, hreached, hdom⟩
    exact ⟨(MirFunction.edge_iff.mp he).2, he.source_lt,
      (hexact.reached latch he.source_lt hreached head).mpr hdom⟩

/-- A source of a loop block other than the header is in the loop. -/
theorem MirFunction.InLoop.source {p b : ℕ} (h : function.InLoop head b)
    (hb : b ≠ head) (he : function.Edge p b) : function.InLoop head p := by
  by_cases hp : p = head
  · exact Or.inl hp
  · obtain ⟨latch, hlatch, hreach⟩ := h.resolve_left hb
    exact Or.inr ⟨latch, hlatch, hreach.source hp he⟩

theorem MirFunction.Latch.inLoop (h : function.Latch head latch) :
    function.InLoop head latch := by
  by_cases hne : latch = head
  · exact Or.inl hne
  · exact Or.inr ⟨latch, h, .at_latch hne⟩

/-- The members so far are in the loop, and what is still missing lies behind
the stack. -/
structure Walking (function : MirFunction) (head : ℕ) (work : List ℕ)
    (members : MirValueSet function.blocks.length) : Prop where
  header : members.has head = true
  pending : ∀ b ∈ work, b < function.blocks.length ∧ function.InLoop head b
  sound : ∀ b, members.has b = true → function.InLoop head b
  closed : ∀ b, members.has b = true → b ≠ head →
    ∀ p, function.Edge p b → members.has p = true ∨ p ∈ work
  latches : ∀ latch, function.Latch head latch → members.has latch = true ∨ latch ∈ work

/-- The pushes still to come. -/
def pendingSources (members : MirValueSet function.blocks.length) : ℕ :=
  ((Finset.range function.blocks.length).filter fun b => members.has b = false).sum
    fun b => (blockSources function b).length

def edgeCount (function : MirFunction) : ℕ :=
  (Finset.range function.blocks.length).sum fun b => (blockSources function b).length

theorem pendingSources_le (members : MirValueSet function.blocks.length) :
    pendingSources members ≤ edgeCount function :=
  Finset.sum_le_sum_of_subset (Finset.filter_subset _ _)

theorem length_loopLatches_le (hhead : head < function.blocks.length) :
    (loopLatches function dominance head).length ≤ edgeCount function :=
  le_trans (List.length_filter_le _ _)
    (Finset.single_le_sum (f := fun b => (blockSources function b).length)
      (fun _ _ => Nat.zero_le _) (Finset.mem_range.mpr hhead))

theorem pendingSources_add (hb : b < function.blocks.length) (hfresh : members.has b = false) :
    (blockSources function b).length + pendingSources (members.add b) =
      pendingSources members := by
  have herase : (Finset.range function.blocks.length).filter
        (fun c => (members.add (b : ℤ)).has c = false) =
      ((Finset.range function.blocks.length).filter
        fun c => members.has c = false).erase b := by
    ext c
    rw [Finset.mem_erase, Finset.mem_filter, Finset.mem_filter, MirValueSet.has_add _ hb,
      Bool.or_eq_false_iff, decide_eq_false_iff_not]
    tauto
  have hmem : b ∈ (Finset.range function.blocks.length).filter
      fun c => members.has c = false :=
    Finset.mem_filter.mpr ⟨Finset.mem_range.mpr hb, hfresh⟩
  rw [pendingSources, herase]
  exact Finset.add_sum_erase _ (fun c => (blockSources function c).length) hmem

/-- One turn keeps the invariant and pays for its pushes. -/
theorem Walking.turn {candidate : ℕ} {work : List ℕ}
    (h : Walking function head (candidate :: work) members) :
    ∃ work' members', loopBody function candidate work members = some (work', members') ∧
      Walking function head work' members' ∧
      work'.length + pendingSources members' ≤ work.length + pendingSources members := by
  by_cases hmember : members.has candidate = true
  · have hdrop : ∀ p, members.has p = true ∨ p ∈ candidate :: work →
        members.has p = true ∨ p ∈ work := by
      rintro p (hp | hp)
      · exact Or.inl hp
      · rcases List.mem_cons.mp hp with rfl | hp
        · exact Or.inl hmember
        · exact Or.inr hp
    refine ⟨work, members, ?_, ?_, le_refl _⟩
    · rw [loopBody, MirValueSet.contains_natCast, if_pos hmember]
    · exact ⟨h.header, fun b hb => h.pending b (List.mem_cons_of_mem _ hb), h.sound,
        fun b hb hne p he => hdrop p (h.closed b hb hne p he),
        fun latch hlatch => hdrop latch (h.latches latch hlatch)⟩
  · obtain ⟨hlt, hin⟩ := h.pending candidate List.mem_cons_self
    have hadd := MirValueSet.has_add members hlt
    have hne : candidate ≠ head := by
      rintro rfl
      exact hmember h.header
    have hkeep : ∀ p, members.has p = true ∨ p ∈ candidate :: work →
        (members.add (candidate : ℤ)).has p = true ∨
          p ∈ (blockSources function candidate).reverse ++ work := by
      rintro p (hp | hp)
      · exact Or.inl (by rw [hadd, hp, Bool.or_true])
      · rcases List.mem_cons.mp hp with rfl | hp
        · exact Or.inl (by rw [hadd, decide_eq_true rfl, Bool.true_or])
        · exact Or.inr (List.mem_append_right _ hp)
    refine ⟨_, _, ?_, ⟨?_, fun b hb => ?_, fun b hb => ?_, fun b hb hbne p he => ?_,
      fun latch hlatch => hkeep latch (h.latches latch hlatch)⟩, ?_⟩
    · rw [loopBody, MirValueSet.contains_natCast, if_neg hmember]
    · rw [hadd, h.header, Bool.or_true]
    · rcases List.mem_append.mp hb with hb | hb
      · have he : function.Edge b candidate :=
          MirFunction.edge_iff.mpr ⟨hlt, List.mem_reverse.mp hb⟩
        exact ⟨he.source_lt, hin.source hne he⟩
      · exact h.pending b (List.mem_cons_of_mem _ hb)
    · rw [hadd, Bool.or_eq_true, decide_eq_true_eq] at hb
      rcases hb with rfl | hb
      · exact hin
      · exact h.sound b hb
    · rw [hadd, Bool.or_eq_true, decide_eq_true_eq] at hb
      rcases hb with rfl | hb
      · exact Or.inr (List.mem_append_left _
          (List.mem_reverse.mpr (MirFunction.edge_iff.mp he).2))
      · exact hkeep p (h.closed b hb hbne p he)
    · rw [List.length_append, List.length_reverse]
      have := pendingSources_add hlt (Bool.not_eq_true _ ▸ hmember)
      omega

theorem Walking.start (hexact : DominatorsExact function dominance)
    (hhead : head < function.blocks.length) :
    Walking function head (loopLatches function dominance head).reverse
      ((MirValueSet.empty _).add (head : ℤ)) := by
  have hhas : ∀ b, ((MirValueSet.empty function.blocks.length).add (head : ℤ)).has b = true ↔
      b = head := by
    intro b
    rw [MirValueSet.has_add _ hhead, MirValueSet.has_empty, Bool.or_false, decide_eq_true_eq]
  refine ⟨(hhas head).mpr rfl, fun b hb => ?_, fun b hb => Or.inl ((hhas b).mp hb),
    fun b hb hne => absurd ((hhas b).mp hb) hne, fun latch hlatch => Or.inr ?_⟩
  · have hlatch := (mem_loopLatches hexact hhead).mp (List.mem_reverse.mp hb)
    exact ⟨hlatch.1.source_lt, hlatch.inLoop⟩
  · exact List.mem_reverse.mpr ((mem_loopLatches hexact hhead).mpr hlatch)

/-- With an empty stack the members are the loop. -/
theorem Walking.done (h : Walking function head [] members) (b : ℕ) :
    members.has b = true ↔ function.InLoop head b := by
  refine ⟨h.sound b, ?_⟩
  rintro (rfl | ⟨latch, hlatch, hreach⟩)
  · exact h.header
  · refine @ReachesAvoiding.induct _ _ head latch (fun b => members.has b = true)
      (fun _ => (h.latches latch hlatch).resolve_right List.not_mem_nil) ?_ b hreach
    intro p c he hc hmember
    exact (h.closed c hmember hc p he).resolve_right List.not_mem_nil

/-- The walk ends, and it has found the loop. -/
theorem loopBlocksOf_spec (hexact : DominatorsExact function dominance)
    (hhead : head < function.blocks.length) {fuel : ℕ} (hfuel : 2 * edgeCount function ≤ fuel) :
    ∃ members, loopBlocksOf function dominance head fuel = some members ∧
      ∀ b, members.has b = true ↔ function.InLoop head b := by
  have hpay : (loopLatches function dominance head).reverse.length +
      pendingSources ((MirValueSet.empty function.blocks.length).add (head : ℤ)) ≤ fuel := by
    have hlatches := @length_loopLatches_le function dominance head hhead
    have hpending :=
      pendingSources_le ((MirValueSet.empty function.blocks.length).add (head : ℤ))
    rw [List.length_reverse]
    omega
  obtain ⟨members, hend, hdone⟩ := @Worklist.drain_spec _ _ (loopBody function)
    (Walking function head) pendingSources (fun _ _ _ h => h.turn) fuel _ _ hpay
    (.start hexact hhead)
  exact ⟨members, hend, hdone.done⟩

/-- The place of a block's terminator. -/
def MirFunction.lastPlace (function : MirFunction) (b : ℕ) : ℕ :=
  ((function.blocks[b]?).map fun block => block.instructions.length).getD 0

/-- Execution goes through the instructions of a block in turn, then its
terminator, and on to a target. -/
abbrev MirFunction.PlaceWalk (function : MirFunction) (b i : ℕ) (seen : List (ℕ × ℕ)) : Prop :=
  Walk (PlaceStep function.Edge function.lastPlace) (function.entry, 0) (b, i) seen

theorem positionDominates_iff (hexact : DominatorsExact function dominance) {c i j : ℕ}
    (hc : c < function.blocks.length) :
    positionDominates dominance ⟨b, i⟩ ⟨c, j⟩ = true ↔
      (b = c ∧ i < j) ∨ (b ≠ c ∧ (dominance.of c).has b = true) := by
  rw [positionDominates]
  by_cases hbc : b = c
  · rw [if_pos (Int.ofNat_inj.mpr hbc), decide_eq_true_eq, Int.ofNat_lt]
    simp [hbc]
  · have hlt : ((c : ℕ) : ℤ) < dominance.length := by
      rw [hexact.length_eq]
      exact Int.ofNat_lt.mpr hc
    rw [if_neg (fun h => hbc (Int.ofNat_inj.mp h)), decide_eq_true (Int.natCast_nonneg c),
      decide_eq_true hlt, Bool.true_and, Bool.true_and, Int.toNat_natCast,
      MirValueSet.contains_natCast]
    simp [hbc]

/-- The dominator sets, the order of positions and the loops are those of the
graph. -/
theorem loops_and_dominators (function : MirFunction) :
    ∃ fuel₀, ∀ fuel ≥ fuel₀, ∃ dominance, dominators function fuel = some dominance ∧
      (∀ b < function.blocks.length, function.Reached b → ∀ value : ℤ,
        (dominance.of b).contains value = true ↔
          ∃ d : ℕ, value = d ∧ Dominates function.Edge function.entry d b) ∧
      (∀ b i c j : ℕ, i ≤ function.lastPlace b → j ≤ function.lastPlace c →
        c < function.blocks.length → function.Reached c →
        (positionDominates dominance ⟨b, i⟩ ⟨c, j⟩ = true ↔
          ∀ seen, function.PlaceWalk c j seen → (b, i) ∈ seen)) ∧
      (∀ b i c j : ℕ, c < function.blocks.length → ¬ function.Reached c →
        (positionDominates dominance ⟨b, i⟩ ⟨c, j⟩ = true ↔ b = c ∧ i < j)) ∧
      ∀ head < function.blocks.length, ∃ members,
        loopBlocksOf function dominance head fuel = some members ∧
        (∀ b : ℕ, members.contains b = true ↔ b = head ∨
          ∃ latch, function.Latch head latch ∧ ReachesAvoiding function.Edge head b latch) ∧
        ∀ p b : ℕ, function.Edge p b → b ≠ head → members.contains b = true →
          members.contains p = true := by
  obtain ⟨fuel₀, hspec⟩ := dominators_spec function
  refine ⟨max fuel₀ (2 * edgeCount function), fun fuel hfuel => ?_⟩
  obtain ⟨dominance, hend, hexact⟩ := hspec fuel (le_trans (le_max_left _ _) hfuel)
  refine ⟨dominance, hend, fun b hb hreached value => ?_, fun b i c j hi hj hc hreached => ?_,
    fun b i c j hc hunreached => ?_, fun head hhead => ?_⟩
  · rw [MirValueSet.contains_iff]
    exact exists_congr fun d => and_congr_right fun _ => hexact.reached b hb hreached d
  · rw [positionDominates_iff hexact hc, left_on_every_walk hi hj hreached,
      hexact.reached c hc hreached]
  · rw [positionDominates_iff hexact hc, hexact.unreached c hc hunreached]
    simp
  · obtain ⟨members, hloop, hmembers⟩ :=
      loopBlocksOf_spec hexact hhead (le_trans (le_max_right _ _) hfuel)
    refine ⟨members, hloop, fun b => ?_, fun p b he hne hb => ?_⟩
    · rw [MirValueSet.contains_natCast]
      exact hmembers b
    · rw [MirValueSet.contains_natCast] at hb ⊢
      exact (hmembers p).mpr (((hmembers b).mp hb).source hne he)

/-- A function whose second block is never reached. -/
def strayBlock : MirFunction where
  declaration := false
  external := false
  entry := 0
  locals := []
  blocks := [⟨[], ⟨.returned, [], "", 0, 0⟩⟩, ⟨[], ⟨.jump, [0], "", 0, 0⟩⟩]
  entry_lt _ := Nat.zero_lt_succ 1

/-- No path leads to the second block, so each passes through the first; the
order of positions does not say so. -/
theorem stray_position_not_ordered :
    (dominators strayBlock 3).map (fun dominance =>
        positionDominates dominance ⟨0, 0⟩ ⟨1, 0⟩) = some false ∧
      ∀ seen, strayBlock.PlaceWalk 1 0 seen → (0, 0) ∈ seen := by
  refine ⟨by decide, fun seen hwalk => ?_⟩
  obtain ⟨nodes, hnodes, -⟩ := hwalk.nodes
  cases hnodes with
  | step _ he =>
    obtain ⟨block, hblock, htarget⟩ := MirFunction.mem_targets.mp he.2
    have hall : ∀ block ∈ strayBlock.blocks, (1 : ℤ) ∉ block.terminator.targets := by
      decide
    exact absurd htarget (hall block (List.mem_of_getElem? hblock))

end Mir
end Beans
