import Beans.Foundation.OpenAddressing

/-!
# Removal without tombstones

An item is removed by emptying its slot and placing every item of the run behind
it anew.  While this goes on, walks may cross empty slots only among those already
visited, and only on the way to items that are still to be visited.  When the run
ends nothing is to be visited any more, and no walk is broken.

**Results.**
* `Valid.gap`: an item is taken out, and the walks behind it may be broken.
* `closed`: where the run of full slots ends none is.
-/

namespace Beans
namespace OpenAddressing

variable {ι : Type*}

/-- One of the `k` slots from `start` on, around the end of the table. -/
def InRun (n start k s : ℕ) : Prop :=
  ∃ d < k, (start + d) % n = s

theorem InRun.succ {n start k s : ℕ} (h : InRun n start k s) :
    InRun n start (k + 1) s := by
  obtain ⟨d, hd, hs⟩ := h
  exact ⟨d, by omega, hs⟩

theorem inRun_self (n start k : ℕ) :
    InRun n start (k + 1) ((start + k) % n) :=
  ⟨k, Nat.lt_succ_self k, rfl⟩

theorem InRun.of_succ {n start k s : ℕ} (h : InRun n start (k + 1) s)
    (hne : s ≠ (start + k) % n) :
    InRun n start k s := by
  obtain ⟨d, hd, hs⟩ := h
  rcases Nat.lt_succ_iff_lt_or_eq.mp hd with hlt | rfl
  · exact ⟨d, hlt, hs⟩
  · exact absurd hs.symm hne

/-- A slot behind the run is not in it. -/
theorem not_inRun {n start k d : ℕ} (hd : k ≤ d) (hn : d < n) :
    ¬ InRun n start k ((start + d) % n) := by
  rintro ⟨d', hd', hs⟩
  have := offset_inj (by omega) hn hs
  omega

/-- A walk that has passed one offset and ends at a later one has passed what is between. -/
theorem walk_passes {n start from' to' mid home i j : ℕ}
    (hfrom : (home + i) % n = (start + from') % n) (hto : (home + j) % n = (start + to') % n)
    (hi : i < j) (hj : j < n) (hle : from' < mid) (hmid : mid < to') (hlast : to' < from' + n) :
    ∃ m < j, (home + m) % n = (start + mid) % n := by
  have hsteps : (start + from' + (j - i)) % n = (start + to') % n := by
    rw [← hto, Nat.add_mod, ← hfrom, ← Nat.add_mod]
    congr 1
    omega
  have hlength : j - i = to' - from' := by
    have hoffset : (start + from' + (j - i)) % n = (start + from' + (to' - from')) % n := by
      rw [hsteps]
      congr 1
      omega
    exact offset_inj (by omega) (by omega) hoffset
  refine ⟨i + (mid - from'), by omega, ?_⟩
  rw [← Nat.add_assoc, Nat.add_mod, hfrom, ← Nat.add_mod]
  congr 1
  omega

/-- The items of `live` are stored, and the `k` slots from `start` on were visited. -/
structure Gapped (n : ℕ) (home : ι → ℕ) (live : ι → Prop) (t : ℕ → Slot ι)
    (start k : ℕ) : Prop where
  reach : ∀ x, live x →
    ∃ j < n, t ((home x + j) % n) = .full x ∧
      ∀ i < j, t ((home x + i) % n) = .empty →
        InRun n start k ((home x + i) % n) ∧ ¬ InRun n start k ((home x + j) % n)
  live_of_full : ∀ i < n, ∀ x, t i = .full x → live x
  unique : ∀ i < n, ∀ j < n, ∀ x, t i = .full x → t j = .full x → i = j

variable {n : ℕ} {home : ι → ℕ} {live : ι → Prop} {t : ℕ → Slot ι} {start k : ℕ}

theorem update_empty_full {i s : ℕ} {x : ι} (h : Function.update t s .empty i = .full x) :
    i ≠ s ∧ t i = .full x := by
  by_cases his : i = s
  · rw [his, Function.update_self] at h
    cases h
  · rw [Function.update_of_ne his] at h
    exact ⟨his, h⟩

/-- The item is taken out of its slot, which is the first one visited. -/
theorem Valid.gap (h : Valid n home live t) {x : ι} (hstart : start < n)
    (hat : t start = .full x) :
    Gapped n home (fun y => live y ∧ y ≠ x) (Function.update t start .empty) start 1 where
  reach y hy := by
    obtain ⟨j, hj, hfull, hbefore⟩ := h.reach y hy.1
    have hne : (home y + j) % n ≠ start := by
      intro heq
      rw [heq, hat, Slot.full.injEq] at hfull
      exact hy.2 hfull.symm
    refine ⟨j, hj, by rw [Function.update_of_ne hne]; exact hfull, fun i hi hempty => ?_⟩
    by_cases hgap : (home y + i) % n = start
    · refine ⟨⟨0, Nat.one_pos, ?_⟩, ?_⟩
      · rw [hgap, Nat.add_zero, Nat.mod_eq_of_lt hstart]
      · rintro ⟨d, hd, hs⟩
        rw [Nat.lt_one_iff.mp hd, Nat.add_zero, Nat.mod_eq_of_lt hstart] at hs
        exact hne hs.symm
    · rw [Function.update_of_ne hgap] at hempty
      exact absurd hempty (hbefore i hi)
  live_of_full i hi y hy := by
    obtain ⟨hne, hfull⟩ := update_empty_full hy
    refine ⟨h.live_of_full i hi y hfull, ?_⟩
    rintro rfl
    exact hne (h.unique i hi start hstart y hfull hat)
  unique i hi j hj y hi' hj' :=
    h.unique i hi j hj y (update_empty_full hi').2 (update_empty_full hj').2

namespace Gapped

/-- An empty slot behind the run keeps every walk to a visited item inside of the run. -/
theorem visited_before {last : ℕ} (hk : k < last) (hlast : last < n)
    (hempty : t ((start + last) % n) = .empty) {x : ι} {i j : ℕ} (hj : j < n)
    (hbefore : ∀ i < j, t ((home x + i) % n) = .empty →
      InRun n start k ((home x + i) % n) ∧ ¬ InRun n start k ((home x + j) % n))
    (hi : i < j)
    (hat : (home x + i) % n = (start + k) % n) :
    ¬ InRun n start k ((home x + j) % n) := by
  rintro ⟨d, hd, hs⟩
  -- The walk would have to go around the table, over the empty slot.
  have hround : (home x + j) % n = (start + (d + n)) % n := by
    rw [← Nat.add_assoc, Nat.add_mod_right, hs]
  obtain ⟨m, hm, hpass⟩ :=
    walk_passes hat hround hi hj hk (by omega) (by omega)
  rw [← hpass] at hempty
  have hvisited := (hbefore m hm hempty).1
  rw [hpass] at hvisited
  exact not_inRun (by omega) hlast hvisited

/-- The next item of the run is placed anew, in the first empty slot on its walk. -/
theorem step (h : Gapped n home live t start k) {last : ℕ} (hk : k < last) (hlast : last < n)
    (hend : t ((start + last) % n) = .empty) {y : ι} (hat : t ((start + k) % n) = .full y)
    {j : ℕ} (hj : j < n)
    (hvacant : Function.update t ((start + k) % n) .empty ((home y + j) % n) = .empty)
    (hbefore : ∀ i < j,
      Function.update t ((start + k) % n) .empty ((home y + i) % n) ≠ .empty) :
    InRun n start (k + 1) ((home y + j) % n) ∧
      Gapped n home live
        (Function.update (Function.update t ((start + k) % n) .empty) ((home y + j) % n) (.full y))
        start (k + 1) := by
  have hn : (start + k) % n < n := Nat.mod_lt _ (by omega)
  have hslot : (home y + j) % n < n := Nat.mod_lt _ (by omega)
  have hlive := h.live_of_full _ hn y hat
  have hplaced : InRun n start (k + 1) ((home y + j) % n) := by
    by_cases hsame : (home y + j) % n = (start + k) % n
    · rw [hsame]
      exact inRun_self n start k
    · rw [Function.update_of_ne hsame] at hvacant
      obtain ⟨m, hm, hfull, hwalk⟩ := h.reach y hlive
      have hmat := h.unique _ (Nat.mod_lt _ (by omega)) _ hn y hfull hat
      rcases Nat.lt_trichotomy j m with hlt | heq | hgt
      · exact (hwalk j hlt hvacant).1.succ
      · rw [heq] at hsame
        exact absurd hmat hsame
      · refine absurd ?_ (hbefore m hgt)
        rw [hmat, Function.update_self]
  refine ⟨hplaced, ⟨fun x hx => ?_, fun i hi x hx => ?_, fun i hi i' hi' x hx hx' => ?_⟩⟩
  · by_cases hxy : x = y
    · rw [hxy]
      refine ⟨j, hj, Function.update_self _ _ _, fun i hi hempty => ?_⟩
      have hne : (home y + i) % n ≠ (home y + j) % n := by
        intro heq
        have := offset_inj (by omega) hj heq
        omega
      rw [Function.update_of_ne hne] at hempty
      exact absurd hempty (hbefore i hi)
    · obtain ⟨m, hm, hfull, hwalk⟩ := h.reach x hx
      have hother : (home x + m) % n ≠ (start + k) % n := by
        intro heq
        rw [heq, hat, Slot.full.injEq] at hfull
        exact hxy hfull.symm
      have hnotPlaced : (home x + m) % n ≠ (home y + j) % n := by
        intro heq
        rw [← heq, Function.update_of_ne hother, hfull] at hvacant
        cases hvacant
      refine ⟨m, hm, ?_, fun i hi hempty => ?_⟩
      · rw [Function.update_of_ne hnotPlaced, Function.update_of_ne hother]
        exact hfull
      · have hvacated : (home x + i) % n ≠ (home y + j) % n := by
          intro heq
          rw [heq, Function.update_self] at hempty
          cases hempty
        rw [Function.update_of_ne hvacated] at hempty
        by_cases hgap : (home x + i) % n = (start + k) % n
        · refine ⟨hgap ▸ inRun_self n start k, fun hrun => ?_⟩
          exact visited_before hk hlast hend hm hwalk hi hgap (hrun.of_succ hother)
        · rw [Function.update_of_ne hgap] at hempty
          obtain ⟨hvisited, hnot⟩ := hwalk i hi hempty
          exact ⟨hvisited.succ, fun hrun => hnot (hrun.of_succ hother)⟩
  · by_cases hsame : i = (home y + j) % n
    · rw [hsame, Function.update_self, Slot.full.injEq] at hx
      exact hx ▸ hlive
    · rw [Function.update_of_ne hsame] at hx
      exact h.live_of_full i hi x (update_empty_full hx).2
  · have hmoved : ∀ s < n, Function.update t ((start + k) % n) .empty s ≠ .full y := by
      intro s hs hfull
      obtain ⟨hne, hfull'⟩ := update_empty_full hfull
      exact hne (h.unique s hs _ hn y hfull' hat)
    by_cases hsame : i = (home y + j) % n <;> by_cases hsame' : i' = (home y + j) % n
    · rw [hsame, hsame']
    · rw [hsame, Function.update_self, Slot.full.injEq] at hx
      rw [Function.update_of_ne hsame', ← hx] at hx'
      exact absurd hx' (hmoved i' hi')
    · rw [hsame', Function.update_self, Slot.full.injEq] at hx'
      rw [Function.update_of_ne hsame, ← hx'] at hx
      exact absurd hx (hmoved i hi)
    · rw [Function.update_of_ne hsame] at hx
      rw [Function.update_of_ne hsame'] at hx'
      exact h.unique i hi i' hi' x (update_empty_full hx).2 (update_empty_full hx').2

/-- Where the run ends no walk is broken. -/
theorem closed (h : Gapped n home live t start k) (hk : k < n)
    (hend : t ((start + k) % n) = .empty) :
    Valid n home live t where
  reach x hx := by
    obtain ⟨j, hj, hfull, hwalk⟩ := h.reach x hx
    refine ⟨j, hj, hfull, fun i hi hempty => ?_⟩
    obtain ⟨⟨d, hd, hs⟩, hnot⟩ := hwalk i hi hempty
    obtain ⟨d', hd', hs'⟩ := exists_offset (i := start % n) (s := (home x + j) % n)
      (Nat.mod_lt _ (by omega)) (Nat.mod_lt _ (by omega))
    rw [Nat.mod_add_mod] at hs'
    have hle : k ≤ d' := by
      by_contra hlt
      exact hnot ⟨d', by omega, hs'⟩
    have hne : d' ≠ k := by
      rintro rfl
      rw [hs', hfull] at hend
      cases hend
    obtain ⟨m, hm, hpass⟩ :=
      walk_passes hs.symm hs'.symm hi hj hd (by omega) (by omega)
    rw [← hpass] at hend
    have hvisited := (hwalk m hm hend).1
    rw [hpass] at hvisited
    exact not_inRun le_rfl hk hvisited
  live_of_full := h.live_of_full
  unique := h.unique

end Gapped

end OpenAddressing
end Beans
