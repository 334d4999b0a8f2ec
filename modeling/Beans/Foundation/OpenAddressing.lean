import Mathlib

/-!
# Open addressing with tombstones

A table of `n` slots, each of them empty, a tombstone or full.  A search for an
item starts at the item's home slot and walks upwards, around the end of the
table, until it meets its target or an empty slot.  The module states what the
walk finds, the invariant that makes every stored item findable, and what
placing, burying and relabelling an item do to it.

Tables are functions on slot numbers; only the slots below `n` count.

**Results.**
* `probe_spec`: where a walk ends, and what it has passed.
* `place`, `bury`, `relabel`: the three ways to change a table keep it in shape.
-/

namespace Beans
namespace OpenAddressing

inductive Slot (ι : Type*) where
  | empty
  | tomb
  | full (x : ι)
deriving DecidableEq

namespace Slot

variable {ι : Type*}

def isEmpty : Slot ι → Bool
  | empty => true
  | _ => false

def isTomb : Slot ι → Bool
  | tomb => true
  | _ => false

def isFull : Slot ι → Bool
  | full _ => true
  | _ => false

theorem isEmpty_iff (s : Slot ι) : s.isEmpty = true ↔ s = empty := by
  cases s <;> simp [isEmpty]

end Slot

/-- The walk from slot `i`, at most `fuel` slots long, up to the first slot that
stops it. -/
def probe (stop : ℕ → Bool) (n : ℕ) : ℕ → ℕ → Option ℕ
  | 0, _ => none
  | fuel + 1, i => if stop i then some i else probe stop n fuel ((i + 1) % n)

theorem next_offset {n : ℕ} (i k : ℕ) :
    ((i + 1) % n + k) % n = (i + (k + 1)) % n := by
  rw [Nat.mod_add_mod]
  congr 1
  omega

/-- A walk ends at the first stop within its fuel, or runs out of fuel having
passed none. -/
theorem probe_spec (stop : ℕ → Bool) {n : ℕ} :
    ∀ (fuel i : ℕ), i < n →
      (∃ k < fuel, probe stop n fuel i = some ((i + k) % n) ∧
        stop ((i + k) % n) = true ∧
        ∀ j < k, stop ((i + j) % n) = false) ∨
      (probe stop n fuel i = none ∧ ∀ j < fuel, stop ((i + j) % n) = false)
  | 0, i, _ => Or.inr ⟨rfl, fun j hj => absurd hj (Nat.not_lt_zero j)⟩
  | fuel + 1, i, hi => by
      have hhere : (i + 0) % n = i := Nat.mod_eq_of_lt hi
      unfold probe
      by_cases hstop : stop i = true
      · refine Or.inl ⟨0, Nat.succ_pos _, ?_, ?_, ?_⟩
        · rw [if_pos hstop, hhere]
        · rw [hhere]
          exact hstop
        · intro j hj
          exact absurd hj (Nat.not_lt_zero j)
      · rw [if_neg hstop]
        have hlater : ∀ m, (∀ j < m, stop (((i + 1) % n + j) % n) = false) →
            ∀ j < m + 1, stop ((i + j) % n) = false := by
          intro m hm j hj
          cases j with
          | zero =>
            rw [hhere]
            exact Bool.not_eq_true _ ▸ hstop
          | succ j =>
            rw [← next_offset]
            exact hm j (by omega)
        rcases probe_spec stop fuel ((i + 1) % n)
          (Nat.mod_lt _ (by omega)) with ⟨k, hk, heq, hat, hbefore⟩ | ⟨hnone, hall⟩
        · rw [next_offset] at heq hat
          exact Or.inl ⟨k + 1, by omega, heq, hat, hlater k hbefore⟩
        · exact Or.inr ⟨hnone, hlater fuel hall⟩

/-- Every slot lies on the walk from any other, within one round. -/
theorem exists_offset {n i s : ℕ} (hi : i < n) (hs : s < n) :
    ∃ k < n, (i + k) % n = s := by
  by_cases h : i ≤ s
  · refine ⟨s - i, by omega, ?_⟩
    rw [show i + (s - i) = s by omega, Nat.mod_eq_of_lt hs]
  · refine ⟨s + n - i, by omega, ?_⟩
    rw [show i + (s + n - i) = s + n by omega, Nat.add_mod_right,
      Nat.mod_eq_of_lt hs]

/-- Offsets below one round name different slots. -/
theorem offset_inj {n i j k : ℕ} (hj : j < n) (hk : k < n)
    (h : (i + j) % n = (i + k) % n) : j = k := by
  have hmod : j ≡ k [MOD n] := Nat.ModEq.add_left_cancel' i h
  exact Nat.ModEq.eq_of_lt_of_lt hmod hj hk

/-- One round is enough wherever some slot stops the walk. -/
theorem probe_round (stop : ℕ → Bool) {n i s : ℕ} (hi : i < n) (hs : s < n)
    (hstop : stop s = true) :
    ∃ k < n, probe stop n n i = some ((i + k) % n) ∧
      stop ((i + k) % n) = true ∧ ∀ j < k, stop ((i + j) % n) = false := by
  rcases probe_spec stop n i hi with h | ⟨-, hall⟩
  · exact h
  · obtain ⟨k, hk, hks⟩ := exists_offset hi hs
    have := hall k hk
    rw [hks, hstop] at this
    exact absurd this.symm Bool.false_ne_true

variable {ι : Type*}

/-- How many of the first `n` slots satisfy `p`. -/
def tally (p : Slot ι → Bool) (t : ℕ → Slot ι) (n : ℕ) : ℕ :=
  ∑ i ∈ Finset.range n, (p (t i)).toNat

theorem tally_update (p : Slot ι → Bool) (t : ℕ → Slot ι) {n i : ℕ} (s : Slot ι)
    (hi : i < n) :
    tally p (Function.update t i s) n + (p (t i)).toNat =
      tally p t n + (p s).toNat := by
  have hmem : i ∈ Finset.range n := Finset.mem_range.mpr hi
  have hrest : ∑ j ∈ (Finset.range n).erase i, (p (Function.update t i s j)).toNat =
      ∑ j ∈ (Finset.range n).erase i, (p (t j)).toNat := by
    refine Finset.sum_congr rfl fun j hj => ?_
    rw [Function.update_of_ne (Finset.ne_of_mem_erase hj)]
  unfold tally
  rw [← Finset.add_sum_erase _ _ hmem, ← Finset.add_sum_erase _ _ hmem, hrest,
    Function.update_self]
  omega

/-- Every slot is empty, a tombstone or full. -/
theorem tally_sum (t : ℕ → Slot ι) (n : ℕ) :
    tally Slot.isEmpty t n + tally Slot.isTomb t n + tally Slot.isFull t n =
      n := by
  unfold tally
  rw [← Finset.sum_add_distrib, ← Finset.sum_add_distrib]
  have hone : ∀ i, (t i).isEmpty.toNat + (t i).isTomb.toNat +
      (t i).isFull.toNat = 1 := by
    intro i
    cases t i <;> rfl
  simp [hone]

theorem exists_of_tally_pos {p : Slot ι → Bool} {t : ℕ → Slot ι} {n : ℕ}
    (h : 0 < tally p t n) : ∃ i < n, p (t i) = true := by
  by_contra hnone
  push Not at hnone
  have hzero : tally p t n = 0 := by
    refine Finset.sum_eq_zero fun i hi => ?_
    have := hnone i (Finset.mem_range.mp hi)
    rw [Bool.eq_false_of_not_eq_true this]
    rfl
  omega

/-- A table that is not filled up by items and tombstones has an empty slot. -/
theorem exists_empty {t : ℕ → Slot ι} {n : ℕ}
    (h : tally Slot.isTomb t n + tally Slot.isFull t n < n) :
    ∃ i < n, t i = .empty := by
  have hsum := tally_sum t n
  obtain ⟨i, hi, hempty⟩ :=
    exists_of_tally_pos (p := Slot.isEmpty) (t := t) (n := n) (by omega)
  exact ⟨i, hi, (Slot.isEmpty_iff _).mp hempty⟩

/--
The items of `live`, and no others, are stored, each in one slot that the walk
from its home reaches before any empty slot.
-/
structure Valid (n : ℕ) (home : ι → ℕ) (live : ι → Prop) (t : ℕ → Slot ι) :
    Prop where
  reach : ∀ x, live x →
    ∃ k < n, t ((home x + k) % n) = .full x ∧
      ∀ j < k, t ((home x + j) % n) ≠ .empty
  live_of_full : ∀ i < n, ∀ x, t i = .full x → live x
  unique : ∀ i < n, ∀ j < n, ∀ x, t i = .full x → t j = .full x → i = j

namespace Valid

variable {n : ℕ} {home : ι → ℕ} {live : ι → Prop} {t : ℕ → Slot ι}

theorem nil (n : ℕ) (home : ι → ℕ) :
    Valid n home (fun _ => False) (fun _ => .empty) where
  reach _ h := h.elim
  live_of_full _ _ _ h := nomatch h
  unique _ _ _ _ _ h := nomatch h

/-- The invariant reads homes of stored items only. -/
theorem congr (hv : Valid n home live t) {home' : ι → ℕ} {live' : ι → Prop}
    (hlive : ∀ x, live' x ↔ live x) (hhome : ∀ x, live x → home' x = home x) :
    Valid n home' live' t where
  reach x hx := by
    have hx' := (hlive x).mp hx
    rw [hhome x hx']
    exact hv.reach x hx'
  live_of_full i hi x h := (hlive x).mpr (hv.live_of_full i hi x h)
  unique := hv.unique

/-- The walk that rewrites one slot keeps reaching what it reached, as long as
the slot does not become empty. -/
theorem reach_update (hv : Valid n home live t) {i : ℕ} {s : Slot ι} {x : ι}
    (hs : s ≠ .empty) (hx : live x) (hne : t i ≠ .full x) :
    ∃ k < n, Function.update t i s ((home x + k) % n) = .full x ∧
      ∀ j < k, Function.update t i s ((home x + j) % n) ≠ .empty := by
  obtain ⟨k, hk, hat, hbefore⟩ := hv.reach x hx
  refine ⟨k, hk, ?_, ?_⟩
  · rw [Function.update_of_ne (fun h => hne (by rw [← h]; exact hat))]
    exact hat
  · intro j hj
    by_cases h : (home x + j) % n = i
    · rw [h, Function.update_self]
      exact hs
    · rw [Function.update_of_ne h]
      exact hbefore j hj

/-- A new item goes into a vacant slot on its walk. -/
theorem place (hv : Valid n home live t) {x : ι} {k : ℕ} (hk : k < n)
    (hvacant : ∀ y, t ((home x + k) % n) ≠ .full y)
    (hbefore : ∀ j < k, t ((home x + j) % n) ≠ .empty) (hx : ¬ live x) :
    Valid n home (fun y => live y ∨ y = x)
      (Function.update t ((home x + k) % n) (.full x)) where
  reach y hy := by
    rcases hy with hy | rfl
    · exact hv.reach_update (by simp) hy (hvacant y)
    · refine ⟨k, hk, Function.update_self _ _ _, ?_⟩
      intro j hj h
      rw [Function.update_of_ne] at h
      · exact hbefore j hj h
      · intro heq
        have := offset_inj (by omega) hk heq
        omega
  live_of_full i hi y h := by
    by_cases hat : i = (home x + k) % n
    · rw [hat, Function.update_self, Slot.full.injEq] at h
      exact Or.inr h.symm
    · rw [Function.update_of_ne hat] at h
      exact Or.inl (hv.live_of_full i hi y h)
  unique i hi j hj y h₁ h₂ := by
    have hother : ∀ m < n, m ≠ (home x + k) % n →
        Function.update t ((home x + k) % n) (.full x) m ≠ .full x := by
      intro m hm hne h
      rw [Function.update_of_ne hne] at h
      exact hx (hv.live_of_full m hm x h)
    by_cases hi' : i = (home x + k) % n <;> by_cases hj' : j = (home x + k) % n
    · rw [hi', hj']
    · rw [hi', Function.update_self, Slot.full.injEq] at h₁
      exact absurd (h₁ ▸ h₂) (hother j hj hj')
    · rw [hj', Function.update_self, Slot.full.injEq] at h₂
      exact absurd (h₂ ▸ h₁) (hother i hi hi')
    · rw [Function.update_of_ne hi'] at h₁
      rw [Function.update_of_ne hj'] at h₂
      exact hv.unique i hi j hj y h₁ h₂

/-- An item leaves a tombstone behind. -/
theorem bury (hv : Valid n home live t) {x : ι} {i : ℕ} (hi : i < n)
    (hat : t i = .full x) :
    Valid n home (fun y => live y ∧ y ≠ x) (Function.update t i .tomb) where
  reach y hy := by
    refine hv.reach_update (by simp) hy.1 ?_
    rw [hat, ne_eq, Slot.full.injEq]
    exact fun h => hy.2 h.symm
  live_of_full j hj y h := by
    by_cases hji : j = i
    · rw [hji, Function.update_self] at h
      cases h
    · rw [Function.update_of_ne hji] at h
      refine ⟨hv.live_of_full j hj y h, ?_⟩
      rintro rfl
      exact hji (hv.unique j hj i hi y h hat)
  unique j hj k hk y h₁ h₂ := by
    have hne : ∀ m, Function.update t i .tomb m = .full y → m ≠ i := by
      rintro m h rfl
      rw [Function.update_self] at h
      cases h
    have hj' := hne j h₁
    have hk' := hne k h₂
    rw [Function.update_of_ne hj'] at h₁
    rw [Function.update_of_ne hk'] at h₂
    exact hv.unique j hj k hk y h₁ h₂

/-- An item is given a new name that has the same home. -/
theorem relabel (hv : Valid n home live t) {home' : ι → ℕ} {x y : ι} {i : ℕ}
    (hi : i < n) (hat : t i = .full x) (hy : ¬ live y)
    (hhome : ∀ z, live z → z ≠ x → home' z = home z)
    (hsame : home' y = home x) :
    Valid n home' (fun z => (live z ∧ z ≠ x) ∨ z = y)
      (Function.update t i (.full y)) where
  reach z hz := by
    rcases hz with ⟨hz, hzx⟩ | rfl
    · rw [hhome z hz hzx]
      refine hv.reach_update (by simp) hz ?_
      rw [hat, ne_eq, Slot.full.injEq]
      exact fun h => hzx h.symm
    · obtain ⟨k, hk, hx, hbefore⟩ :=
        hv.reach x (hv.live_of_full i hi x hat)
      have hslot : (home x + k) % n = i :=
        hv.unique _ (Nat.mod_lt _ (by omega)) i hi x hx hat
      rw [hsame]
      refine ⟨k, hk, by rw [hslot, Function.update_self], ?_⟩
      intro j hj
      by_cases h : (home x + j) % n = i
      · rw [h, Function.update_self]
        simp
      · rw [Function.update_of_ne h]
        exact hbefore j hj
  live_of_full j hj z h := by
    by_cases hji : j = i
    · rw [hji, Function.update_self, Slot.full.injEq] at h
      exact Or.inr h.symm
    · rw [Function.update_of_ne hji] at h
      refine Or.inl ⟨hv.live_of_full j hj z h, ?_⟩
      rintro rfl
      exact hji (hv.unique j hj i hi z h hat)
  unique j hj k hk z h₁ h₂ := by
    have hother : ∀ m < n, m ≠ i → Function.update t i (.full y) m ≠ .full y := by
      intro m hm hne h
      rw [Function.update_of_ne hne] at h
      exact hy (hv.live_of_full m hm y h)
    by_cases hj' : j = i <;> by_cases hk' : k = i
    · rw [hj', hk']
    · rw [hj', Function.update_self, Slot.full.injEq] at h₁
      exact absurd (h₁ ▸ h₂) (hother k hk hk')
    · rw [hk', Function.update_self, Slot.full.injEq] at h₂
      exact absurd (h₂ ▸ h₁) (hother j hj hj')
    · rw [Function.update_of_ne hj'] at h₁
      rw [Function.update_of_ne hk'] at h₂
      exact hv.unique j hj k hk z h₁ h₂

/-- A walk that stops at empty slots and at hits ends at the item, when the
item is stored and is the only hit. -/
theorem stops_at (hv : Valid n home live t) {hit : ι → Prop} {x : ι} {k : ℕ}
    (hkn : k < n) (hx : live x) (hhit : ∀ y, live y → hit y → y = x)
    (hstop : t ((home x + k) % n) = .empty ∨
      ∃ y, t ((home x + k) % n) = .full y ∧ hit y)
    (hpassed : ∀ j < k, t ((home x + j) % n) ≠ .full x) :
    t ((home x + k) % n) = .full x := by
  have hlt : (home x + k) % n < n := Nat.mod_lt _ (by omega)
  rcases hstop with hempty | ⟨y, hy, hhity⟩
  · obtain ⟨m, hm, hat, hbefore⟩ := hv.reach x hx
    rcases lt_trichotomy k m with h | h | h
    · exact absurd hempty (hbefore k h)
    · rw [h]
      exact hat
    · exact absurd hat (hpassed m h)
  · rw [hy, hhit y (hv.live_of_full _ hlt y hy) hhity]

end Valid

end OpenAddressing
end Beans
