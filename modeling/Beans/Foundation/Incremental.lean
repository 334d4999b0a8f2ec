import Mathlib

/-!
# Incremental decoders

A decoder looks at the items it holds and either answers a value with the number
of items it takes, or waits for more.  Where an answer stays the same whatever
items follow, calling the decoder until it waits gives the values of the whole
input, however the input was cut into pieces.

**Results.**
* `drain_enough`: as many calls as there are items are enough.
* `feedAll_eq`: the pieces do not matter.
-/

namespace Beans
namespace Incremental

universe u v w

variable {α : Type u} {κ : Type v} (next : List α → Option (κ × Nat))

/-- An answer takes at least one item, and what follows does not change it. -/
structure Settled : Prop where
  takes : ∀ {l : List α} {k : κ} {n : Nat}, next l = some (k, n) →
    0 < n ∧ n ≤ l.length
  stays : ∀ {l : List α} {k : κ} {n : Nat} (more : List α),
    next l = some (k, n) → next (l ++ more) = some (k, n)

/-- The values of at most `m` calls, and the items that are left. -/
def drain : Nat → List α → List κ × List α
  | 0, l => ([], l)
  | m + 1, l =>
    match next l with
    | none => ([], l)
    | some (k, n) =>
      (k :: (drain m (l.drop n)).1, (drain m (l.drop n)).2)

/-- The values of the calls until the decoder waits. -/
def drainAll (l : List α) : List κ × List α := drain next l.length l

/-- Pieces arrive one after the other, each followed by calls until the decoder
waits. -/
def feedAll : List α → List (List α) → List κ × List α
  | held, [] => ([], held)
  | held, piece :: pieces =>
    ((drainAll next (held ++ piece)).1 ++
        (feedAll (drainAll next (held ++ piece)).2 pieces).1,
      (feedAll (drainAll next (held ++ piece)).2 pieces).2)

variable {next}

theorem drain_none {l : List α} (h : next l = none) (m : Nat) :
    drain next m l = ([], l) := by
  cases m with
  | zero => rfl
  | succ m => rw [drain, h]

theorem drain_some {l : List α} {k : κ} {n : Nat} (h : next l = some (k, n))
    (m : Nat) : drain next (m + 1) l =
      (k :: (drain next m (l.drop n)).1, (drain next m (l.drop n)).2) := by
  rw [drain, h]

namespace Settled

/-- As many calls as there are items are enough. -/
theorem drain_enough (h : Settled next) {m : Nat} {l : List α}
    (hlen : l.length ≤ m) : drain next m l = drainAll next l := by
  have same : ∀ (m m' : Nat) (l : List α), l.length ≤ m → l.length ≤ m' →
      drain next m l = drain next m' l := by
    intro m
    induction m with
    | zero =>
      intro m' l hm hm'
      have hnone : next l = none := by
        cases hl : next l with
        | none => rfl
        | some r =>
          have := h.takes hl
          omega
      rw [drain_none hnone, drain_none hnone]
    | succ m ih =>
      intro m' l hm hm'
      cases hl : next l with
      | none => rw [drain_none hl, drain_none hl]
      | some r =>
        obtain ⟨k, n⟩ := r
        obtain ⟨hpos, hle⟩ := h.takes hl
        obtain ⟨m'', rfl⟩ : ∃ m'', m' = m'' + 1 := ⟨m' - 1, by omega⟩
        have hlen : (l.drop n).length = l.length - n := List.length_drop
        rw [drain_some hl, drain_some hl,
          ih m'' (l.drop n) (by omega) (by omega)]
  exact same m l.length l hlen (Nat.le_refl _)

theorem drainAll_none {l : List α} (hl : next l = none) :
    drainAll next l = ([], l) :=
  drain_none hl _

theorem drainAll_some (h : Settled next) {l : List α} {k : κ} {n : Nat}
    (hl : next l = some (k, n)) : drainAll next l =
      (k :: (drainAll next (l.drop n)).1, (drainAll next (l.drop n)).2) := by
  obtain ⟨hpos, hle⟩ := h.takes hl
  obtain ⟨m, hm⟩ : ∃ m, l.length = m + 1 := ⟨l.length - 1, by omega⟩
  rw [drainAll, hm, drain_some hl,
    h.drain_enough (by rw [List.length_drop]; omega)]

/-- What the calls of one piece leave is the start of the next one. -/
theorem drainAll_append (h : Settled next) (l more : List α) :
    drainAll next (l ++ more) =
      ((drainAll next l).1 ++
          (drainAll next ((drainAll next l).2 ++ more)).1,
        (drainAll next ((drainAll next l).2 ++ more)).2) := by
  induction hn : l.length using Nat.strong_induction_on generalizing l with
  | _ m ih =>
    subst hn
    cases hl : next l with
    | none =>
      rw [drainAll_none hl]
      rfl
    | some r =>
      obtain ⟨k, n⟩ := r
      obtain ⟨hpos, hle⟩ := h.takes hl
      have hlen : (l.drop n).length = l.length - n := List.length_drop
      rw [h.drainAll_some (h.stays more hl), h.drainAll_some hl,
        List.drop_append_of_le_length hle,
        ih (l.drop n).length (by omega) (l.drop n) rfl]
      rfl

/-- After the calls the decoder waits. -/
theorem next_drainAll (h : Settled next) (l : List α) :
    next (drainAll next l).2 = none := by
  induction hn : l.length using Nat.strong_induction_on generalizing l with
  | _ m ih =>
    subst hn
    cases hl : next l with
    | none =>
      rw [drainAll_none hl]
      exact hl
    | some r =>
      obtain ⟨k, n⟩ := r
      obtain ⟨hpos, hle⟩ := h.takes hl
      have hlen : (l.drop n).length = l.length - n := List.length_drop
      rw [h.drainAll_some hl]
      exact ih (l.drop n).length (by omega) (l.drop n) rfl

/-- **The pieces do not matter**: their calls give the values of the whole. -/
theorem feedAll_eq (h : Settled next) {held : List α}
    (hheld : next held = none) (pieces : List (List α)) :
    feedAll next held pieces = drainAll next (held ++ pieces.flatten) := by
  induction pieces generalizing held with
  | nil =>
    rw [List.flatten_nil, List.append_nil, drainAll_none hheld]
    rfl
  | cons piece pieces ih =>
    rw [List.flatten_cons, ← List.append_assoc, h.drainAll_append,
      ← ih (h.next_drainAll _)]
    rfl

/-- Words that the decoder reads back, one after the other. -/
theorem drainAll_flatMap (h : Settled next) (hnil : next [] = none)
    {β : Type w} {encode : β → List α} {value : β → κ}
    (hread : ∀ b more,
      next (encode b ++ more) = some (value b, (encode b).length))
    (words : List β) :
    drainAll next (words.flatMap encode) = (words.map value, []) := by
  induction words with
  | nil => exact drainAll_none hnil
  | cons b words ih =>
    rw [List.flatMap_cons, h.drainAll_some (hread b _), List.drop_left, ih]
    rfl

end Settled

end Incremental
end Beans
