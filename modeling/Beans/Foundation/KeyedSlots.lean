import Mathlib

/-!
# Tables of keyed slots

A table is a list of slots found by their key.  A slot is named by its place,
which stays the same while the table grows, and a reserved key may mark the
slots that are free.  A search answers the first slot with a key, so it answers
the slot meant by a name as long as no other slot has that key.
-/

namespace Beans
namespace KeyedSlots

universe u v

variable {σ : Type u} {κ : Type v}

/-- One slot is written, or added at the end; all others stay. -/
structure Rewrites (l l' : List σ) (p : Nat) (new : σ) : Prop where
  here : l'[p]? = some new
  other : ∀ q, q ≠ p → l'[q]? = l[q]?

namespace Rewrites

variable {l l' l'' : List σ} {p q : Nat} {a new newer : σ}

theorem set (h : l[p]? = some a) (new : σ) :
    Rewrites l (l.set p new) p new := by
  obtain ⟨hp, -⟩ := List.getElem?_eq_some_iff.mp h
  refine ⟨List.getElem?_set_self hp, fun q hq => ?_⟩
  exact List.getElem?_set_ne (Ne.symm hq)

theorem append (l : List σ) (new : σ) :
    Rewrites l (l ++ [new]) l.length new := by
  refine ⟨List.getElem?_concat_length, fun q hq => ?_⟩
  rcases Nat.lt_or_gt_of_ne hq with h | h
  · exact List.getElem?_append_left h
  · rw [List.getElem?_eq_none (by simp; omega),
      List.getElem?_eq_none (by omega)]

theorem modify (h : l[p]? = some a) (f : σ → σ) :
    Rewrites l (l.modify p f) p (f a) := by
  refine ⟨by simp [h], fun q hq => ?_⟩
  simp [Ne.symm hq]

theorem trans (h : Rewrites l l' p new) (h' : Rewrites l' l'' p newer) :
    Rewrites l l'' p newer :=
  ⟨h'.here, fun q hq => by rw [h'.other q hq, h.other q hq]⟩

/-- What stands at a place afterwards. -/
theorem cases (h : Rewrites l l' p new) (hq : l'[q]? = some a) :
    (q = p ∧ a = new) ∨ (q ≠ p ∧ l[q]? = some a) := by
  by_cases hqp : q = p
  · subst hqp
    rw [h.here] at hq
    exact .inl ⟨rfl, (Option.some.inj hq).symm⟩
  · rw [h.other q hqp] at hq
    exact .inr ⟨hqp, hq⟩

/-- A slot that is not the one written stays. -/
theorem keep (h : Rewrites l l' p new) (hq : l[q]? = some a) (hqp : q ≠ p) :
    l'[q]? = some a := by
  rw [h.other q hqp, hq]

end Rewrites

/-- What stands at a place after a list has grown by one entry. -/
theorem getElem?_append_cases {l : List σ} {j : Nat} {a b : σ}
    (h : (l ++ [a])[j]? = some b) :
    (j = l.length ∧ b = a) ∨ l[j]? = some b := by
  rcases (Rewrites.append l a).cases h with ⟨rfl, rfl⟩ | ⟨-, h⟩
  · exact .inl ⟨rfl, rfl⟩
  · exact .inr h

/-- At most one slot has the key. -/
def AtMostOne (key : σ → κ) (l : List σ) (k : κ) : Prop :=
  ∀ (i j : Nat) (a b : σ), l[i]? = some a → l[j]? = some b → key a = k →
    key b = k → i = j

section AtMostOne

variable {key : σ → κ} {l : List σ} {k : κ}

/-- A key that no slot has is the key of at most one. -/
theorem atMostOne_of_absent (h : ∀ a ∈ l, key a ≠ k) : AtMostOne key l k :=
  fun _ _ _ _ hi _ ha _ => absurd ha (h _ (List.mem_of_getElem? hi))

/-- Writing a slot keeps a key to one slot, unless the key is new there. -/
theorem Rewrites.atMostOne {l' : List σ} {p : Nat} {new : σ}
    (h : Rewrites l l' p new) (hone : AtMostOne key l k)
    (hnew : key new = k →
      ∀ (q : Nat) (a : σ), l[q]? = some a → key a = k → q = p) :
    AtMostOne key l' k := by
  intro i j a b hi hj ha hb
  rcases h.cases hi with ⟨rfl, rfl⟩ | ⟨-, hi⟩
  · rcases h.cases hj with ⟨rfl, -⟩ | ⟨-, hj⟩
    · rfl
    · exact (hnew ha j b hj hb).symm
  · rcases h.cases hj with ⟨rfl, rfl⟩ | ⟨-, hj⟩
    · exact hnew hb i a hi ha
    · exact hone i j a b hi hj ha hb

end AtMostOne

section Find

variable [DecidableEq κ] (key : σ → κ)

/-- The place of the first slot with the key. -/
def find : List σ → κ → Option Nat
  | [], _ => none
  | a :: l, k => if key a = k then some 0 else (find l k).map (· + 1)

variable {key} {l : List σ} {k : κ} {i : Nat}

theorem find_some (h : find key l k = some i) :
    ∃ a, l[i]? = some a ∧ key a = k := by
  induction l generalizing i with
  | nil => cases h
  | cons a l ih =>
    rw [find] at h
    split at h
    · rename_i hkey
      cases h
      exact ⟨a, rfl, hkey⟩
    · obtain ⟨j, hj, rfl⟩ := Option.map_eq_some_iff.mp h
      obtain ⟨b, hb, hkey⟩ := ih hj
      exact ⟨b, by simpa using hb, hkey⟩

theorem find_none_iff : find key l k = none ↔ ∀ a ∈ l, key a ≠ k := by
  induction l with
  | nil => simp [find]
  | cons a l ih =>
    by_cases hkey : key a = k
    · simp [find, hkey]
    · simp [find, hkey, ih]

/-- The only slot with a key is the one a search answers. -/
theorem find_of_atMostOne {a : σ} (hone : AtMostOne key l k)
    (hget : l[i]? = some a) (hkey : key a = k) : find key l k = some i := by
  cases h : find key l k with
  | none =>
    exact absurd hkey (find_none_iff.mp h a (List.mem_of_getElem? hget))
  | some j =>
    obtain ⟨b, hb, hbk⟩ := find_some h
    rw [hone i j a b hget hb hkey hbk]

end Find

end KeyedSlots
end Beans
