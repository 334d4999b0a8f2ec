import Mathlib

/-!
# Self-delimiting encodings

An encoding whose words say where they end.  Words of it can be put one after
the other and read back, so a list of them has one reading.  The length of a
word between two marks, in front of the word, makes such an encoding of
arbitrary words.
-/

namespace Beans
namespace SelfDelimiting

variable {α β γ : Type*}

/-- No word is empty, and what follows a word does not change its reading. -/
structure Delimited (encode : β → List α) : Prop where
  ne_nil : ∀ b, encode b ≠ []
  append_inj : ∀ a b r q, encode a ++ r = encode b ++ q → a = b ∧ r = q

variable {encode : β → List α} {l m : List β} {mark : α}

/-- Words one after the other have one reading. -/
theorem Delimited.flatMap_inj (h : Delimited encode)
    (hlm : l.flatMap encode = m.flatMap encode) :
    l = m := by
  induction l generalizing m with
  | nil =>
    cases m with
    | nil => rfl
    | cons b m =>
      rw [List.flatMap_nil, List.flatMap_cons] at hlm
      exact absurd (List.append_eq_nil_iff.mp hlm.symm).1 (h.ne_nil b)
  | cons a l ih =>
    cases m with
    | nil =>
      rw [List.flatMap_nil, List.flatMap_cons] at hlm
      exact absurd (List.append_eq_nil_iff.mp hlm).1 (h.ne_nil a)
    | cons b m =>
      rw [List.flatMap_cons, List.flatMap_cons] at hlm
      obtain ⟨hab, hrest⟩ := h.append_inj a b _ _ hlm
      rw [hab, ih hrest]

/-- Of two readings of one text, one goes on where the other ends. -/
theorem Delimited.flatMap_append (h : Delimited encode) {r q : List α}
    (hlm : l.flatMap encode ++ r = m.flatMap encode ++ q) :
    (∃ more, m = l ++ more ∧ r = more.flatMap encode ++ q) ∨
      ∃ more, l = m ++ more ∧ q = more.flatMap encode ++ r := by
  induction l generalizing m with
  | nil => exact .inl ⟨m, rfl, hlm⟩
  | cons a l ih =>
    cases m with
    | nil => exact .inr ⟨a :: l, rfl, hlm.symm⟩
    | cons b m =>
      rw [List.flatMap_cons, List.flatMap_cons, List.append_assoc, List.append_assoc] at hlm
      obtain ⟨rfl, hrest⟩ := h.append_inj a b _ _ hlm
      rcases ih hrest with ⟨more, rfl, hr⟩ | ⟨more, rfl, hq⟩
      · exact .inl ⟨more, rfl, hr⟩
      · exact .inr ⟨more, rfl, hq⟩

theorem Delimited.pair {encode' : γ → List α} (h : Delimited encode) (h' : Delimited encode') :
    Delimited fun p : β × γ => encode p.1 ++ encode' p.2 where
  ne_nil p hnil := h.ne_nil p.1 (List.append_eq_nil_iff.mp hnil).1
  append_inj a b r q heq := by
    rw [List.append_assoc, List.append_assoc] at heq
    obtain ⟨hfirst, hrest⟩ := h.append_inj _ _ _ _ heq
    obtain ⟨hsecond, hend⟩ := h'.append_inj _ _ _ _ hrest
    exact ⟨Prod.ext hfirst hsecond, hend⟩

/-- Numerals with one reading that do not use the mark. -/
structure Numerals (numeral : ℕ → List α) (mark : α) : Prop where
  injective : Function.Injective numeral
  avoids : ∀ n, mark ∉ numeral n

/-- The word with its length in front, each after a mark. -/
def piece (numeral : ℕ → List α) (mark : α) (word : List α) : List α :=
  mark :: (numeral word.length ++ mark :: word)

/-- What stands before the first mark, and what after it. -/
theorem split_at_mark {xs ys r q : List α} (hx : mark ∉ xs) (hy : mark ∉ ys)
    (h : xs ++ mark :: r = ys ++ mark :: q) :
    xs = ys ∧ r = q := by
  induction xs generalizing ys with
  | nil =>
    cases ys with
    | nil => exact ⟨rfl, (List.cons.inj h).2⟩
    | cons y ys =>
      have hhead := (List.cons.inj h).1
      exact absurd (hhead ▸ List.mem_cons_self) hy
  | cons x xs ih =>
    cases ys with
    | nil =>
      have hhead := (List.cons.inj h).1
      exact absurd (hhead ▸ List.mem_cons_self) hx
    | cons y ys =>
      obtain ⟨hhead, htail⟩ := List.cons.inj h
      obtain ⟨hxy, hrest⟩ := ih (fun hm => hx (List.mem_cons_of_mem x hm))
        (fun hm => hy (List.mem_cons_of_mem y hm)) htail
      exact ⟨by rw [hhead, hxy], hrest⟩

/-- What a run is followed by shows where it ends. -/
theorem split_at_run {inside : α → Prop} {xs ys r q : List α} (hx : ∀ a ∈ xs, inside a)
    (hy : ∀ a ∈ ys, inside a) (hr : ∀ a ∈ r.head?, ¬ inside a) (hq : ∀ a ∈ q.head?, ¬ inside a)
    (h : xs ++ r = ys ++ q) :
    xs = ys ∧ r = q := by
  induction xs generalizing ys with
  | nil =>
    cases ys with
    | nil => exact ⟨rfl, h⟩
    | cons y ys =>
      rw [List.nil_append] at h
      subst h
      exact absurd (hy y List.mem_cons_self) (hr y rfl)
  | cons x xs ih =>
    cases ys with
    | nil =>
      rw [List.nil_append] at h
      subst h
      exact absurd (hx x List.mem_cons_self) (hq x rfl)
    | cons y ys =>
      rw [List.forall_mem_cons] at hx hy
      obtain ⟨hhead, htail⟩ := List.cons.inj h
      obtain ⟨hxy, hrest⟩ := ih hx.2 hy.2 htail
      exact ⟨by rw [hhead, hxy], hrest⟩

theorem Numerals.piece_delimited {numeral : ℕ → List α} (h : Numerals numeral mark) :
    Delimited (piece numeral mark) where
  ne_nil word := List.cons_ne_nil _ _
  append_inj a b r q heq := by
    unfold piece at heq
    rw [List.cons_append, List.cons_append, List.append_assoc,
      List.append_assoc, List.cons_append, List.cons_append,
      List.cons_inj_right] at heq
    obtain ⟨hlength, hrest⟩ := split_at_mark (h.avoids a.length)
      (h.avoids b.length) heq
    exact List.append_inj hrest (h.injective hlength)

end SelfDelimiting
end Beans
