import Mathlib

/-!
# Lines and words

Text is cut into lines, each ended by a mark, and a line into the words between
separators.  What was put together from such pieces is cut into them again.
-/

namespace Beans
namespace Tokens

variable {α : Type*}

theorem splitOnP_pieces (p : α → Bool) (l : List α) :
    ∀ piece ∈ l.splitOnP p, ∀ b ∈ piece, p b = false := by
  induction l with
  | nil => simp
  | cons a l ih =>
    rw [List.splitOnP_cons_eq_if_modifyHead]
    cases ha : p a with
    | true =>
      rw [if_pos rfl, List.forall_mem_cons]
      exact ⟨by simp, ih⟩
    | false =>
      rw [if_neg (by simp)]
      cases hsplit : l.splitOnP p with
      | nil => exact absurd hsplit (List.splitOnP_ne_nil p l)
      | cons first pieces =>
        rw [hsplit, List.forall_mem_cons] at ih
        rw [List.modifyHead_cons, List.forall_mem_cons, List.forall_mem_cons]
        exact ⟨⟨ha, ih.1⟩, ih.2⟩

theorem mem_splitOnP (p : α → Bool) {l : List α} {b : α} (h : b ∈ l) (hb : p b = false) :
    ∃ piece ∈ l.splitOnP p, b ∈ piece := by
  induction l with
  | nil => exact absurd h List.not_mem_nil
  | cons a l ih =>
    rw [List.splitOnP_cons_eq_if_modifyHead]
    rcases List.mem_cons.mp h with rfl | h
    · rw [hb, if_neg Bool.false_ne_true]
      cases hsplit : l.splitOnP p with
      | nil => exact absurd hsplit (List.splitOnP_ne_nil p l)
      | cons first pieces => exact ⟨_, List.mem_cons_self, List.mem_cons_self⟩
    · obtain ⟨piece, hpiece, hin⟩ := ih h
      split_ifs
      · exact ⟨piece, List.mem_cons_of_mem _ hpiece, hin⟩
      · cases hsplit : l.splitOnP p with
        | nil => exact absurd hsplit (List.splitOnP_ne_nil p l)
        | cons first pieces =>
          rw [hsplit] at hpiece
          rw [List.modifyHead_cons]
          rcases List.mem_cons.mp hpiece with rfl | hpiece
          · exact ⟨_, List.mem_cons_self, List.mem_cons_of_mem _ hin⟩
          · exact ⟨piece, List.mem_cons_of_mem _ hpiece, hin⟩

section Trim

variable {p : α → Bool} {l : List α}

/-- Takes off what satisfies a test at both ends. -/
def trim (p : α → Bool) (l : List α) : List α :=
  ((l.dropWhile p).reverse.dropWhile p).reverse

theorem dropWhile_eq_self (h : ∀ a ∈ l.head?, p a = false) :
    l.dropWhile p = l := by
  cases l with
  | nil => rfl
  | cons a l =>
    rw [List.dropWhile_cons, h a rfl]
    rfl

theorem trim_eq_self (hhead : ∀ a ∈ l.head?, p a = false)
    (hlast : ∀ a ∈ l.getLast?, p a = false) :
    trim p l = l := by
  rw [trim, dropWhile_eq_self hhead, dropWhile_eq_self, List.reverse_reverse]
  rwa [List.head?_reverse]

end Trim

section Pieces

variable [DecidableEq α] {sep : α}

/-- The pieces between separators that are not empty. -/
def words (sep : α) (l : List α) : List (List α) :=
  (l.splitOn sep).filter fun word => !word.isEmpty

theorem words_spec {l word : List α} (h : word ∈ words sep l) :
    word ≠ [] ∧ sep ∉ word := by
  obtain ⟨hin, hne⟩ := List.mem_filter.mp h
  refine ⟨?_, fun hsep => ?_⟩
  · rintro rfl
    exact absurd hne (by simp)
  · rw [List.splitOn_eq_splitOnP] at hin
    have hfalse := splitOnP_pieces _ l word hin sep hsep
    rw [beq_self_eq_true] at hfalse
    exact absurd hfalse (by decide)

theorem words_append_sep (l l' : List α) :
    words sep (l ++ sep :: l') = words sep l ++ words sep l' := by
  rw [words, List.splitOn_append_cons_self, List.filter_append]
  rfl

theorem words_append_replicate (l : List α) (n : ℕ) :
    words sep (l ++ List.replicate n sep) = words sep l := by
  induction n generalizing l with
  | zero => rw [List.replicate_zero, List.append_nil]
  | succ n ih =>
    rw [List.replicate_succ, words_append_sep, ← List.nil_append (List.replicate n sep), ih]
    exact List.append_nil _

/-- Words with separators in between are cut into the words. -/
theorem words_intercalate {ws : List (List α)} (hne : ws ≠ [])
    (h : ∀ word ∈ ws, word ≠ [] ∧ sep ∉ word) :
    words sep ([sep].intercalate ws) = ws := by
  rw [words, List.splitOn_intercalate sep (fun word hword => (h word hword).2) hne]
  refine List.filter_eq_self.mpr fun word hword => ?_
  rw [Bool.not_eq_true', List.isEmpty_eq_false_iff]
  exact (h word hword).1

/-- Lines, each with the mark behind it; the last one may lack it. -/
def lines (mark : α) (l : List α) : List (List α) :=
  let pieces := l.splitOn mark
  if pieces.getLast? = some [] then pieces.dropLast else pieces

theorem lines_nil :
    lines sep [] = [] := by
  rw [lines, List.splitOn_nil]
  exact if_pos rfl

/-- A row up to a mark is the first line. -/
theorem lines_append_mark {row : List α} (h : sep ∉ row) (rest : List α) :
    lines sep (row ++ sep :: rest) = row :: lines sep rest := by
  have hrow : ∀ a ∈ row, (a == sep) = false := fun a ha =>
    beq_eq_false_iff_ne.mpr fun heq => h (heq ▸ ha)
  have hsplit : (row ++ sep :: rest).splitOn sep = row :: rest.splitOn sep := by
    rw [List.splitOn_eq_splitOnP,
      List.splitOnP_append_cons_of_forall_mem hrow sep (beq_self_eq_true sep),
      ← List.splitOn_eq_splitOnP]
  rw [lines, lines, hsplit]
  cases hpieces : rest.splitOn sep with
  | nil => exact absurd hpieces (List.splitOn_ne_nil sep rest)
  | cons piece pieces =>
    rw [List.getLast?_cons_cons, List.dropLast_cons_cons]
    split_ifs <;> rfl

/-- A row without a mark behind it is the last line. -/
theorem lines_eq_singleton {row : List α} (h : sep ∉ row) (hne : row ≠ []) :
    lines sep row = [row] := by
  have hrow : ∀ a ∈ row, (a == sep) = false := fun a ha =>
    beq_eq_false_iff_ne.mpr fun heq => h (heq ▸ ha)
  rw [lines, List.splitOn_eq_splitOnP, List.splitOnP_eq_singleton hrow]
  exact if_neg fun hlast => hne (Option.some.inj hlast)

/-- Marked rows are the lines. -/
theorem lines_marked {rows : List (List α)} (h : ∀ row ∈ rows, sep ∉ row) :
    lines sep (rows.flatMap fun row => row ++ [sep]) = rows := by
  induction rows with
  | nil => exact lines_nil
  | cons row rows ih =>
    rw [List.forall_mem_cons] at h
    rw [List.flatMap_cons, List.append_assoc, List.singleton_append, lines_append_mark h.1,
      ih h.2]

end Pieces

end Tokens
end Beans
