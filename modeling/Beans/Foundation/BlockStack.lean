import Mathlib

/-!
# Stacks of blocks

A sequence cut into blocks of one size.  The last block is the outermost one:
only that block may be short, and it is never empty.  The elements are the
concatenation of the blocks, and an element is found by dividing its position
by the block size.
-/

namespace Beans
namespace BlockStack

universe u

variable {α : Type u} {B : ℕ}

/-- Inner blocks are full, the outermost one holds between one and `B`. -/
structure Filled (B : ℕ) (blocks : List (List α)) : Prop where
  inner : ∀ b ∈ blocks.dropLast, b.length = B
  nonempty : ∀ b ∈ blocks, b ≠ []
  bounded : ∀ b ∈ blocks, b.length ≤ B

theorem Filled.nil : Filled B ([] : List (List α)) where
  inner := by simp
  nonempty := by simp
  bounded := by simp

variable {blocks inner : List (List α)} {outer : List α}

/-- A stack without its outermost block, seen from outside. -/
theorem filled_snoc_iff (hB : 0 < B) :
    Filled B (inner ++ [outer]) ↔
      (∀ b ∈ inner, b.length = B) ∧ outer ≠ [] ∧ outer.length ≤ B := by
  constructor
  · intro h
    refine ⟨?_, h.nonempty outer (by simp), h.bounded outer (by simp)⟩
    intro b hb
    exact h.inner b (by simpa using hb)
  · rintro ⟨hinner, hne, hle⟩
    constructor
    · intro b hb
      exact hinner b (by simpa using hb)
    · intro b hb
      rcases List.mem_append.mp hb with hb | hb
      · have hlen := hinner b hb
        intro hnil
        rw [hnil, List.length_nil] at hlen
        omega
      · rw [List.mem_singleton.mp hb]
        exact hne
    · intro b hb
      rcases List.mem_append.mp hb with hb | hb
      · exact (hinner b hb).le
      · rw [List.mem_singleton.mp hb]
        exact hle

/-- A nonempty stack has an outermost block. -/
theorem Filled.outermost (h : Filled B blocks)
    (hB : 0 < B) (hne : blocks ≠ []) :
    ∃ inner outer, blocks = inner ++ [outer] ∧
      (∀ b ∈ inner, b.length = B) ∧ outer ≠ [] ∧ outer.length ≤ B := by
  obtain ⟨inner, outer, rfl⟩ :=
    (List.eq_nil_or_concat' blocks).resolve_left hne
  exact ⟨inner, outer, rfl, (filled_snoc_iff hB).mp h⟩

/-- Full blocks only. -/
theorem Filled.ofFull (hB : 0 < B)
    (hfull : ∀ b ∈ blocks, b.length = B) : Filled B blocks where
  inner := fun b hb => hfull b (List.dropLast_subset _ hb)
  nonempty := by
    intro b hb hnil
    have hlen := hfull b hb
    rw [hnil, List.length_nil] at hlen
    omega
  bounded := fun b hb => (hfull b hb).le

/-- One block. -/
theorem Filled.single {block : List α} (hne : block ≠ [])
    (hle : block.length ≤ B) : Filled B [block] where
  inner := by simp
  nonempty := by simpa using hne
  bounded := by simpa using hle

/-- Elements in full blocks. -/
theorem length_flatten_full (hfull : ∀ b ∈ blocks, b.length = B) :
    blocks.flatten.length = blocks.length * B := by
  induction blocks with
  | nil => simp
  | cons b blocks ih =>
    have hb := hfull b (by simp)
    have hrest := ih fun b hb => hfull b (by simp [hb])
    simp only [List.flatten_cons, List.length_append, List.length_cons, hb,
      hrest]
    ring

theorem length_flatten_snoc (hfull : ∀ b ∈ inner, b.length = B) :
    (inner ++ [outer]).flatten.length = inner.length * B + outer.length := by
  rw [List.flatten_append, List.length_append, length_flatten_full hfull]
  simp

/-- A stack is empty exactly when it stores nothing. -/
theorem Filled.flatten_eq_nil_iff
    (h : Filled B blocks) : blocks.flatten = [] ↔ blocks = [] := by
  constructor
  · intro hnil
    cases blocks with
    | nil => rfl
    | cons b blocks =>
      have hb := h.nonempty b (by simp)
      simp only [List.flatten_cons, List.append_eq_nil_iff] at hnil
      exact absurd hnil.1 hb
  · intro hnil
    simp [hnil]

/-- The element at block `q`, slot `r` is the one at position `q * B + r`. -/
theorem Filled.slot (h : Filled B blocks)
    {q r : ℕ} (hr : r < B) (hlt : q * B + r < blocks.flatten.length) :
    ∃ block a, blocks[q]? = some block ∧ block[r]? = some a ∧
      blocks.flatten[q * B + r]? = some a := by
  induction blocks generalizing q with
  | nil => simp at hlt
  | cons b blocks ih =>
    have hblen : blocks = [] ∨ b.length = B := by
      cases blocks with
      | nil => exact .inl rfl
      | cons c blocks => exact .inr (h.inner b (by simp))
    have hrest : Filled B blocks := by
      constructor
      · intro c hc
        refine h.inner c ?_
        cases blocks with
        | nil => simp at hc
        | cons d blocks => simp [hc]
      · exact fun c hc => h.nonempty c (by simp [hc])
      · exact fun c hc => h.bounded c (by simp [hc])
    have hbound := h.bounded b (by simp)
    rw [List.flatten_cons, List.length_append] at hlt
    cases q with
    | zero =>
      have hrb : r < b.length := by
        rcases hblen with hnil | hlen
        · simpa [hnil] using hlt
        · omega
      refine ⟨b, b[r], rfl, List.getElem?_eq_getElem hrb, ?_⟩
      rw [Nat.zero_mul, Nat.zero_add, List.flatten_cons,
        List.getElem?_append_left hrb, List.getElem?_eq_getElem hrb]
    | succ q =>
      have hlen : b.length = B := by
        rcases hblen with hnil | hlen
        · rw [hnil] at hlt
          simp only [List.flatten_nil, List.length_nil] at hlt
          rw [Nat.succ_mul] at hlt
          omega
        · exact hlen
      have hpos : (q + 1) * B + r - b.length = q * B + r := by
        rw [hlen, Nat.succ_mul]
        omega
      have hlt' : q * B + r < blocks.flatten.length := by
        rw [Nat.succ_mul] at hlt
        omega
      obtain ⟨block, a, hblock, ha, hflat⟩ := ih hrest hlt'
      refine ⟨block, a, by simpa using hblock, ha, ?_⟩
      rw [List.flatten_cons, List.getElem?_append_right, hpos, hflat]
      rw [hlen, Nat.succ_mul]
      omega

theorem set_outermost (inner : List (List α)) (outer block : List α) :
    (inner ++ [outer]).set inner.length block = inner ++ [block] := by
  simp

theorem eraseIdx_outermost (inner : List (List α)) (outer : List α) :
    (inner ++ [outer]).eraseIdx inner.length = inner := by
  rw [List.eraseIdx_append_of_length_le le_rfl]
  simp

/-- A push into the outermost block. -/
theorem flatten_extend (inner : List (List α)) (outer : List α) (a : α) :
    (inner ++ [outer ++ [a]]).flatten = (inner ++ [outer]).flatten ++ [a] := by
  simp

theorem Filled.extend (hB : 0 < B)
    (hfull : ∀ b ∈ inner, b.length = B) (hroom : outer.length < B) (a : α) :
    Filled B (inner ++ [outer ++ [a]]) := by
  rw [filled_snoc_iff hB]
  exact ⟨hfull, by simp, by simpa using hroom⟩

/-- A push that opens a block. -/
theorem Filled.open (hB : 0 < B)
    (hfull : ∀ b ∈ blocks, b.length = B) (a : α) :
    Filled B (blocks ++ [[a]]) := by
  rw [filled_snoc_iff hB]
  exact ⟨hfull, by simp, by simpa using Nat.succ_le_of_lt hB⟩

/-- The elements without the last one. -/
theorem flatten_shrink (inner : List (List α))
    (hne : outer ≠ []) :
    (inner ++ [outer.dropLast]).flatten =
      (inner ++ [outer]).flatten.dropLast := by
  simp [List.dropLast_append_of_ne_nil hne]

theorem getLast?_flatten (inner : List (List α))
    (hne : outer ≠ []) :
    (inner ++ [outer]).flatten.getLast? = outer.getLast? := by
  obtain ⟨pre, a, rfl⟩ := (List.eq_nil_or_concat' outer).resolve_left hne
  simp [List.getLast?_append]

/-- Taking whole blocks off the bottom of a stack. -/
theorem Filled.drop {blocks : List (List α)} (h : Filled B blocks) (n : ℕ) :
    Filled B (blocks.drop n) where
  inner := by
    intro b hb
    refine h.inner b ?_
    rw [List.dropLast_drop_eq_drop_dropLast] at hb
    exact List.mem_of_mem_drop hb
  nonempty := fun b hb => h.nonempty b (List.mem_of_mem_drop hb)
  bounded := fun b hb => h.bounded b (List.mem_of_mem_drop hb)

/-- The blocks under the outermost one are full. -/
theorem Filled.full_take (h : Filled B blocks)
    {n : ℕ} (hn : n < blocks.length) :
    ∀ b ∈ blocks.take n, b.length = B := by
  intro b hb
  refine h.inner b ?_
  rw [List.dropLast_eq_take]
  exact (List.take_subset_take_left blocks (by omega)) hb

end BlockStack
end Beans
