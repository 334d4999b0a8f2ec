import Mathlib

/-!
# Stable priority queues

A priority queue as the list of its entries in the order they were pushed.  The
entry that comes out is the earliest one of the least priority, so taking the
entries out one after another lists them by priority and leaves equal
priorities in push order.
-/

namespace Beans
namespace StableQueue

universe u v w

variable {E : Type u} {F : Type w} {K : Type v} [LinearOrder K]

/-- The earliest entry of the least priority, and the entries without it. -/
def takeLeast (priority : E → K) : List E → Option (E × List E)
  | [] => none
  | e :: l =>
    match takeLeast priority l with
    | none => some (e, l)
    | some (least, rest) =>
      if priority least < priority e then some (least, e :: rest)
      else some (e, l)

@[simp] theorem takeLeast_nil (priority : E → K) :
    takeLeast priority [] = none := rfl

theorem takeLeast_cons (priority : E → K) (e : E) (l : List E) :
    takeLeast priority (e :: l) =
      match takeLeast priority l with
      | none => some (e, l)
      | some (least, rest) =>
        if priority least < priority e then some (least, e :: rest)
        else some (e, l) :=
  rfl

theorem takeLeast_eq_none_iff (priority : E → K) (l : List E) :
    takeLeast priority l = none ↔ l = [] := by
  cases l with
  | nil => simp
  | cons e l =>
    constructor
    · intro h
      rw [takeLeast_cons] at h
      split at h
      · cases h
      · split at h <;> cases h
    · intro h
      cases h

variable {l rest : List E} {least : E} {priority : E → K}

/-- What comes out is before everything pushed later, below the rest. -/
theorem takeLeast_split (h : takeLeast priority l = some (least, rest)) :
    ∃ early late, l = early ++ least :: late ∧ rest = early ++ late ∧
      (∀ e ∈ early, priority least < priority e) ∧
      ∀ e ∈ late, priority least ≤ priority e := by
  induction l generalizing least rest with
  | nil => cases h
  | cons e l ih =>
    cases htail : takeLeast priority l with
    | none =>
      have hnil := (takeLeast_eq_none_iff priority l).mp htail
      subst hnil
      simp only [takeLeast_cons, takeLeast_nil, Option.some.injEq, Prod.mk.injEq] at h
      obtain ⟨rfl, rfl⟩ := h
      exact ⟨[], [], rfl, rfl, by simp, by simp⟩
    | some found =>
      obtain ⟨least', rest'⟩ := found
      obtain ⟨early, late, hl, hrest, hearly, hlate⟩ := ih htail
      simp only [takeLeast_cons, htail] at h
      by_cases hlt : priority least' < priority e
      · rw [if_pos hlt] at h
        simp only [Option.some.injEq, Prod.mk.injEq] at h
        obtain ⟨rfl, rfl⟩ := h
        refine ⟨e :: early, late, by simp [hl], by simp [hrest], ?_,
          hlate⟩
        intro x hx
        rcases List.mem_cons.mp hx with rfl | hx
        · exact hlt
        · exact hearly x hx
      · rw [if_neg hlt] at h
        simp only [Option.some.injEq, Prod.mk.injEq] at h
        obtain ⟨rfl, rfl⟩ := h
        refine ⟨[], l, rfl, rfl, by simp, ?_⟩
        intro x hx
        have hbelow : priority least' ≤ priority x := by
          rw [hl] at hx
          rcases List.mem_append.mp hx with hx | hx
          · exact (hearly x hx).le
          · rcases List.mem_cons.mp hx with rfl | hx
            · exact le_rfl
            · exact hlate x hx
        exact (not_lt.mp hlt).trans hbelow

/-- Only the priorities decide. -/
theorem takeLeast_map (f : E → F) (priority : F → K) (l : List E) :
    takeLeast priority (l.map f) =
      (takeLeast (fun e => priority (f e)) l).map
        fun found => (f found.1, found.2.map f) := by
  induction l with
  | nil => rfl
  | cons e l ih =>
    simp only [List.map_cons, takeLeast_cons, ih]
    cases takeLeast (fun e => priority (f e)) l with
    | none => rfl
    | some found =>
      dsimp only [Option.map_some]
      split <;> rfl

/-- Entries by priority, equal priorities in push order. -/
def drained (priority : E → K) (l : List E) : List E :=
  l.insertionSort fun a b => priority a ≤ priority b

@[simp] theorem drained_nil (priority : E → K) :
    drained priority [] = [] := rfl

/-- Taking out the least entry first. -/
theorem drained_takeLeast (h : takeLeast priority l = some (least, rest)) :
    drained priority l = least :: drained priority rest := by
  induction l generalizing least rest with
  | nil => cases h
  | cons e l ih =>
    cases htail : takeLeast priority l with
    | none =>
      have hnil := (takeLeast_eq_none_iff priority l).mp htail
      subst hnil
      simp only [takeLeast_cons, takeLeast_nil, Option.some.injEq, Prod.mk.injEq] at h
      obtain ⟨rfl, rfl⟩ := h
      rfl
    | some found =>
      obtain ⟨least', rest'⟩ := found
      have hsort := ih htail
      simp only [takeLeast_cons, htail] at h
      unfold drained at hsort ⊢
      rw [List.insertionSort_cons, hsort]
      by_cases hlt : priority least' < priority e
      · rw [if_pos hlt] at h
        simp only [Option.some.injEq, Prod.mk.injEq] at h
        obtain ⟨rfl, rfl⟩ := h
        rw [List.orderedInsert, if_neg (not_le.mpr hlt),
          List.insertionSort_cons]
      · rw [if_neg hlt] at h
        simp only [Option.some.injEq, Prod.mk.injEq] at h
        obtain ⟨rfl, rfl⟩ := h
        rw [List.orderedInsert, if_pos (not_lt.mp hlt), hsort]

/-- The priorities never go down. -/
theorem drained_ascending (priority : E → K) (l : List E) :
    (drained priority l).Pairwise fun a b => priority a ≤ priority b := by
  have htrans : IsTrans E fun a b => priority a ≤ priority b :=
    ⟨fun _ _ _ => le_trans⟩
  have htotal : Std.Total fun a b : E => priority a ≤ priority b :=
    ⟨fun a b => le_total (priority a) (priority b)⟩
  exact List.pairwise_insertionSort _ l

/-- Entries of one priority stay in push order. -/
theorem drained_filter (priority : E → K) (p : K) (l : List E) :
    (drained priority l).filter (fun e => priority e = p) =
      l.filter fun e => priority e = p := by
  induction l with
  | nil => rfl
  | cons e l ih =>
    have hinsert (s : List E) :
        (s.orderedInsert (fun a b => priority a ≤ priority b) e).filter
            (fun x => priority x = p) =
          (e :: s).filter fun x => priority x = p := by
      induction s with
      | nil => rfl
      | cons x s ihs =>
        by_cases hle : priority e ≤ priority x
        · rw [List.orderedInsert, if_pos hle]
        · rw [List.orderedInsert, if_neg hle, List.filter_cons, ihs]
          by_cases hx : priority x = p
          · have he : priority e ≠ p := by
              rw [← hx]
              exact ne_of_gt (not_le.mp hle)
            simp [hx, he]
          · simp [List.filter_cons, hx]
    unfold drained at ih ⊢
    rw [List.insertionSort_cons, hinsert, List.filter_cons, ih,
      List.filter_cons]

end StableQueue
end Beans
