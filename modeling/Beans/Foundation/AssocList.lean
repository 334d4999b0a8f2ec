import Mathlib

/-!
# Finite maps as lists of entries

A finite map whose keys are compared by an equivalence `eq` rather than by
equality, kept as the list of its entries in the order they were first
inserted.  Looking a key up after an update is computed from the lookup before
it, and does not depend on the order of the entries.
-/

namespace Beans
namespace AssocList

variable {K V : Type*} (eq : K → K → Bool)

/-- Key comparison is an equivalence. -/
structure KeyEquivalence : Prop where
  refl : ∀ a, eq a a = true
  symm : ∀ a b, eq a b = true → eq b a = true
  trans : ∀ a b c, eq a b = true → eq b c = true → eq a c = true

def get (m : List (K × V)) (key : K) : Option V :=
  (m.find? (fun e => eq e.1 key)).map Prod.snd

/-- The value under `key` changed in place; the stored key stays. -/
def modify (f : V → V) (key : K) (m : List (K × V)) : List (K × V) :=
  m.map (fun e => if eq e.1 key then (e.1, f e.2) else e)

def erase (key : K) (m : List (K × V)) : List (K × V) :=
  m.filter (fun e => !eq e.1 key)

/-- No two entries have equal keys. -/
def Distinct (m : List (K × V)) : Prop :=
  m.Pairwise (fun a b => eq a.1 b.1 = false)

variable {eq}

theorem KeyEquivalence.comm (he : KeyEquivalence eq) (a b : K) :
    eq a b = eq b a := by
  rw [Bool.eq_iff_iff]
  exact ⟨he.symm a b, he.symm b a⟩

variable {a b key : K} {m : List (K × V)}

/-- Equal keys are equal to the same keys. -/
theorem KeyEquivalence.congr (he : KeyEquivalence eq)
    (h : eq a b = true) (c : K) : eq a c = eq b c := by
  rw [Bool.eq_iff_iff]
  exact ⟨he.trans b a c (he.symm a b h), he.trans a b c h⟩

@[simp] theorem get_nil (key : K) : get eq ([] : List (K × V)) key = none := rfl

theorem get_cons (e : K × V) (m : List (K × V)) (key : K) :
    get eq (e :: m) key = if eq e.1 key then some e.2 else get eq m key := by
  unfold get
  rw [List.find?_cons]
  cases eq e.1 key <;> rfl

theorem get_eq_none_iff (m : List (K × V)) (key : K) :
    get eq m key = none ↔ ∀ e ∈ m, eq e.1 key = false := by
  unfold get
  rw [Option.map_eq_none_iff, List.find?_eq_none]
  simp

theorem get_map {W : Type*} (f : V → W) (m : List (K × V)) (key : K) :
    get eq (m.map fun e => (e.1, f e.2)) key = (get eq m key).map f := by
  induction m with
  | nil => rfl
  | cons e m ih =>
    rw [List.map_cons, get_cons, get_cons, ih]
    split_ifs <;> rfl

theorem distinct_cons (e : K × V) (m : List (K × V)) :
    Distinct eq (e :: m) ↔
      (∀ e' ∈ m, eq e.1 e'.1 = false) ∧ Distinct eq m :=
  List.pairwise_cons

theorem Distinct.perm (he : KeyEquivalence eq) {m m' : List (K × V)}
    (hd : Distinct eq m) (hp : m.Perm m') : Distinct eq m' :=
  List.Pairwise.perm hd hp fun h => by rw [he.comm]; exact h

theorem get_of_mem (he : KeyEquivalence eq)
    (hd : Distinct eq m) {e : K × V} (hmem : e ∈ m)
    (hkey : eq e.1 key = true) : get eq m key = some e.2 := by
  induction m with
  | nil => cases hmem
  | cons x m ih =>
    obtain ⟨hx, hm⟩ := (distinct_cons x m).mp hd
    rw [get_cons]
    rcases List.mem_cons.mp hmem with rfl | hmem
    · rw [if_pos hkey]
    · have hne : ¬ eq x.1 key = true := by
        rw [he.comm, ← he.congr hkey, he.comm, hx e hmem]
        exact Bool.false_ne_true
      rw [if_neg hne]
      exact ih hm hmem

theorem get_perm (he : KeyEquivalence eq) {m' : List (K × V)}
    (hd : Distinct eq m) (hp : m.Perm m') (key : K) :
    get eq m key = get eq m' key := by
  cases h : get eq m' key with
  | none =>
    rw [get_eq_none_iff] at h ⊢
    exact fun e hmem => h e (hp.subset hmem)
  | some v =>
    obtain ⟨e, hfind, rfl⟩ := Option.map_eq_some_iff.mp h
    refine get_of_mem he hd (hp.symm.subset (List.mem_of_find?_eq_some hfind)) ?_
    have := List.find?_some hfind
    exact this

theorem get_congr (he : KeyEquivalence eq) (m : List (K × V))
    (h : eq a b = true) : get eq m a = get eq m b := by
  induction m with
  | nil => rfl
  | cons e m ih =>
    rw [get_cons, get_cons, he.comm e.1 a, he.congr h, he.comm b, ih]

theorem get_append_new (m : List (K × V)) (key key' : K) (v : V)
    (he : KeyEquivalence eq) (hnew : get eq m key = none) :
    get eq (m ++ [(key, v)]) key' =
      if eq key key' then some v else get eq m key' := by
  induction m with
  | nil => rw [List.nil_append, get_cons, get_nil]
  | cons e m ih =>
    rw [get_cons] at hnew
    have hne : eq e.1 key = false := by
      by_contra h
      rw [Bool.not_eq_false] at h
      rw [if_pos h] at hnew
      cases hnew
    rw [hne, if_neg Bool.false_ne_true] at hnew
    rw [List.cons_append, get_cons, get_cons, ih hnew]
    by_cases h : eq key key' = true
    · have : ¬ eq e.1 key' = true := by
        rw [he.comm, ← he.congr h, he.comm, hne]
        exact Bool.false_ne_true
      rw [if_neg this, if_pos h, if_pos h]
    · rw [if_neg h, if_neg h]

theorem get_modify (he : KeyEquivalence eq) (f : V → V) (m : List (K × V))
    (key key' : K) :
    get eq (modify eq f key m) key' =
      if eq key key' then (get eq m key').map f else get eq m key' := by
  induction m with
  | nil => simp [modify]
  | cons e m ih =>
    have hcons : modify eq f key (e :: m) =
        (if eq e.1 key then (e.1, f e.2) else e) :: modify eq f key m := rfl
    rw [hcons, get_cons, get_cons, ih]
    by_cases hkey : eq key key' = true
    · rw [if_pos hkey, if_pos hkey]
      have hsame : eq e.1 key = eq e.1 key' := by
        rw [he.comm, he.congr hkey, he.comm]
      by_cases h : eq e.1 key' = true
      · rw [hsame, if_pos h, if_pos h, if_pos h, Option.map_some]
      · rw [hsame, if_neg h, if_neg h, if_neg h]
    · rw [if_neg hkey, if_neg hkey]
      by_cases h : eq e.1 key = true
      · have : ¬ eq e.1 key' = true := by
          rw [he.congr h]
          exact hkey
        rw [if_pos h, if_neg this, if_neg this]
      · rw [if_neg h]

theorem get_erase (he : KeyEquivalence eq) (m : List (K × V)) (key key' : K) :
    get eq (erase eq key m) key' =
      if eq key key' then none else get eq m key' := by
  by_cases hkey : eq key key' = true
  · rw [if_pos hkey, get_eq_none_iff]
    intro e hmem
    have := (List.mem_filter.mp hmem).2
    rw [Bool.not_eq_true'] at this
    rw [he.comm, ← he.congr hkey, he.comm, this]
  · rw [if_neg hkey]
    induction m with
    | nil => rfl
    | cons e m ih =>
      by_cases h : eq e.1 key = true
      · have hskip : erase eq key (e :: m) = erase eq key m :=
          List.filter_cons_of_neg (by simp [h])
        have : ¬ eq e.1 key' = true := by
          rw [he.congr h]
          exact hkey
        rw [hskip, ih, get_cons, if_neg this]
      · have hkeep : erase eq key (e :: m) = e :: erase eq key m :=
          List.filter_cons_of_pos (by simp [h])
        rw [hkeep, get_cons, get_cons, ih]

theorem Distinct.append_new (hd : Distinct eq m) (v : V) (hnew : get eq m key = none) :
    Distinct eq (m ++ [(key, v)]) := by
  rw [Distinct, List.pairwise_append]
  refine ⟨hd, List.pairwise_singleton _ _, ?_⟩
  intro a ha b hb
  rw [List.mem_singleton.mp hb]
  exact (get_eq_none_iff m key).mp hnew a ha

theorem Distinct.modify (f : V → V) (key : K) {m : List (K × V)}
    (hd : Distinct eq m) : Distinct eq (modify eq f key m) := by
  have hfst : ∀ e : K × V,
      (if eq e.1 key then (e.1, f e.2) else e).1 = e.1 := by
    intro e
    split_ifs <;> rfl
  rw [Distinct, AssocList.modify, List.pairwise_map]
  refine hd.imp ?_
  intro a b h
  rw [hfst, hfst]
  exact h

theorem Distinct.erase (key : K) {m : List (K × V)} (hd : Distinct eq m) :
    Distinct eq (erase eq key m) :=
  List.Pairwise.filter _ hd

/-- With distinct keys, erasing a key removes the one entry that has it. -/
theorem erase_eq_eraseIdx (he : KeyEquivalence eq)
    (hd : Distinct eq m) {i : ℕ} (hi : i < m.length)
    (hkey : eq m[i].1 key = true) : erase eq key m = m.eraseIdx i := by
  induction m generalizing i with
  | nil => exact absurd hi (Nat.not_lt_zero i)
  | cons e m ih =>
    obtain ⟨hx, hm⟩ := (distinct_cons e m).mp hd
    cases i with
    | zero =>
      have hskip : AssocList.erase eq key (e :: m) =
          AssocList.erase eq key m :=
        List.filter_cons_of_neg (by simpa using hkey)
      have hnone : ∀ e' ∈ m, (!eq e'.1 key) = true := by
        intro e' hmem
        have hkey' : eq e.1 key = true := hkey
        rw [he.comm, ← he.congr hkey', hx e' hmem]
        rfl
      rw [hskip, List.eraseIdx_cons_zero]
      exact List.filter_eq_self.mpr hnone
    | succ i =>
      have hi' : i < m.length := by simpa using hi
      have hkey' : eq m[i].1 key = true := hkey
      have hne : ¬ eq e.1 key = true := by
        rw [he.comm, ← he.congr hkey', he.comm,
          hx _ (List.getElem_mem hi')]
        exact Bool.false_ne_true
      have hkeep : AssocList.erase eq key (e :: m) =
          e :: AssocList.erase eq key m :=
        List.filter_cons_of_pos (by simp [hne])
      rw [hkeep, ih hm hi' hkey', List.eraseIdx_cons_succ]

theorem isSome_get_iff (m : List (K × V)) (key : K) :
    (get eq m key).isSome = true ↔ ∃ e ∈ m, eq e.1 key = true := by
  unfold get
  rw [Option.isSome_map, List.find?_isSome]

/-- A key that is present has an entry for the erasure to remove. -/
theorem length_erase_lt (h : (get eq m key).isSome = true) :
    (erase eq key m).length < m.length := by
  obtain ⟨e, hmem, hkey⟩ := (isSome_get_iff m key).mp h
  refine List.length_filter_lt_length_iff_exists.mpr ⟨e, hmem, ?_⟩
  simp [hkey]

/-- Distinct keys that all occur in another list are no more than its
entries. -/
theorem Distinct.length_le (he : KeyEquivalence eq) {a b : List (K × V)}
    (hd : Distinct eq a) (hsub : ∀ e ∈ a, (get eq b e.1).isSome = true) :
    a.length ≤ b.length := by
  induction a generalizing b with
  | nil => exact Nat.zero_le _
  | cons x a ih =>
    obtain ⟨hx, ha⟩ := (distinct_cons x a).mp hd
    have hrest : a.length ≤ (AssocList.erase eq x.1 b).length := by
      refine ih ha fun e hmem => ?_
      rw [get_erase he, hx e hmem, if_neg Bool.false_ne_true]
      exact hsub e (List.mem_cons_of_mem _ hmem)
    have hlt := length_erase_lt (hsub x List.mem_cons_self)
    exact Nat.lt_of_le_of_lt hrest hlt

/-- One more key in the other list makes the bound strict. -/
theorem Distinct.length_lt (he : KeyEquivalence eq) {a b : List (K × V)}
    (hd : Distinct eq a) (hsub : ∀ e ∈ a, (get eq b e.1).isSome = true)
    (hb : (get eq b key).isSome = true) (ha : get eq a key = none) :
    a.length < b.length := by
  obtain ⟨v, hv⟩ := Option.isSome_iff_exists.mp hb
  have hd' : Distinct eq ((key, v) :: a) := by
    refine (distinct_cons _ a).mpr ⟨fun e hmem => ?_, hd⟩
    rw [he.comm]
    exact (get_eq_none_iff a key).mp ha e hmem
  refine hd'.length_le he fun e hmem => ?_
  rcases List.mem_cons.mp hmem with rfl | hmem
  · exact hb
  · exact hsub e hmem

end AssocList
end Beans
