import Mathlib

/-!
# Ascending lists of entries

A finite map over ordered keys kept as the list of its entries in strictly
ascending key order.  Updates and queries are stated on the list alone, and a
list split at one of its entries says on which side of the entry an update or
a query acts: that is what a search tree uses at every node.
-/

namespace Beans
namespace OrderedEntries

universe u v

variable {K : Type u} {V : Type v} [LinearOrder K]

/-- Strictly ascending keys. -/
def Ascending (l : List (K × V)) : Prop :=
  l.Pairwise fun a b => a.1 < b.1

/-- All keys below, and all keys above, a bound. -/
def Below (l : List (K × V)) (key : K) : Prop := ∀ e ∈ l, e.1 < key

def Above (l : List (K × V)) (key : K) : Prop := ∀ e ∈ l, key < e.1

theorem ascending_append_cons {l r : List (K × V)} {k : K} {w : V} :
    Ascending (l ++ (k, w) :: r) ↔
      Ascending l ∧ Ascending r ∧ Below l k ∧ Above r k := by
  unfold Ascending Below Above
  rw [List.pairwise_append, List.pairwise_cons]
  constructor
  · rintro ⟨hl, ⟨hk, hr⟩, hcross⟩
    exact ⟨hl, hr, fun e he => hcross e he _ List.mem_cons_self, hk⟩
  · rintro ⟨hl, hr, hbelow, habove⟩
    refine ⟨hl, ⟨habove, hr⟩, ?_⟩
    intro e he e' he'
    rcases List.mem_cons.mp he' with rfl | he'
    · exact hbelow e he
    · exact (hbelow e he).trans (habove e' he')

theorem Ascending.keys {l : List (K × V)} (h : Ascending l) :
    (l.map Prod.fst).Pairwise (· < ·) :=
  List.pairwise_map.mpr h

/-- The entry under `key` is added, or its value replaced when `replace`. -/
def put (key : K) (value : V) (replace : Bool) : List (K × V) → List (K × V)
  | [] => [(key, value)]
  | e :: l =>
    if key < e.1 then (key, value) :: e :: l
    else if e.1 < key then e :: put key value replace l
    else (e.1, if replace then value else e.2) :: l

/-- The entry under `key` is dropped. -/
def drop (key : K) (l : List (K × V)) : List (K × V) :=
  l.filter fun e => e.1 ≠ key

section

variable {key k : K} {value w : V} {replace : Bool} {l r : List (K × V)}

theorem put_nil : put key value replace [] = [(key, value)] :=
  rfl

theorem put_cons {e : K × V} :
    put key value replace (e :: l) =
      if key < e.1 then (key, value) :: e :: l
      else if e.1 < key then e :: put key value replace l
      else (e.1, if replace then value else e.2) :: l :=
  rfl

/-- A smaller key goes to the left of an entry. -/
theorem put_left (hlt : key < k) :
    put key value replace (l ++ (k, w) :: r) =
      put key value replace l ++ (k, w) :: r := by
  induction l with
  | nil => simp [put_nil, put_cons, hlt]
  | cons e l ih =>
    by_cases h₁ : key < e.1
    · simp [put_cons, h₁]
    · by_cases h₂ : e.1 < key
      · simp [put_cons, h₁, h₂, ih]
      · simp [put_cons, h₁, h₂]

/-- A larger key goes to the right of an entry. -/
theorem put_right (hbelow : Below l k) (hlt : k < key) :
    put key value replace (l ++ (k, w) :: r) =
      l ++ (k, w) :: put key value replace r := by
  induction l with
  | nil => simp [put_cons, hlt, hlt.not_gt]
  | cons e l ih =>
    have hrest : Below l k := fun e' he' =>
      hbelow e' (List.mem_cons_of_mem e he')
    have he : e.1 < key := (hbelow e List.mem_cons_self).trans hlt
    simp [put_cons, he, he.not_gt, ih hrest]

/-- The key itself is found at its entry. -/
theorem put_here (hbelow : Below l k) :
    put k value replace (l ++ (k, w) :: r) =
      l ++ (k, if replace then value else w) :: r := by
  induction l with
  | nil => simp [put_cons]
  | cons e l ih =>
    have hrest : Below l k := fun e' he' =>
      hbelow e' (List.mem_cons_of_mem e he')
    have he : e.1 < k := hbelow e List.mem_cons_self
    simp [put_cons, he, he.not_gt, ih hrest]

theorem mem_put {e : K × V} (he : e ∈ put key value replace l) :
    e.1 = key ∨ e ∈ l := by
  induction l with
  | nil => simp_all [put_nil]
  | cons x l ih =>
    simp only [put_cons] at he
    split at he
    · rcases List.mem_cons.mp he with rfl | he
      · exact Or.inl rfl
      · exact Or.inr he
    · split at he
      · rcases List.mem_cons.mp he with rfl | he
        · exact Or.inr List.mem_cons_self
        · exact (ih he).imp_right (List.mem_cons_of_mem x)
      · rcases List.mem_cons.mp he with rfl | he
        · exact Or.inl (le_antisymm (not_lt.mp ‹_›) (not_lt.mp ‹_›))
        · exact Or.inr (List.mem_cons_of_mem x he)

theorem Ascending.put (h : Ascending l) :
    Ascending (put key value replace l) := by
  induction l with
  | nil => exact List.pairwise_singleton _ _
  | cons e l ih =>
    obtain ⟨habove, hl⟩ := List.pairwise_cons.mp h
    simp only [put_cons]
    split
    · rename_i hlt
      refine List.pairwise_cons.mpr ⟨?_, h⟩
      intro e' he'
      rcases List.mem_cons.mp he' with rfl | he'
      · exact hlt
      · exact hlt.trans (habove e' he')
    · split
      · rename_i hlt
        refine List.pairwise_cons.mpr ⟨?_, ih hl⟩
        intro e' he'
        rcases mem_put he' with heq | he'
        · rw [heq]
          exact hlt
        · exact habove e' he'
      · exact List.pairwise_cons.mpr ⟨habove, hl⟩

theorem lookup_cons_eq {e : K × V} :
    (e :: l).lookup key = if e.1 = key then some e.2 else l.lookup key := by
  rw [List.lookup_cons]
  by_cases h : e.1 = key
  · simp [h]
  · have hne : (key == e.1) = false :=
      beq_eq_false_iff_ne.mpr fun heq => h heq.symm
    rw [hne, if_neg h]

theorem lookup_of_above (habove : Above l key) : l.lookup key = none := by
  rw [List.lookup_eq_none_iff]
  intro e he
  exact bne_iff_ne.mpr (habove e he).ne

/-- Looking a key up after an update. -/
theorem lookup_put (h : Ascending l) :
    (put key value replace l).lookup k =
      if k = key then
        some (if replace then value else (l.lookup key).getD value)
      else l.lookup k := by
  induction l with
  | nil =>
    by_cases hk : k = key
    · simp [put_nil, hk]
    · have hk' : ¬ key = k := fun heq => hk heq.symm
      simp [put_nil, lookup_cons_eq, hk, hk']
  | cons e l ih =>
    obtain ⟨habove, hl⟩ := List.pairwise_cons.mp h
    simp only [put_cons]
    split
    · rename_i hlt
      have hnone : (e :: l).lookup key = none := by
        refine lookup_of_above ?_
        intro e' he'
        rcases List.mem_cons.mp he' with rfl | he'
        · exact hlt
        · exact hlt.trans (habove e' he')
      rw [hnone, lookup_cons_eq]
      by_cases hk : k = key
      · simp [hk]
      · have hk' : ¬ key = k := fun heq => hk heq.symm
        simp [hk, hk']
    · split
      · rename_i hlt
        rw [lookup_cons_eq, ih hl, lookup_cons_eq, lookup_cons_eq]
        by_cases hk : k = key
        · simp [hk, hlt.ne]
        · simp [hk]
      · have heq : e.1 = key := le_antisymm (not_lt.mp ‹_›) (not_lt.mp ‹_›)
        rw [lookup_cons_eq, lookup_cons_eq, lookup_cons_eq]
        by_cases hk : k = key
        · simp [hk, heq]
        · have hk' : ¬ key = k := fun h => hk h.symm
          simp [hk, heq, hk']

theorem drop_of_ne (h : ∀ e ∈ l, e.1 ≠ key) : drop key l = l := by
  refine List.filter_eq_self.mpr ?_
  intro e he
  exact decide_eq_true (h e he)

theorem drop_append : drop key (l ++ r) = drop key l ++ drop key r :=
  List.filter_append l r

/-- A smaller key is dropped on the left of an entry. -/
theorem drop_left (habove : Above r k) (hlt : key < k) :
    drop key (l ++ (k, w) :: r) = drop key l ++ (k, w) :: r := by
  rw [drop_append]
  congr 1
  refine drop_of_ne ?_
  intro e he
  rcases List.mem_cons.mp he with rfl | he
  · exact hlt.ne'
  · exact (hlt.trans (habove e he)).ne'

/-- A larger key is dropped on the right of an entry. -/
theorem drop_right (hbelow : Below l k) (hlt : k < key) :
    drop key (l ++ (k, w) :: r) = l ++ (k, w) :: drop key r := by
  have hleft : drop key l = l := drop_of_ne fun e he =>
    ((hbelow e he).trans hlt).ne
  have hright : drop key ((k, w) :: r) = (k, w) :: drop key r :=
    List.filter_cons_of_pos (decide_eq_true hlt.ne)
  rw [drop_append, hleft, hright]

/-- The key itself is dropped at its entry. -/
theorem drop_here (hbelow : Below l k) (habove : Above r k) :
    drop k (l ++ (k, w) :: r) = l ++ r := by
  have hleft : drop k l = l := drop_of_ne fun e he => (hbelow e he).ne
  have hright : drop k r = r := drop_of_ne fun e he => (habove e he).ne'
  rw [drop_append, hleft]
  congr 1
  refine Eq.trans ?_ hright
  exact List.filter_cons_of_neg (by simp)

theorem Ascending.drop (h : Ascending l) : Ascending (drop key l) :=
  List.Pairwise.filter _ h

theorem lookup_drop :
    (drop key l).lookup k = if k = key then none else l.lookup k := by
  induction l with
  | nil => simp [drop]
  | cons e l ih =>
    by_cases he : e.1 = key
    · have hdrop : drop key (e :: l) = drop key l :=
        List.filter_cons_of_neg (by simp [he])
      rw [hdrop, ih, lookup_cons_eq]
      by_cases hk : k = key
      · simp [hk]
      · have hk' : ¬ key = k := fun h => hk h.symm
        simp [hk, he, hk']
    · have hdrop : drop key (e :: l) = e :: drop key l :=
        List.filter_cons_of_pos (decide_eq_true he)
      rw [hdrop, lookup_cons_eq, ih, lookup_cons_eq]
      by_cases hk : k = key
      · simp [hk, he]
      · simp [hk]

theorem lookup_left (habove : Above r k) (hlt : key < k) :
    (l ++ (k, w) :: r).lookup key = l.lookup key := by
  have hnone : ((k, w) :: r).lookup key = none := by
    refine lookup_of_above ?_
    intro e he
    rcases List.mem_cons.mp he with rfl | he
    · exact hlt
    · exact hlt.trans (habove e he)
  rw [List.lookup_append, hnone, Option.or_none]

theorem lookup_of_below (hbelow : Below l k) (hle : k ≤ key) :
    l.lookup key = none := by
  rw [List.lookup_eq_none_iff]
  intro e he
  exact bne_iff_ne.mpr ((hbelow e he).trans_le hle).ne'

theorem lookup_right (hbelow : Below l k) (hlt : k < key) :
    (l ++ (k, w) :: r).lookup key = r.lookup key := by
  rw [List.lookup_append, lookup_of_below hbelow hlt.le, Option.none_or,
    lookup_cons_eq, if_neg hlt.ne]

theorem lookup_here (hbelow : Below l k) :
    (l ++ (k, w) :: r).lookup k = some w := by
  rw [List.lookup_append, lookup_of_below hbelow le_rfl, Option.none_or,
    List.lookup_cons_self]

theorem lookup_of_mem (h : Ascending l) {e : K × V} (he : e ∈ l) :
    l.lookup e.1 = some e.2 := by
  obtain ⟨s, t, rfl⟩ := List.append_of_mem he
  obtain ⟨-, -, hbelow, -⟩ := ascending_append_cons.mp h
  exact lookup_here hbelow

theorem lookup_isSome_iff :
    (l.lookup key).isSome = true ↔ key ∈ l.map Prod.fst := by
  rw [List.lookup_isSome_iff, List.mem_map]
  constructor
  · rintro ⟨e, he, hkey⟩
    exact ⟨e, he, (beq_iff_eq.mp hkey).symm⟩
  · rintro ⟨e, he, hkey⟩
    exact ⟨e, he, beq_iff_eq.mpr hkey.symm⟩

end

end OrderedEntries
end Beans
