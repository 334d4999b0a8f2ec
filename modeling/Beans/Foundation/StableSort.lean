import Mathlib

/-!
# Stable sorting

A stable sort of a list by a strict weak order is ascending and keeps, for every
element, the elements tied with it in their order.  There is only one such list,
so two sorting algorithms that are both stable agree.  Merging two stably sorted
runs gives a stably sorted run, and distributing a stably sorted list over the
next digit of its keys sorts it by one digit more.

**Results.**
* `unique`: there is one stable sort of a list.
* `sorts`: merging keeps stable sorts.
* `Sorts.distribute`: one digit more of a radix sort.
-/

namespace Beans
namespace StableSort

universe u

variable {α : Type u}

/-- A strict weak order, as a comparator decides it. -/
structure StrictWeak (lt : α → α → Bool) : Prop where
  irrefl : ∀ x, lt x x = false
  trans : ∀ x y z, lt x y = true → lt y z = true → lt x z = true
  cotrans : ∀ x y z, lt x z = true → lt x y = true ∨ lt y z = true

/-- Neither of two elements comes before the other. -/
def tied (lt : α → α → Bool) (x y : α) : Bool := !lt x y && !lt y x

/-- `ys` is the stable ascending sort of `xs`. -/
structure Sorts (lt : α → α → Bool) (xs ys : List α) : Prop where
  ascending : ys.Pairwise (fun x y => lt y x = false)
  ties : ∀ x, ys.filter (tied lt x) = xs.filter (tied lt x)

theorem tied_iff {lt : α → α → Bool} {x y : α} :
    tied lt x y = true ↔ lt x y = false ∧ lt y x = false := by
  rw [tied, Bool.and_eq_true, Bool.not_eq_true', Bool.not_eq_true']

namespace StrictWeak

variable {lt : α → α → Bool}

variable {x y z : α}

theorem asymm (h : StrictWeak lt) (hxy : lt x y = true) :
    lt y x = false := by
  rw [← Bool.not_eq_true]
  intro hyx
  have := h.trans x y x hxy hyx
  rw [h.irrefl] at this
  cases this

theorem tied_self (h : StrictWeak lt) (x : α) : tied lt x x = true :=
  tied_iff.mpr ⟨h.irrefl x, h.irrefl x⟩

/-- What lies below an element lies below everything not below it. -/
theorem lt_of_lt_of_not (h : StrictWeak lt) (hxy : lt x y = true)
    (hzy : lt z y = false) : lt x z = true := by
  rcases h.cotrans x z y hxy with hxz | hzy'
  · exact hxz
  · rw [hzy] at hzy'
    cases hzy'

/-- Two elements tied with one are not ordered by a third between them. -/
theorem not_tied_of_lt (h : StrictWeak lt) (hxy : lt x y = true)
    (hzx : tied lt z x = true) : tied lt z y = false := by
  rw [← Bool.not_eq_true]
  intro hzy
  rcases h.cotrans x z y hxy with hxz | hzy'
  · rw [(tied_iff.mp hzx).2] at hxz
    cases hxz
  · rw [(tied_iff.mp hzy).1] at hzy'
    cases hzy'

end StrictWeak

/-- Comparing by a key of a linear order. -/
def byKey {κ : Type*} [LinearOrder κ] (key : α → κ) (x y : α) : Bool :=
  key x < key y

theorem byKey_strictWeak {κ : Type*} [LinearOrder κ] (key : α → κ) :
    StrictWeak (byKey key) where
  irrefl x := by
    rw [byKey, decide_eq_false_iff_not]
    exact lt_irrefl _
  trans x y z hxy hyz := by
    simp only [byKey, decide_eq_true_iff] at *
    exact lt_trans hxy hyz
  cotrans x y z hxz := by
    simp only [byKey, decide_eq_true_iff] at *
    rcases lt_or_ge (key x) (key y) with h | h
    · exact Or.inl h
    · exact Or.inr (lt_of_le_of_lt h hxz)

theorem tied_byKey {κ : Type*} [LinearOrder κ] (key : α → κ) (x : α) :
    tied (byKey key) x = fun y => decide (key y = key x) := by
  funext y
  rw [Bool.eq_iff_iff, tied_iff, byKey, byKey, decide_eq_false_iff_not,
    decide_eq_false_iff_not, decide_eq_true_iff, not_lt, not_lt]
  exact ⟨fun h => le_antisymm h.1 h.2, fun h => ⟨h.le, h.ge⟩⟩

namespace Sorts

variable {lt : α → α → Bool} {xs ys zs : List α}

theorem short (h : xs.length ≤ 1) : Sorts lt xs xs := by
  refine ⟨?_, fun _ => rfl⟩
  cases xs with
  | nil => exact List.Pairwise.nil
  | cons x xs =>
    cases xs with
    | nil => exact List.pairwise_singleton _ x
    | cons y ys =>
      rw [List.length_cons, List.length_cons] at h
      omega

/-- A stable sort only rearranges. -/
theorem perm (hlt : StrictWeak lt) (h : Sorts lt xs ys) : ys.Perm xs := by
  classical
  rw [List.perm_iff_count]
  intro x
  have hself := hlt.tied_self x
  rw [← List.count_filter hself, h.ties x, List.count_filter hself]

/-- The element at the front of a stable sort is the first of its ties. -/
theorem head_tied (hlt : StrictWeak lt) {y z : α}
    (hz : (z :: zs).Pairwise (fun x y => lt y x = false))
    (hties : ∀ x, (y :: ys).filter (tied lt x) = (z :: zs).filter (tied lt x)) :
    lt y z = false := by
  rw [← Bool.not_eq_true]
  intro hyz
  have hmem : y ∈ (z :: zs).filter (tied lt y) := by
    rw [← hties, List.mem_filter]
    exact ⟨List.mem_cons_self, hlt.tied_self y⟩
  rcases List.mem_cons.mp (List.mem_filter.mp hmem).1 with rfl | htail
  · rw [hlt.irrefl] at hyz
    cases hyz
  · rw [(List.pairwise_cons.mp hz).1 y htail] at hyz
    cases hyz

/-- There is one stable sort of a list. -/
theorem unique (hlt : StrictWeak lt) (hy : Sorts lt xs ys) (hz : Sorts lt xs zs) :
    ys = zs := by
  have hties : ∀ x, ys.filter (tied lt x) = zs.filter (tied lt x) :=
    fun x => (hy.ties x).trans (hz.ties x).symm
  have hys := hy.ascending
  have hzs := hz.ascending
  clear hy hz
  induction ys generalizing zs with
  | nil =>
    cases zs with
    | nil => rfl
    | cons z zs =>
      have h := hties z
      rw [List.filter_nil, List.filter_cons_of_pos (hlt.tied_self z)] at h
      cases h
  | cons y ys ih =>
    cases zs with
    | nil =>
      have h := hties y
      rw [List.filter_nil, List.filter_cons_of_pos (hlt.tied_self y)] at h
      cases h
    | cons z zs =>
      have hyz := head_tied hlt hzs hties
      have hzy := head_tied hlt hys (fun x => (hties x).symm)
      have hfirst := hties y
      rw [List.filter_cons_of_pos (hlt.tied_self y),
        List.filter_cons_of_pos (tied_iff.mpr ⟨hyz, hzy⟩)] at hfirst
      obtain rfl := (List.cons.inj hfirst).1
      refine congrArg (y :: ·) (ih ?_ (List.pairwise_cons.mp hys).2
        (List.pairwise_cons.mp hzs).2)
      intro x
      have h := hties x
      rw [List.filter_cons, List.filter_cons] at h
      split_ifs at h with hx
      · exact (List.cons.inj h).2
      · exact h

/-- Two keys that order the elements of a list alike sort it alike. -/
theorem rekey {κ ι : Type*} [LinearOrder κ] [LinearOrder ι] {f : α → κ} {g : α → ι}
    (h : Sorts (byKey f) xs ys) (hfg : ∀ x ∈ xs, ∀ y ∈ xs, f x < f y ↔ g x < g y) :
    Sorts (byKey g) xs ys := by
  have hperm := h.perm (byKey_strictWeak f)
  have heq : ∀ x ∈ xs, ∀ y ∈ xs, f x = f y ↔ g x = g y := by
    intro x hx y hy
    have hxy := hfg x hx y hy
    have hyx := hfg y hy x hx
    rw [eq_iff_le_not_lt, eq_iff_le_not_lt, ← not_lt, ← not_lt, hxy, hyx]
  constructor
  · refine h.ascending.imp_of_mem ?_
    intro x y hx hy hxy
    rw [byKey, decide_eq_false_iff_not] at hxy ⊢
    rwa [← hfg y (hperm.mem_iff.mp hy) x (hperm.mem_iff.mp hx)]
  · intro t
    rw [tied_byKey]
    by_cases hmem : ∃ x ∈ xs, g x = g t
    · obtain ⟨x, hx, hxt⟩ := hmem
      have hsame : ∀ zs : List α, (∀ z ∈ zs, z ∈ xs) →
          zs.filter (fun z => decide (g z = g t)) = zs.filter (tied (byKey f) x) := by
        intro zs hzs
        rw [tied_byKey]
        refine List.filter_congr fun z hz => ?_
        rw [← hxt, decide_eq_decide]
        exact (heq z (hzs z hz) x hx).symm
      rw [hsame ys fun z hz => hperm.mem_iff.mp hz, hsame xs fun z hz => hz, h.ties]
    · have hnone : ∀ zs : List α, (∀ z ∈ zs, z ∈ xs) →
          zs.filter (fun z => decide (g z = g t)) = [] := by
        intro zs hzs
        rw [List.filter_eq_nil_iff]
        intro z hz
        rw [decide_eq_true_iff]
        exact fun hzt => hmem ⟨z, hzs z hz, hzt⟩
      rw [hnone ys fun z hz => hperm.mem_iff.mp hz, hnone xs fun z hz => hz]

end Sorts

/-- The ways a stable merge of two runs can go. -/
inductive Merged (lt : α → α → Bool) : List α → List α → List α → Prop
  | leftDone (ys : List α) : Merged lt [] ys ys
  | rightDone (xs : List α) : Merged lt xs [] xs
  | takeLeft {x y : α} {xs ys zs : List α} (h : lt y x = false)
      (rest : Merged lt xs (y :: ys) zs) :
      Merged lt (x :: xs) (y :: ys) (x :: zs)
  | takeRight {x y : α} {xs ys zs : List α} (h : lt y x = true)
      (rest : Merged lt (x :: xs) ys zs) :
      Merged lt (x :: xs) (y :: ys) (y :: zs)

namespace Merged

variable {lt : α → α → Bool} {xs ys zs : List α}

theorem mem (h : Merged lt xs ys zs) {z : α} (hz : z ∈ zs) : z ∈ xs ∨ z ∈ ys := by
  induction h with
  | leftDone ys => exact Or.inr hz
  | rightDone xs => exact Or.inl hz
  | takeLeft hyx rest ih =>
    rcases List.mem_cons.mp hz with rfl | hz
    · exact Or.inl List.mem_cons_self
    · rcases ih hz with h | h
      · exact Or.inl (List.mem_cons_of_mem _ h)
      · exact Or.inr h
  | takeRight hyx rest ih =>
    rcases List.mem_cons.mp hz with rfl | hz
    · exact Or.inr List.mem_cons_self
    · rcases ih hz with h | h
      · exact Or.inl h
      · exact Or.inr (List.mem_cons_of_mem _ h)

theorem ascending (hlt : StrictWeak lt) (h : Merged lt xs ys zs)
    (hx : xs.Pairwise (fun x y => lt y x = false))
    (hy : ys.Pairwise (fun x y => lt y x = false)) :
    zs.Pairwise (fun x y => lt y x = false) := by
  induction h with
  | leftDone ys => exact hy
  | rightDone xs => exact hx
  | @takeLeft x y xs ys zs hyx rest ih =>
    refine List.pairwise_cons.mpr ⟨fun z hz => ?_, ih hx.of_cons hy⟩
    rcases rest.mem hz with hmem | hmem
    · exact (List.pairwise_cons.mp hx).1 z hmem
    · rcases List.mem_cons.mp hmem with rfl | hmem
      · exact hyx
      · -- x does not lie above y, and y not above z
        rw [← Bool.not_eq_true]
        intro hzx
        have := hlt.lt_of_lt_of_not hzx hyx
        rw [(List.pairwise_cons.mp hy).1 z hmem] at this
        cases this
  | @takeRight x y xs ys zs hyx rest ih =>
    refine List.pairwise_cons.mpr ⟨fun z hz => ?_, ih hx hy.of_cons⟩
    rcases rest.mem hz with hmem | hmem
    · refine hlt.asymm ?_
      rcases List.mem_cons.mp hmem with rfl | hmem
      · exact hyx
      · exact hlt.lt_of_lt_of_not hyx ((List.pairwise_cons.mp hx).1 z hmem)
    · exact (List.pairwise_cons.mp hy).1 z hmem

/-- The elements of a merge that are tied with one come from the left first. -/
theorem ties (hlt : StrictWeak lt) (h : Merged lt xs ys zs)
    (hx : xs.Pairwise (fun x y => lt y x = false)) (t : α) :
    zs.filter (tied lt t) = xs.filter (tied lt t) ++ ys.filter (tied lt t) := by
  induction h with
  | leftDone ys => rw [List.filter_nil, List.nil_append]
  | rightDone xs => rw [List.filter_nil, List.append_nil]
  | @takeLeft x y xs ys zs hyx rest ih =>
    rw [List.filter_cons, List.filter_cons, ih hx.of_cons]
    split_ifs
    · rfl
    · rfl
  | @takeRight x y xs ys zs hyx rest ih =>
    rw [List.filter_cons, ih hx]
    by_cases hty : tied lt t y = true
    · have hnone : (x :: xs).filter (tied lt t) = [] := by
        rw [List.filter_eq_nil_iff]
        intro z hz
        have hyz : lt y z = true := by
          rcases List.mem_cons.mp hz with rfl | hz
          · exact hyx
          · exact hlt.lt_of_lt_of_not hyx ((List.pairwise_cons.mp hx).1 z hz)
        rw [hlt.not_tied_of_lt hyz hty]
        exact Bool.false_ne_true
      rw [hnone, if_pos hty, List.nil_append, List.nil_append,
        List.filter_cons_of_pos hty]
    · rw [if_neg hty, List.filter_cons_of_neg hty]

/-- Two stably sorted runs merge to a stably sorted run. -/
theorem sorts (hlt : StrictWeak lt) {left right : List α} (hx : Sorts lt left xs)
    (hy : Sorts lt right ys) (h : Merged lt xs ys zs) :
    Sorts lt (left ++ right) zs := by
  refine ⟨h.ascending hlt hx.ascending hy.ascending, fun t => ?_⟩
  rw [h.ties hlt hx.ascending, hx.ties, hy.ties, List.filter_append]

end Merged

/-- The elements of every digit in turn, each digit's in their order. -/
def distribute (base : ℕ) (digit : α → ℕ) (xs : List α) : List α :=
  (List.range base).flatMap fun w => xs.filter (digit · = w)

variable {base : ℕ} {digit : α → ℕ}

theorem filter_distribute (hdigit : ∀ x, digit x < base) (xs : List α) (w : ℕ) :
    (distribute base digit xs).filter (digit · = w) = xs.filter (digit · = w) := by
  unfold distribute
  rw [List.filter_flatMap]
  have hone : ∀ v, (xs.filter (digit · = v)).filter (digit · = w) =
      if v = w then xs.filter (digit · = w) else [] := by
    intro v
    rw [List.filter_filter]
    by_cases hv : v = w
    · subst hv
      rw [if_pos rfl]
      exact List.filter_congr fun x _ => Bool.and_self _
    · rw [if_neg hv, List.filter_eq_nil_iff]
      intro x _
      rw [Bool.and_eq_true, decide_eq_true_iff, decide_eq_true_iff]
      exact fun h => hv (h.2.symm.trans h.1)
  simp only [hone]
  by_cases hw : w < base
  · obtain ⟨rest, hrest⟩ : ∃ rest, base = w + 1 + rest := ⟨base - w - 1, by omega⟩
    rw [hrest, List.range_add, List.range_succ, List.flatMap_append,
      List.flatMap_append, List.flatMap_singleton, if_pos rfl]
    have hlow : (List.range w).flatMap
        (fun v => if v = w then xs.filter (digit · = w) else []) = [] := by
      rw [List.flatMap_eq_nil_iff]
      intro v hv
      rw [List.mem_range] at hv
      exact if_neg (by omega)
    have hhigh : ((List.range rest).map (w + 1 + ·)).flatMap
        (fun v => if v = w then xs.filter (digit · = w) else []) = [] := by
      rw [List.flatMap_eq_nil_iff]
      intro v hv
      obtain ⟨u, -, rfl⟩ := List.mem_map.mp hv
      exact if_neg (by omega)
    rw [hlow, hhigh, List.nil_append, List.append_nil]
  · have hnone : xs.filter (digit · = w) = [] := by
      rw [List.filter_eq_nil_iff]
      intro x _
      rw [decide_eq_true_iff]
      have := hdigit x
      omega
    rw [hnone]
    simp

theorem pairwise_distribute {R : α → α → Prop} {xs : List α}
    (hsame : ∀ w, (xs.filter (digit · = w)).Pairwise R)
    (hlt : ∀ x y, digit x < digit y → R x y) :
    (distribute base digit xs).Pairwise R := by
  unfold distribute
  rw [List.pairwise_flatMap]
  refine ⟨fun w _ => hsame w, ?_⟩
  refine List.pairwise_lt_range.imp ?_
  intro v w hvw x hx y hy
  rw [List.mem_filter, decide_eq_true_iff] at hx hy
  exact hlt x y (by omega)

/--
One more digit: a list stably sorted by the remainder of a key at `unit` and
then distributed over the next digit is stably sorted by one digit more.
-/
theorem Sorts.distribute {base unit : ℕ} {key : α → ℕ} {xs ys : List α} (hunit : 0 < unit)
    (hbase : 0 < base) (h : Sorts (byKey fun x => key x % unit) xs ys) :
    Sorts (byKey fun x => key x % (unit * base)) xs
      (distribute base (fun x => key x / unit % base) ys) := by
  have hdigit : ∀ x, key x / unit % base < base := fun x => Nat.mod_lt _ hbase
  have hsplit : ∀ x, key x % (unit * base) =
      key x % unit + unit * (key x / unit % base) := fun x => Nat.mod_mul
  have hrem : ∀ x, key x % unit < unit := fun x => Nat.mod_lt _ hunit
  constructor
  · refine pairwise_distribute (fun w => ?_) ?_
    · refine (h.ascending.filter _).imp_of_mem ?_
      intro x y hx hy hxy
      rw [List.mem_filter, decide_eq_true_iff] at hx hy
      rw [byKey, decide_eq_false_iff_not, not_lt] at hxy ⊢
      rw [hsplit, hsplit, hx.2, hy.2]
      omega
    · intro x y hxy
      rw [byKey, decide_eq_false_iff_not, not_lt, hsplit, hsplit]
      calc key x % unit + unit * (key x / unit % base)
          ≤ unit + unit * (key x / unit % base) := by
            have := hrem x
            omega
        _ = unit * (key x / unit % base + 1) := by ring
        _ ≤ unit * (key y / unit % base) := Nat.mul_le_mul_left _ hxy
        _ ≤ key y % unit + unit * (key y / unit % base) := Nat.le_add_left _ _
  · intro t
    have hlow := h.ties t
    simp only [tied_byKey] at hlow ⊢
    -- the elements with the key of `t` have its digit and its remainder
    have hboth : ∀ zs : List α,
        zs.filter (fun x => decide (key x % (unit * base) = key t % (unit * base))) =
          (zs.filter (fun x => decide (key x / unit % base = key t / unit % base))).filter
            (fun x => decide (key x % (unit * base) = key t % (unit * base))) := by
      intro zs
      rw [List.filter_filter]
      refine List.filter_congr fun x _ => ?_
      rw [Bool.eq_iff_iff, Bool.and_eq_true, decide_eq_true_iff, decide_eq_true_iff]
      refine ⟨fun hx => ⟨hx, ?_⟩, fun hx => hx.1⟩
      have := congrArg (· / unit) hx
      simp only [Nat.mod_mul_right_div_self] at this
      exact this
    have hrest : ∀ zs : List α,
        zs.filter (fun x => decide (key x % (unit * base) = key t % (unit * base))) =
          (zs.filter (fun x => decide (key x % unit = key t % unit))).filter
            (fun x => decide (key x % (unit * base) = key t % (unit * base))) := by
      intro zs
      rw [List.filter_filter]
      refine List.filter_congr fun x _ => ?_
      rw [Bool.eq_iff_iff, Bool.and_eq_true, decide_eq_true_iff, decide_eq_true_iff]
      refine ⟨fun hx => ⟨hx, ?_⟩, fun hx => hx.1⟩
      have := congrArg (· % unit) hx
      simp only [Nat.mod_mul_right_mod] at this
      exact this
    rw [hboth, filter_distribute hdigit, ← hboth, hrest, hlow, ← hrest]

end StableSort
end Beans
