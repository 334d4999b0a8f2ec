import Beans.Collections.SortedMap
import Beans.Foundation.OrderedEntries

/-!
# The shape of the sorted map

Rotations keep the entries of a subtree in order, and `rebalance` repairs one
node whose sides differ by at most two.  Its height is then the larger side's
or one more, which is what an insertion or a removal one level up relies on.
-/

namespace Beans
namespace Collections

universe u v

variable {K : Type u} {V : Type v}

/-- The entries of a subtree from left to right. -/
def entries : Child K V → List (K × V)
  | .none => []
  | .some key value left right _ _ =>
    entries left ++ (key, value) :: entries right

/-- Cached heights and sizes are right, and no node leans by more than one. -/
def Balanced : Child K V → Prop
  | .none => True
  | .some _ _ left right height size =>
    height = 1 + max (heightOf left) (heightOf right) ∧
      size = 1 + sizeOf left + sizeOf right ∧
      heightOf left ≤ heightOf right + 1 ∧
      heightOf right ≤ heightOf left + 1 ∧
      Balanced left ∧ Balanced right

@[simp] theorem heightOf_none : heightOf (.none : Child K V) = 0 := rfl

@[simp] theorem heightOf_some (key : K) (value : V) (left right : Child K V)
    (height size : ℤ) :
    heightOf (.some key value left right height size) = height := rfl

@[simp] theorem collectKeys_eq (t : Child K V) :
    collectKeys t = (entries t).map Prod.fst := by
  induction t with
  | none => rfl
  | some key value left right height size ihl ihr =>
    simp [collectKeys, entries, ihl, ihr]

@[simp] theorem collectValues_eq (t : Child K V) :
    collectValues t = (entries t).map Prod.snd := by
  induction t with
  | none => rfl
  | some key value left right height size ihl ihr =>
    simp [collectValues, entries, ihl, ihr]

theorem heightOf_nonneg {t : Child K V} (h : Balanced t) : 0 ≤ heightOf t := by
  induction t with
  | none => exact le_rfl
  | some key value left right height size ihl ihr =>
    obtain ⟨hh, -, -, -, hl, hr⟩ := h
    have h₁ := ihl hl
    have h₂ := ihr hr
    simp only [heightOf]
    omega

/-- Only the empty subtree has height 0. -/
theorem heightOf_eq_zero_iff {t : Child K V} (h : Balanced t) :
    heightOf t = 0 ↔ t = .none := by
  cases t with
  | none => simp [heightOf]
  | some key value left right height size =>
    obtain ⟨hh, -, -, -, hl, hr⟩ := h
    have h₁ := heightOf_nonneg hl
    have h₂ := heightOf_nonneg hr
    simp only [heightOf, reduceCtorEq, iff_false]
    omega

theorem sizeOf_eq {t : Child K V} (h : Balanced t) :
    sizeOf t = (entries t).length := by
  induction t with
  | none => rfl
  | some key value left right height size ihl ihr =>
    obtain ⟨-, hs, -, -, hl, hr⟩ := h
    simp only [sizeOf, entries, List.length_append, List.length_cons]
    rw [hs, ihl hl, ihr hr]
    push_cast
    ring

/-- A node over two subtrees with the height and size they give it. -/
def join (key : K) (value : V) (left right : Child K V) : SortedNode K V :=
  refresh ⟨key, value, left, right, 1, 1⟩

/-- A refresh forgets the cached height and size. -/
theorem refresh_eq_join (key : K) (value : V) (left right : Child K V)
    (height size : ℤ) :
    refresh ⟨key, value, left, right, height, size⟩ =
      join key value left right := rfl

@[simp] theorem join_height (key : K) (value : V) (left right : Child K V) :
    (join key value left right).height =
      1 + max (heightOf left) (heightOf right) := by
  simp only [join, refresh]
  split <;> omega

@[simp] theorem join_key (key : K) (value : V) (left right : Child K V) :
    (join key value left right).key = key := rfl

@[simp] theorem join_value (key : K) (value : V) (left right : Child K V) :
    (join key value left right).value = value := rfl

@[simp] theorem join_left (key : K) (value : V) (left right : Child K V) :
    (join key value left right).left = left := rfl

@[simp] theorem join_right (key : K) (value : V) (left right : Child K V) :
    (join key value left right).right = right := rfl

@[simp] theorem balanceOf_mk (key : K) (value : V) (left right : Child K V)
    (height size : ℤ) :
    balanceOf ⟨key, value, left, right, height, size⟩ =
      heightOf left - heightOf right := rfl

@[simp] theorem balanceOf_join (key : K) (value : V)
    (left right : Child K V) :
    balanceOf (join key value left right) = heightOf left - heightOf right :=
  rfl

@[simp] theorem expect_some (message : String) (site : Site) (key : K)
    (value : V) (left right : Child K V) (height size : ℤ) :
    expect message site (.some key value left right height size) =
      .ok ⟨key, value, left, right, height, size⟩ := rfl

@[simp] theorem heightOf_child (n : SortedNode K V) :
    heightOf n.child = n.height := rfl

@[simp] theorem entries_child (n : SortedNode K V) :
    entries n.child = entries n.left ++ (n.key, n.value) :: entries n.right :=
  rfl

/-- A joined node that does not lean is balanced. -/
theorem balanced_join (key : K) (value : V) {left right : Child K V}
    (hl : Balanced left) (hr : Balanced right)
    (h₁ : heightOf left ≤ heightOf right + 1)
    (h₂ : heightOf right ≤ heightOf left + 1) :
    Balanced (join key value left right).child :=
  ⟨join_height key value left right, rfl, h₁, h₂, hl, hr⟩

theorem rotateRight_some (key : K) (value : V) (right : Child K V)
    (height size : ℤ) (kl : K) (vl : V) (ll lr : Child K V) (hl sl : ℤ) :
    rotateRight ⟨key, value, .some kl vl ll lr hl sl, right, height, size⟩ =
      .ok (join kl vl ll (join key value lr right).child) := rfl

theorem rotateLeft_some (key : K) (value : V) (left : Child K V)
    (height size : ℤ) (kr : K) (vr : V) (rl rr : Child K V) (hr sr : ℤ) :
    rotateLeft ⟨key, value, left, .some kr vr rl rr hr sr, height, size⟩ =
      .ok (join kr vr (join key value left rl).child rr) := rfl

/-- What `rebalance` makes of a node over two subtrees: a balanced one with
its entries, as high as the higher side or one more. -/
structure Rebalanced (key : K) (value : V) (left right : Child K V)
    (n : SortedNode K V) : Prop where
  balanced : Balanced n.child
  entries_eq : entries n.child = entries left ++ (key, value) :: entries right
  le_height : max (heightOf left) (heightOf right) ≤ n.height
  height_le : n.height ≤ max (heightOf left) (heightOf right) + 1
  height_eq : heightOf left ≤ heightOf right + 1 →
    heightOf right ≤ heightOf left + 1 →
    n.height = max (heightOf left) (heightOf right) + 1

section

variable {key : K} {value : V} {left right : Child K V} {height size : ℤ}

/-- A left side higher by two is straightened and rotated. -/
theorem rebalance_left (hl : Balanced left) (hr : Balanced right)
    (hlean : heightOf left = heightOf right + 2) :
    ∃ n, rebalance ⟨key, value, left, right, height, size⟩ = .ok n ∧
      Rebalanced key value left right n := by
  have hright := heightOf_nonneg hr
  have hbalance : heightOf left - heightOf right > 1 := by omega
  cases left with
  | none =>
    simp only [heightOf_none] at hlean
    omega
  | some kl vl ll lr hL sL =>
    obtain ⟨hhl, -, h₁, h₂, hll, hlr⟩ := hl
    simp only [heightOf_some] at hlean
    have hll₀ := heightOf_nonneg hll
    by_cases hzig : heightOf ll - heightOf lr < 0
    · cases lr with
      | none =>
        simp only [heightOf_none] at hzig
        omega
      | some km vm ml mr hM sM =>
        obtain ⟨hhm, -, hm₁, hm₂, hml, hmr⟩ := hlr
        have hrun : rebalance ⟨key, value,
            .some kl vl ll (.some km vm ml mr hM sM) hL sL, right, height,
              size⟩ =
            .ok (join km vm (join kl vl ll ml).child
              (join key value mr right).child) := by
          simp only [rebalance, refresh_eq_join, balanceOf_join, hbalance,
            if_true, join_left, expect_some, ok_bind, balanceOf_mk, hzig,
            rotateLeft_some]
          rfl
        simp only [heightOf_some] at hzig h₁ h₂ hhl
        have hL' : heightOf (join kl vl ll ml).child =
            1 + max (heightOf ll) (heightOf ml) := join_height _ _ _ _
        have hR' : heightOf (join key value mr right).child =
            1 + max (heightOf mr) (heightOf right) := join_height _ _ _ _
        have hn := join_height km vm (join kl vl ll ml).child
          (join key value mr right).child
        refine ⟨_, hrun, ?_, ?_, ?_, ?_, ?_⟩
        · exact balanced_join _ _
            (balanced_join _ _ hll hml (by omega) (by omega))
            (balanced_join _ _ hmr hr (by omega) (by omega)) (by omega)
            (by omega)
        · simp [entries]
        · rw [hn, heightOf_some]
          omega
        · rw [hn, heightOf_some]
          omega
        · rw [hn, heightOf_some]
          omega
    · have hrun : rebalance ⟨key, value, .some kl vl ll lr hL sL, right,
          height, size⟩ =
          .ok (join kl vl ll (join key value lr right).child) := by
        simp only [rebalance, refresh_eq_join, balanceOf_join, hbalance,
          if_true, join_left, expect_some, ok_bind, balanceOf_mk, hzig,
          if_false]
        rfl
      have hR' : heightOf (join key value lr right).child =
          1 + max (heightOf lr) (heightOf right) := join_height _ _ _ _
      have hn := join_height kl vl ll (join key value lr right).child
      refine ⟨_, hrun, ?_, ?_, ?_, ?_, ?_⟩
      · exact balanced_join _ _ hll
          (balanced_join _ _ hlr hr (by omega) (by omega)) (by omega)
          (by omega)
      · simp [entries]
      · rw [hn, heightOf_some]
        omega
      · rw [hn, heightOf_some]
        omega
      · rw [hn, heightOf_some]
        omega

/-- The mirror image. -/
theorem rebalance_right (hl : Balanced left) (hr : Balanced right)
    (hlean : heightOf right = heightOf left + 2) :
    ∃ n, rebalance ⟨key, value, left, right, height, size⟩ = .ok n ∧
      Rebalanced key value left right n := by
  have hleft := heightOf_nonneg hl
  have hleft' : ¬ heightOf left - heightOf right > 1 := by omega
  have hbalance : heightOf left - heightOf right < -1 := by omega
  cases right with
  | none =>
    simp only [heightOf_none] at hlean
    omega
  | some kr vr rl rr hR sR =>
    obtain ⟨hhr, -, h₁, h₂, hrl, hrr⟩ := hr
    simp only [heightOf_some] at hlean
    have hrr₀ := heightOf_nonneg hrr
    by_cases hzig : heightOf rl - heightOf rr > 0
    · cases rl with
      | none =>
        simp only [heightOf_none] at hzig
        omega
      | some km vm ml mr hM sM =>
        obtain ⟨hhm, -, hm₁, hm₂, hml, hmr⟩ := hrl
        have hrun : rebalance ⟨key, value, left,
            .some kr vr (.some km vm ml mr hM sM) rr hR sR, height, size⟩ =
            .ok (join km vm (join key value left ml).child
              (join kr vr mr rr).child) := by
          simp only [rebalance, refresh_eq_join, balanceOf_join, hleft',
            if_false, hbalance, if_true, join_right, expect_some, ok_bind,
            balanceOf_mk, hzig, rotateRight_some]
          rfl
        simp only [heightOf_some] at hzig h₁ h₂ hhr
        have hL' : heightOf (join key value left ml).child =
            1 + max (heightOf left) (heightOf ml) := join_height _ _ _ _
        have hR' : heightOf (join kr vr mr rr).child =
            1 + max (heightOf mr) (heightOf rr) := join_height _ _ _ _
        have hn := join_height km vm (join key value left ml).child
          (join kr vr mr rr).child
        refine ⟨_, hrun, ?_, ?_, ?_, ?_, ?_⟩
        · exact balanced_join _ _
            (balanced_join _ _ hl hml (by omega) (by omega))
            (balanced_join _ _ hmr hrr (by omega) (by omega)) (by omega)
            (by omega)
        · simp [entries]
        · rw [hn, heightOf_some]
          omega
        · rw [hn, heightOf_some]
          omega
        · rw [hn, heightOf_some]
          omega
    · have hrun : rebalance ⟨key, value, left, .some kr vr rl rr hR sR,
          height, size⟩ =
          .ok (join kr vr (join key value left rl).child rr) := by
        simp only [rebalance, refresh_eq_join, balanceOf_join, hleft',
          if_false, hbalance, if_true, join_right, expect_some, ok_bind,
          balanceOf_mk, hzig]
        rfl
      have hL' : heightOf (join key value left rl).child =
          1 + max (heightOf left) (heightOf rl) := join_height _ _ _ _
      have hn := join_height kr vr (join key value left rl).child rr
      refine ⟨_, hrun, ?_, ?_, ?_, ?_, ?_⟩
      · exact balanced_join _ _
          (balanced_join _ _ hl hrl (by omega) (by omega)) hrr (by omega)
          (by omega)
      · simp [entries]
      · rw [hn, heightOf_some]
        omega
      · rw [hn, heightOf_some]
        omega
      · rw [hn, heightOf_some]
        omega

end

/-- Two balanced sides that differ by at most two are put together. -/
theorem rebalance_spec (key : K) (value : V) {left right : Child K V}
    (height size : ℤ) (hl : Balanced left) (hr : Balanced right)
    (h₁ : heightOf left ≤ heightOf right + 2)
    (h₂ : heightOf right ≤ heightOf left + 2) :
    ∃ n, rebalance ⟨key, value, left, right, height, size⟩ = .ok n ∧
      Rebalanced key value left right n := by
  by_cases hleft : heightOf left = heightOf right + 2
  · exact rebalance_left hl hr hleft
  by_cases hright : heightOf right = heightOf left + 2
  · exact rebalance_right hl hr hright
  have hrun : rebalance ⟨key, value, left, right, height, size⟩ =
      .ok (join key value left right) := by
    have hleft' : ¬ heightOf left - heightOf right > 1 := by omega
    have hright' : ¬ heightOf left - heightOf right < -1 := by omega
    simp only [rebalance, refresh_eq_join, balanceOf_join, hleft', hright',
      if_false]
    rfl
  have hn := join_height key value left right
  exact ⟨_, hrun, balanced_join _ _ hl hr (by omega) (by omega), by simp,
    by omega, by omega, by omega⟩

open OrderedEntries

variable [LinearOrder K]

/-- What an insertion makes of a subtree. -/
structure Inserted (t : Child K V) (key : K) (value : V) (replace : Bool)
    (n : SortedNode K V) : Prop where
  balanced : Balanced n.child
  entries_eq : entries n.child = put key value replace (entries t)
  le_height : heightOf t ≤ n.height
  height_le : n.height ≤ heightOf t + 1

/-- The answer `insert` reports. -/
def addedAfter (t : Child K V) (key : K) (added : Bool) : Bool :=
  if ((entries t).lookup key).isSome then added else true

/-- Inserting a key leaves a balanced tree with its entry put in, at most one higher. -/
theorem insertInto_spec (key : K) (value : V) (replace added : Bool)
    (t : Child K V) (hb : Balanced t) (ha : Ascending (entries t)) :
    ∃ n, insertInto t key value replace added =
        .ok (n, addedAfter t key added) ∧ Inserted t key value replace n := by
  induction t with
  | none =>
    refine ⟨.new key value, rfl, ⟨?_, rfl, ?_, ?_⟩⟩
    · refine ⟨by simp [SortedNode.new], by simp [SortedNode.new, sizeOf],
        by simp [SortedNode.new], by simp [SortedNode.new], trivial, trivial⟩
    · simp [SortedNode.new]
    · simp [SortedNode.new]
  | some key₀ value₀ left right height size ihl ihr =>
    obtain ⟨hh, hs, h₁, h₂, hl, hr⟩ := hb
    obtain ⟨hal, har, hbelow, habove⟩ := ascending_append_cons.mp ha
    rcases lt_trichotomy key key₀ with hlt | rfl | hgt
    · obtain ⟨m, hm, hins⟩ := ihl hl hal
      have hhm := heightOf_child m
      have hlow := hins.le_height
      have hhigh := hins.height_le
      obtain ⟨n, hn, hre⟩ := rebalance_spec key₀ value₀ height size
        hins.balanced hr (by omega) (by omega)
      have hadded : addedAfter (.some key₀ value₀ left right height size) key
          added = addedAfter left key added := by
        simp only [addedAfter, entries, lookup_left habove hlt]
      refine ⟨n, ?_, hre.balanced, ?_, ?_, ?_⟩
      · rw [hadded]
        simp only [insertInto, if_pos hlt, hm, ok_bind]
        change (rebalance ⟨key₀, value₀, m.child, right, height, size⟩ >>=
          fun node => .ok (node, _)) = _
        rw [hn, ok_bind]
      · rw [hre.entries_eq, hins.entries_eq, entries, put_left hlt]
      · have := hre.le_height
        have := hre.height_eq
        rw [heightOf_some]
        omega
      · have := hre.height_le
        have := hre.height_eq
        rw [heightOf_some]
        omega
    · have hadded : addedAfter (.some key value₀ left right height size) key
          added = added := by
        simp only [addedAfter, entries, lookup_here hbelow,
          Option.isSome_some, if_true]
      refine ⟨⟨key, if replace then value else value₀, left, right, height,
        size⟩, ?_, ⟨hh, hs, h₁, h₂, hl, hr⟩, ?_, le_rfl, ?_⟩
      · rw [hadded]
        simp only [insertInto, lt_irrefl, if_false]
        cases replace <;> rfl
      · rw [entries, put_here hbelow]
        rfl
      · exact Int.le_add_one le_rfl
    · obtain ⟨m, hm, hins⟩ := ihr hr har
      have hhm := heightOf_child m
      have hlow := hins.le_height
      have hhigh := hins.height_le
      obtain ⟨n, hn, hre⟩ := rebalance_spec key₀ value₀ height size
        hl hins.balanced (by omega) (by omega)
      have hadded : addedAfter (.some key₀ value₀ left right height size) key
          added = addedAfter right key added := by
        simp only [addedAfter, entries, lookup_right hbelow hgt]
      refine ⟨n, ?_, hre.balanced, ?_, ?_, ?_⟩
      · rw [hadded]
        simp only [insertInto, if_neg hgt.not_gt, if_pos hgt, hm, ok_bind]
        change (rebalance ⟨key₀, value₀, left, m.child, height, size⟩ >>=
          fun node => .ok (node, _)) = _
        rw [hn, ok_bind]
      · rw [hre.entries_eq, hins.entries_eq, entries,
          put_right hbelow hgt]
      · have := hre.le_height
        have := hre.height_eq
        rw [heightOf_some]
        omega
      · have := hre.height_le
        have := hre.height_eq
        rw [heightOf_some]
        omega

omit [LinearOrder K] in
/-- The leftmost node carries the first entry. -/
theorem leftmostFrom_spec (key : K) (value : V) (left right : Child K V)
    (height size : ℤ) :
    ∃ rest, entries (.some key value left right height size) =
      ((leftmostFrom ⟨key, value, left, right, height, size⟩ left).key,
        (leftmostFrom ⟨key, value, left, right, height, size⟩ left).value) ::
        rest := by
  induction left generalizing key value right height size with
  | none => exact ⟨entries right, rfl⟩
  | some kl vl ll lr hl sl ihl _ =>
    obtain ⟨rest, hrest⟩ := ihl kl vl lr hl sl
    refine ⟨rest ++ (key, value) :: entries right, ?_⟩
    rw [entries, hrest]
    rfl

/-- What a removal makes of a subtree. -/
structure Removed (t : Child K V) (key : K) (t' : Child K V) : Prop where
  balanced : Balanced t'
  entries_eq : entries t' = drop key (entries t)
  le_height : heightOf t - 1 ≤ heightOf t'
  height_le : heightOf t' ≤ heightOf t

/-- The answer `remove` reports. -/
def unlinkedAfter (t : Child K V) (key : K) (unlinked : Bool) : Bool :=
  if ((entries t).lookup key).isSome then true else unlinked

/-- The successor is removed from the right side and takes the place of the
entry between the two. -/
theorem drop_successor {l r : List (K × V)} {key : K} {value : V}
    {e : K × V} {rest : List (K × V)} (hr : r = e :: rest)
    (ha : Ascending (l ++ (key, value) :: r)) :
    l ++ e :: drop e.1 r = drop key (l ++ (key, value) :: r) := by
  obtain ⟨-, har, hbelow, habove⟩ := ascending_append_cons.mp ha
  rw [drop_here hbelow habove]
  have hrest : drop e.1 r = rest := by
    rw [hr] at har ⊢
    have hsplit : Ascending ([] ++ (e.1, e.2) :: rest) := har
    obtain ⟨-, -, -, hrest⟩ := ascending_append_cons.mp hsplit
    exact drop_here (l := []) (by intro x hx; cases hx) hrest
  rw [hrest, hr]

/-- Removing a key leaves a balanced tree with the other entries, at most one lower. -/
theorem removeFrom_spec (key : K) (unlinked : Bool) (t : Child K V)
    (hb : Balanced t) (ha : Ascending (entries t)) :
    ∃ t', removeFrom t key unlinked =
        .ok (t', unlinkedAfter t key unlinked) ∧ Removed t key t' := by
  induction t generalizing key unlinked with
  | none => exact ⟨.none, rfl, trivial, rfl, by simp, le_rfl⟩
  | some key₀ value₀ left right height size ihl ihr =>
    obtain ⟨hh, hs, h₁, h₂, hl, hr⟩ := hb
    obtain ⟨hal, har, hbelow, habove⟩ := ascending_append_cons.mp ha
    have hl₀ := heightOf_nonneg hl
    have hr₀ := heightOf_nonneg hr
    rcases lt_trichotomy key key₀ with hlt | rfl | hgt
    · obtain ⟨l', hm, hrem⟩ := ihl key unlinked hl hal
      have hlow := hrem.le_height
      have hhigh := hrem.height_le
      obtain ⟨n, hn, hre⟩ := rebalance_spec key₀ value₀ height size
        hrem.balanced hr (by omega) (by omega)
      have hunlinked : unlinkedAfter (.some key₀ value₀ left right height
          size) key unlinked = unlinkedAfter left key unlinked := by
        simp only [unlinkedAfter, entries, lookup_left habove hlt]
      refine ⟨n.child, ?_, hre.balanced, ?_, ?_, ?_⟩
      · rw [hunlinked]
        simp only [removeFrom, if_pos hlt, hm, ok_bind]
        change (rebalance ⟨key₀, value₀, l', right, height, size⟩ >>=
          fun node => .ok (node.child, _)) = _
        rw [hn, ok_bind]
      · rw [hre.entries_eq, hrem.entries_eq, entries,
          drop_left habove hlt]
      · have := hre.le_height
        have := hre.height_eq
        rw [heightOf_some, heightOf_child]
        omega
      · have := hre.height_le
        have := hre.height_eq
        rw [heightOf_some, heightOf_child]
        omega
    · have hunlinked : unlinkedAfter (.some key value₀ left right height
          size) key unlinked = true := by
        simp only [unlinkedAfter, entries, lookup_here hbelow,
          Option.isSome_some, if_true]
      rw [hunlinked]
      by_cases hleft : heightOf left = 0
      · have hnone := (heightOf_eq_zero_iff hl).mp hleft
        subst hnone
        refine ⟨right, ?_, hr, ?_, ?_, ?_⟩
        · simp only [removeFrom, lt_irrefl, if_false, heightOf_none, if_true]
          rfl
        · rw [entries, drop_here hbelow habove]
          rfl
        · rw [heightOf_some]
          omega
        · rw [heightOf_some]
          omega
      · by_cases hright : heightOf right = 0
        · have hnone := (heightOf_eq_zero_iff hr).mp hright
          subst hnone
          refine ⟨left, ?_, hl, ?_, ?_, ?_⟩
          · simp only [removeFrom, lt_irrefl, if_false, hleft,
              heightOf_none, if_true]
            rfl
          · rw [entries, drop_here hbelow habove]
            exact (List.append_nil _).symm
          · rw [heightOf_some]
            omega
          · rw [heightOf_some]
            omega
        · cases right with
          | none => exact absurd rfl hright
          | some kr vr rl rr hR sR =>
            obtain ⟨rest, hrest⟩ := leftmostFrom_spec kr vr rl rr hR sR
            generalize hsucc :
              leftmostFrom ⟨kr, vr, rl, rr, hR, sR⟩ rl = successor at hrest
            obtain ⟨r', hm, hrem⟩ := ihr successor.key false hr har
            have hlow := hrem.le_height
            have hhigh := hrem.height_le
            obtain ⟨n, hn, hre⟩ := rebalance_spec successor.key
              successor.value 1 1 hl hrem.balanced (by omega) (by omega)
            refine ⟨n.child, ?_, hre.balanced, ?_, ?_, ?_⟩
            · rw [removeFrom]
              simp only [lt_irrefl, if_false, hleft, hright, expect_some,
                ok_bind, leftmost, hsucc, hm]
              change (rebalance ⟨successor.key, successor.value, left, r',
                1, 1⟩ >>= fun node => .ok (node.child, true)) = _
              rw [hn, ok_bind]
            · rw [hre.entries_eq, hrem.entries_eq]
              exact drop_successor hrest ha
            · have := hre.le_height
              have := hre.height_eq
              rw [heightOf_some, heightOf_child]
              omega
            · have := hre.height_le
              have := hre.height_eq
              rw [heightOf_some, heightOf_child]
              omega
    · obtain ⟨r', hm, hrem⟩ := ihr key unlinked hr har
      have hlow := hrem.le_height
      have hhigh := hrem.height_le
      obtain ⟨n, hn, hre⟩ := rebalance_spec key₀ value₀ height size
        hl hrem.balanced (by omega) (by omega)
      have hunlinked : unlinkedAfter (.some key₀ value₀ left right height
          size) key unlinked = unlinkedAfter right key unlinked := by
        simp only [unlinkedAfter, entries, lookup_right hbelow hgt]
      refine ⟨n.child, ?_, hre.balanced, ?_, ?_, ?_⟩
      · rw [hunlinked]
        simp only [removeFrom, if_neg hgt.not_gt, if_pos hgt, hm, ok_bind]
        change (rebalance ⟨key₀, value₀, left, r', height, size⟩ >>=
          fun node => .ok (node.child, _)) = _
        rw [hn, ok_bind]
      · rw [hre.entries_eq, hrem.entries_eq, entries,
          drop_right hbelow hgt]
      · have := hre.le_height
        have := hre.height_eq
        rw [heightOf_some, heightOf_child]
        omega
      · have := hre.height_le
        have := hre.height_eq
        rw [heightOf_some, heightOf_child]
        omega

end Collections
end Beans
