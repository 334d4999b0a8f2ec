import Beans.Collections.SortedMapRefinement

/-!
# Ordered queries of the sorted map

Rank, selection by position, the four neighbour queries and the pruned range
walks each follow one path, or prune subtrees, on the strength of the cached
sizes and of the order of the keys.  All of them answer what the ascending list
of the keys answers.

**Results.**
* `sortedMap_queries`: in every map that a sequence of operations reaches, each query
  answers from that list.
-/

namespace Beans
namespace Collections

open OrderedEntries

universe u v

variable {K : Type u} {V : Type v}

variable {l : List K} {p : K → Bool} {t : Child K V}

/-- A predicate that every key of a list has, or that none has. -/
theorem filter_all (h : ∀ k ∈ l, p k = true) :
    l.filter p = l :=
  List.filter_eq_self.mpr h

theorem filter_none (h : ∀ k ∈ l, p k = false) :
    l.filter p = [] :=
  List.filter_eq_nil_iff.mpr fun k hk => by simp [h k hk]

theorem collectKeys_length (ht : Balanced t) :
    sizeOf t = (collectKeys t).length := by
  rw [sizeOf_eq ht, collectKeys_eq, List.length_map]

variable [LinearOrder K]

theorem SearchTree.balanced (h : SearchTree t) :
    Balanced t := by
  induction t with
  | none => trivial
  | some key value left right height size ihl ihr =>
    obtain ⟨-, -, hh, hs, hlean, hl, hr⟩ := h
    rw [abs_le] at hlean
    exact ⟨hh, hs, by omega, by omega, ihl hl, ihr hr⟩

theorem rankFrom_eq (key : K) (count : ℤ)
    (h : SearchTree t) :
    rankFrom key count t =
      count + ((collectKeys t).filter (· < key)).length := by
  induction t generalizing count with
  | none => simp [rankFrom, collectKeys]
  | some key₀ value left right height size ihl ihr =>
    obtain ⟨hbelow, habove, -, -, -, hl, hr⟩ := h
    have hsize := collectKeys_length hl.balanced
    rw [collectKeys, List.filter_append]
    rcases lt_trichotomy key key₀ with hlt | rfl | hgt
    · have hright : (key₀ :: collectKeys right).filter (· < key) = [] := by
        refine filter_none ?_
        intro k hk
        refine decide_eq_false (not_lt.mpr ?_)
        rcases List.mem_cons.mp hk with rfl | hk
        · exact hlt.le
        · exact (hlt.trans (habove k hk)).le
      rw [rankFrom, if_pos hlt, ihl count hl, hright, List.append_nil]
    · have hleft : (collectKeys left).filter (· < key) = collectKeys left :=
        filter_all fun k hk => decide_eq_true (hbelow k hk)
      have hright : (key :: collectKeys right).filter (· < key) = [] := by
        refine filter_none ?_
        intro k hk
        refine decide_eq_false (not_lt.mpr ?_)
        rcases List.mem_cons.mp hk with rfl | hk
        · exact le_rfl
        · exact (habove k hk).le
      rw [rankFrom, if_neg (lt_irrefl key), if_neg (lt_irrefl key), hleft,
        hright, List.append_nil, hsize]
    · have hleft : (collectKeys left).filter (· < key) = collectKeys left :=
        filter_all fun k hk => decide_eq_true ((hbelow k hk).trans hgt)
      have hmid : (key₀ :: collectKeys right).filter (· < key) =
          key₀ :: (collectKeys right).filter (· < key) :=
        List.filter_cons_of_pos (decide_eq_true hgt)
      rw [rankFrom, if_neg hgt.not_gt, if_pos hgt, ihr _ hr, hleft, hmid,
        List.length_append, List.length_cons, hsize]
      push_cast
      ring

omit [LinearOrder K] in
theorem nodeAtFrom_eq (remaining : ℤ) (hpos : 0 ≤ remaining)
    (hb : Balanced t) :
    (nodeAtFrom remaining t).map (fun n => (n.key, n.value)) =
      (entries t)[remaining.toNat]? := by
  induction t generalizing remaining with
  | none => simp [nodeAtFrom, entries]
  | some key value left right height size ihl ihr =>
    obtain ⟨hh, hs, h₁, h₂, hl, hr⟩ := hb
    have hsize := sizeOf_eq hl
    rw [entries]
    by_cases hlt : remaining < sizeOf left
    · rw [nodeAtFrom, if_pos hlt, ihl remaining hpos hl,
        List.getElem?_append_left (by omega)]
    · rw [List.getElem?_append_right (by omega)]
      by_cases heq : remaining = sizeOf left
      · have hzero : remaining.toNat - (entries left).length = 0 := by omega
        rw [nodeAtFrom, if_neg hlt, if_pos heq, hzero]
        rfl
      · have hsucc : remaining.toNat - (entries left).length =
            (remaining - (sizeOf left + 1)).toNat + 1 := by omega
        rw [nodeAtFrom, if_neg hlt, if_neg heq, hsucc,
          ihr _ (by omega) hr, List.getElem?_cons_succ]

/-- The keys a neighbour query chooses from. -/
def admits (key : K) (below inclusive : Bool) (k : K) : Bool :=
  (if below then decide (k < key) else decide (key < k)) ||
    (inclusive && decide (k = key))

/-- The candidate nearest to the key. -/
def nearest (below : Bool) (candidates : List K) : Option K :=
  if below then candidates.getLast? else candidates.head?

section

variable {key k : K}

theorem admits_of_lt (h : k < key) (below inclusive : Bool) :
    admits key below inclusive k = below := by
  cases below <;> simp [admits, h, h.not_gt, h.ne]

theorem admits_of_gt (h : key < k) (below inclusive : Bool) :
    admits key below inclusive k = !below := by
  cases below <;> simp [admits, h, h.not_gt, h.ne']

theorem admits_self (below inclusive : Bool) :
    admits key below inclusive key = inclusive := by
  cases below <;> simp [admits]

end

/-- One path finds the nearest key among those that are admitted. -/
theorem neighbourFrom_eq (key : K) (below inclusive : Bool) (best : Option K)
    (h : SearchTree t) :
    neighbourFrom key below inclusive best t =
      (nearest below ((collectKeys t).filter (admits key below inclusive))).or
        best := by
  induction t generalizing best with
  | none => cases below <;> rfl
  | some key₀ value left right height size ihl ihr =>
    obtain ⟨hbelow, habove, -, -, -, hl, hr⟩ := h
    rw [collectKeys, List.filter_append]
    rcases lt_trichotomy key₀ key with hlt | rfl | hgt
    · have hleft : ∀ k ∈ collectKeys left,
          admits key below inclusive k = below := fun k hk =>
        admits_of_lt ((hbelow k hk).trans hlt) below inclusive
      have hmid := admits_of_lt hlt below inclusive
      rw [neighbourFrom, if_pos hlt, ihr _ hr]
      cases below with
      | true =>
        rw [filter_all hleft, List.filter_cons_of_pos hmid]
        simp [nearest, List.getLast?_cons]
      | false =>
        rw [filter_none hleft, List.filter_cons_of_neg (by simp [hmid])]
        simp [nearest]
    · have hleft : ∀ k ∈ collectKeys left,
          admits key₀ below inclusive k = below := fun k hk =>
        admits_of_lt (hbelow k hk) below inclusive
      have hright : ∀ k ∈ collectKeys right,
          admits key₀ below inclusive k = !below := fun k hk =>
        admits_of_gt (habove k hk) below inclusive
      have hmid : admits key₀ below inclusive key₀ = inclusive :=
        admits_self below inclusive
      rw [neighbourFrom, if_neg (lt_irrefl key₀), if_neg (lt_irrefl key₀)]
      cases inclusive with
      | true =>
        rw [if_pos rfl, List.filter_cons_of_pos hmid]
        cases below with
        | true =>
          rw [filter_none hright]
          simp [nearest]
        | false =>
          rw [filter_none hleft]
          simp [nearest]
      | false =>
        rw [if_neg Bool.false_ne_true,
          List.filter_cons_of_neg (by simp [hmid])]
        cases below with
        | true =>
          rw [if_pos rfl, ihl _ hl, filter_none hright, List.append_nil]
        | false =>
          rw [if_neg Bool.false_ne_true, ihr _ hr, filter_none hleft,
            List.nil_append]
    · have hright : ∀ k ∈ collectKeys right,
          admits key below inclusive k = !below := fun k hk =>
        admits_of_gt (hgt.trans (habove k hk)) below inclusive
      have hmid := admits_of_gt hgt below inclusive
      rw [neighbourFrom, if_neg hgt.not_gt, if_pos hgt, ihl _ hl]
      cases below with
      | true =>
        rw [List.filter_cons_of_neg (by simp [hmid]), filter_none hright]
        simp [nearest]
      | false =>
        rw [List.filter_cons_of_pos hmid, filter_all hright]
        simp [nearest]

/-- The entries of a range. -/
def inRange (start stop : K) (e : K × V) : Bool :=
  decide (start ≤ e.1 ∧ e.1 < stop)

/-- Both range walks, given what they collect from an entry. -/
theorem rangeWalk_eq {W : Type*} (walk : Child K V → List W)
    (pick : K × V → W) (start stop : K) (hnone : walk .none = [])
    (hsome : ∀ key value left right height size,
      walk (.some key value left right height size) =
        (if start < key then walk left else []) ++
          (if ¬ key < start ∧ key < stop then [pick (key, value)] else []) ++
          (if key < stop then walk right else []))
    (ha : Ascending (entries t)) :
    walk t = ((entries t).filter (inRange start stop)).map pick := by
  induction t with
  | none => rw [hnone]; rfl
  | some key value left right height size ihl ihr =>
    obtain ⟨hal, har, hbelow, habove⟩ := ascending_append_cons.mp ha
    have hleft : (if start < key then walk left else []) =
        ((entries left).filter (inRange start stop)).map pick := by
      split
      · exact ihl hal
      · rename_i hge
        rw [List.filter_eq_nil_iff.mpr, List.map_nil]
        intro e he hin
        have hin := (of_decide_eq_true hin).1
        exact hge (hin.trans_lt (hbelow e he))
    have hright : (if key < stop then walk right else []) =
        ((entries right).filter (inRange start stop)).map pick := by
      split
      · exact ihr har
      · rename_i hge
        rw [List.filter_eq_nil_iff.mpr, List.map_nil]
        intro e he hin
        have hin := (of_decide_eq_true hin).2
        exact hge ((habove e he).trans hin)
    rw [hsome, hleft, hright, entries, List.filter_append, List.map_append,
      List.append_assoc]
    congr 1
    by_cases hin : ¬ key < start ∧ key < stop
    · have hin' : inRange start stop (key, value) = true :=
        decide_eq_true ⟨not_lt.mp hin.1, hin.2⟩
      rw [if_pos hin, List.filter_cons_of_pos hin']
      rfl
    · have hin' : ¬ inRange start stop (key, value) = true := fun h =>
        hin ⟨not_lt.mpr (of_decide_eq_true h).1, (of_decide_eq_true h).2⟩
      rw [if_neg hin, List.filter_cons_of_neg hin']
      rfl

theorem collectRangeKeys_eq (start stop : K)
    (ha : Ascending (entries t)) :
    collectRangeKeys start stop t =
      ((entries t).filter (inRange start stop)).map Prod.fst :=
  rangeWalk_eq (collectRangeKeys start stop) Prod.fst start stop rfl
    (fun _ _ _ _ _ _ => rfl) ha

theorem collectRangeValues_eq (start stop : K)
    (ha : Ascending (entries t)) :
    collectRangeValues start stop t =
      ((entries t).filter (inRange start stop)).map Prod.snd :=
  rangeWalk_eq (collectRangeValues start stop) Prod.snd start stop rfl
    (fun _ _ _ _ _ _ => rfl) ha

/-- The keys below the end are those below the start and those of the range. -/
theorem length_filter_lt {start stop : K} (hlt : start < stop) (l : List K) :
    (l.filter (· < stop)).length =
      (l.filter (· < start)).length +
        (l.filter fun k => start ≤ k ∧ k < stop).length := by
  induction l with
  | nil => rfl
  | cons k l ih =>
    simp only [List.filter_cons]
    by_cases h₁ : k < start
    · have h₂ : k < stop := h₁.trans hlt
      have h₃ : ¬ start ≤ k := not_le.mpr h₁
      simp only [h₁, h₂, h₃, decide_true, if_true, false_and, decide_false,
        Bool.false_eq_true, if_false, List.length_cons, ih]
      omega
    · have h₃ : start ≤ k := not_lt.mp h₁
      by_cases h₂ : k < stop
      · simp only [h₁, h₂, h₃, decide_true, if_true, true_and, decide_false,
          Bool.false_eq_true, if_false, List.length_cons, ih]
        omega
      · simp only [h₁, h₂, and_false, decide_false, Bool.false_eq_true,
          if_false, ih]

/-- The greatest, and the least, key of a list with a property. -/
def IsGreatestKey (l : List K) (p : K → Prop) : Option K → Prop
  | none => ∀ k ∈ l, ¬ p k
  | some x => IsGreatest {k | k ∈ l ∧ p k} x

def IsLeastKey (l : List K) (p : K → Prop) : Option K → Prop
  | none => ∀ k ∈ l, ¬ p k
  | some x => IsLeast {k | k ∈ l ∧ p k} x

theorem isGreatestKey_getLast? (hl : l.Pairwise (· < ·))
    {q : K → Prop} (hpq : ∀ k, p k = true ↔ q k) :
    IsGreatestKey l q (l.filter p).getLast? := by
  cases hlast : (l.filter p).getLast? with
  | none =>
    rw [List.getLast?_eq_none_iff, List.filter_eq_nil_iff] at hlast
    exact fun k hk hq => hlast k hk ((hpq k).mpr hq)
  | some x =>
    obtain ⟨init, hinit⟩ := List.getLast?_eq_some_iff.mp hlast
    have hmem : ∀ k, k ∈ init ++ [x] ↔ k ∈ l ∧ q k := by
      intro k
      rw [← hinit, List.mem_filter, hpq]
    have hsorted : (init ++ [x]).Pairwise (· < ·) := hinit ▸ hl.filter _
    refine ⟨(hmem x).mp (by simp), ?_⟩
    intro k hk
    rcases List.mem_append.mp ((hmem k).mpr hk) with hk | hk
    · exact ((List.pairwise_append.mp hsorted).2.2 k hk x (by simp)).le
    · exact (List.mem_singleton.mp hk).le

theorem isLeastKey_head? (hl : l.Pairwise (· < ·))
    {q : K → Prop} (hpq : ∀ k, p k = true ↔ q k) :
    IsLeastKey l q (l.filter p).head? := by
  cases hfilter : l.filter p with
  | nil =>
    rw [List.filter_eq_nil_iff] at hfilter
    exact fun k hk hq => hfilter k hk ((hpq k).mpr hq)
  | cons x rest =>
    have hmem : ∀ k, k ∈ x :: rest ↔ k ∈ l ∧ q k := by
      intro k
      rw [← hfilter, List.mem_filter, hpq]
    have hsorted : (x :: rest).Pairwise (· < ·) := hfilter ▸ hl.filter _
    refine ⟨(hmem x).mp List.mem_cons_self, ?_⟩
    intro k hk
    rcases List.mem_cons.mp ((hmem k).mpr hk) with rfl | hk
    · exact le_rfl
    · exact ((List.pairwise_cons.mp hsorted).1 k hk).le

/-- Every ordered query answers what the list of the keys answers. -/
structure QueriesAgree (m : SortedMap K V) : Prop where
  rank : ∀ key, m.rank key = (m.keys.filter (· < key)).length
  keyAt : ∀ i, m.keyAt i = if 0 ≤ i then m.keys[i.toNat]? else none
  valueAt : ∀ i, m.valueAt i = if 0 ≤ i then m.values[i.toNat]? else none
  keyAt_rank : ∀ key ∈ m.keys, m.keyAt (m.rank key) = some key
  floorKey : ∀ key, IsGreatestKey m.keys (· ≤ key) (m.floorKey key)
  ceilingKey : ∀ key, IsLeastKey m.keys (key ≤ ·) (m.ceilingKey key)
  lowerKey : ∀ key, IsGreatestKey m.keys (· < key) (m.lowerKey key)
  higherKey : ∀ key, IsLeastKey m.keys (key < ·) (m.higherKey key)
  rangeKeys : ∀ start stop, m.rangeKeys start stop =
    m.keys.filter fun k => start ≤ k ∧ k < stop
  rangeValues : ∀ start stop, m.rangeValues start stop =
    ((m.keys.zip m.values).filter fun e =>
      start ≤ e.1 ∧ e.1 < stop).map Prod.snd
  rangeCount : ∀ start stop, m.rangeCount start stop =
    (m.rangeKeys start stop).length

namespace Shows

variable {m : SortedMap K V} {f : Finmap fun _ : K => V}

theorem searchTree (h : Shows m f) : SearchTree m.root :=
  searchTree_of h.balanced h.ascending

theorem nodeAt_eq (h : Shows m f) (i : ℤ) :
    (m.nodeAt i).map (fun n => (n.key, n.value)) =
      if 0 ≤ i then (entries m.root)[i.toNat]? else none := by
  have hlen : m.len = (entries m.root).length := sizeOf_eq h.balanced
  unfold SortedMap.nodeAt
  by_cases hi : 0 ≤ i
  · rw [if_pos hi]
    split
    · rename_i hout
      rw [List.getElem?_eq_none (by omega)]
      rfl
    · exact nodeAtFrom_eq i hi h.balanced
  · rw [if_neg hi, if_pos (Or.inl (not_le.mp hi))]
    rfl

theorem keyAt_eq (h : Shows m f) (i : ℤ) :
    m.keyAt i = if 0 ≤ i then m.keys[i.toNat]? else none := by
  have hkey : m.keyAt i =
      ((m.nodeAt i).map fun n => (n.key, n.value)).map Prod.fst := by
    rw [Option.map_map]
    rfl
  rw [hkey, h.nodeAt_eq, SortedMap.keys, collectKeys_eq]
  split
  · rw [List.getElem?_map]
  · rfl

theorem valueAt_eq (h : Shows m f) (i : ℤ) :
    m.valueAt i = if 0 ≤ i then m.values[i.toNat]? else none := by
  have hvalue : m.valueAt i =
      ((m.nodeAt i).map fun n => (n.key, n.value)).map Prod.snd := by
    rw [Option.map_map]
    rfl
  rw [hvalue, h.nodeAt_eq, SortedMap.values, collectValues_eq]
  split
  · rw [List.getElem?_map]
  · rfl

theorem rank_eq (h : Shows m f) (key : K) :
    m.rank key = (m.keys.filter (· < key)).length := by
  rw [SortedMap.rank, rankFrom_eq key 0 h.searchTree, zero_add]
  rfl

/-- The rank of a stored key is its position. -/
theorem keyAt_rank (h : Shows m f) {key : K} (hmem : key ∈ m.keys) :
    m.keyAt (m.rank key) = some key := by
  obtain ⟨before, after, hsplit⟩ := List.append_of_mem hmem
  have hsorted := h.pairwise_keys
  rw [hsplit, List.pairwise_append, List.pairwise_cons] at hsorted
  obtain ⟨-, ⟨hafter, -⟩, hcross⟩ := hsorted
  have hrank : (m.keys.filter (· < key)).length = before.length := by
    have hleft : before.filter (· < key) = before :=
      filter_all fun k hk =>
        decide_eq_true (hcross k hk key List.mem_cons_self)
    have hright : (key :: after).filter (· < key) = [] := by
      refine filter_none ?_
      intro k hk
      refine decide_eq_false (not_lt.mpr ?_)
      rcases List.mem_cons.mp hk with rfl | hk
      · exact le_rfl
      · exact (hafter k hk).le
    rw [hsplit, List.filter_append, hleft, hright, List.append_nil]
  rw [h.keyAt_eq, h.rank_eq, hrank, if_pos (Int.natCast_nonneg _),
    Int.toNat_natCast, hsplit, List.getElem?_append_right le_rfl, Nat.sub_self]
  rfl

theorem neighbour_eq (h : Shows m f) (key : K) (below inclusive : Bool) :
    neighbourFrom key below inclusive none m.root =
      nearest below (m.keys.filter (admits key below inclusive)) := by
  rw [neighbourFrom_eq key below inclusive none h.searchTree, Option.or_none]
  rfl

theorem rangeKeys_eq (h : Shows m f) (start stop : K) :
    m.rangeKeys start stop =
      m.keys.filter fun k => start ≤ k ∧ k < stop := by
  rw [SortedMap.rangeKeys, collectRangeKeys_eq start stop h.ascending,
    SortedMap.keys, collectKeys_eq, List.filter_map]
  rfl

omit [LinearOrder K] in
theorem zip_keys_values (m : SortedMap K V) :
    m.keys.zip m.values = entries m.root := by
  exact (List.zip_of_prod (collectKeys_eq m.root).symm
    (collectValues_eq m.root).symm).symm

theorem rangeCount_eq (h : Shows m f) (start stop : K) :
    m.rangeCount start stop = (m.rangeKeys start stop).length := by
  rw [SortedMap.rangeCount, h.rank_eq, h.rank_eq, h.rangeKeys_eq]
  split
  · rename_i hnot
    have hnone : m.keys.filter (fun k => decide (start ≤ k ∧ k < stop)) = [] :=
      filter_none fun k _ =>
        decide_eq_false fun hk => hnot (hk.1.trans_lt hk.2)
    rw [hnone]
    rfl
  · rename_i hlt
    have hlength := length_filter_lt (not_not.mp hlt) m.keys
    omega

theorem queries (h : Shows m f) : QueriesAgree m where
  rank := h.rank_eq
  keyAt := h.keyAt_eq
  valueAt := h.valueAt_eq
  keyAt_rank _ hmem := h.keyAt_rank hmem
  floorKey key := by
    rw [SortedMap.floorKey, h.neighbour_eq]
    refine isGreatestKey_getLast? h.pairwise_keys ?_
    intro k
    simp [admits, le_iff_lt_or_eq]
  ceilingKey key := by
    rw [SortedMap.ceilingKey, h.neighbour_eq]
    refine isLeastKey_head? h.pairwise_keys ?_
    intro k
    have hle : key ≤ k ↔ key < k ∨ k = key := by
      rw [le_iff_lt_or_eq, @eq_comm K key k]
    rw [hle]
    simp [admits]
  lowerKey key := by
    rw [SortedMap.lowerKey, h.neighbour_eq]
    refine isGreatestKey_getLast? h.pairwise_keys ?_
    intro k
    simp [admits]
  higherKey key := by
    rw [SortedMap.higherKey, h.neighbour_eq]
    refine isLeastKey_head? h.pairwise_keys ?_
    intro k
    simp [admits]
  rangeKeys := h.rangeKeys_eq
  rangeValues start stop := by
    rw [zip_keys_values, SortedMap.rangeValues,
      collectRangeValues_eq start stop h.ascending]
    rfl
  rangeCount := h.rangeCount_eq

end Shows

/-- In every map that a sequence of operations reaches, the ordered queries
agree with the ascending list of the keys. -/
theorem sortedMap_queries (ops : List (SortedMapOp K V)) :
    ∃ m answers, sortedMapRun .new ops = .ok (m, answers) ∧
      QueriesAgree m := by
  obtain ⟨m, hm, h⟩ := Shows.new.run ops
  exact ⟨m, _, hm, h.queries⟩

end Collections
end Beans
