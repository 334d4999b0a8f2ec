import Beans.Collections.SortedMapBalance

/-!
# The sorted map is a finite map

After any sequence of operations the tree is a balanced search tree, its
entries in order are those of the abstract finite map obtained by the same
sequence, and the flags the operations answered are the abstract ones.

**Input.**  A lawful comparison, and any sequence of insertions, updates, removals and clears
on an empty map.

**Results.**
* `sortedMap_searchTree`: the tree is balanced, ordered, and its cached heights and sizes are
  right; nothing panics.
* `sortedMap_refines_finmap`: entries and flags are those of the finite map.
-/

namespace Beans
namespace Collections

open OrderedEntries

universe u v

variable {K : Type u} {V : Type v} [LinearOrder K]

/-- Keys on the right sides of every node, cached heights and sizes right, and
no node leaning by more than one. -/
def SearchTree : Child K V → Prop
  | .none => True
  | .some key _ left right height size =>
    (∀ k ∈ collectKeys left, k < key) ∧
      (∀ k ∈ collectKeys right, key < k) ∧
      height = 1 + max (heightOf left) (heightOf right) ∧
      size = 1 + sizeOf left + sizeOf right ∧
      |heightOf left - heightOf right| ≤ 1 ∧
      SearchTree left ∧ SearchTree right

theorem searchTree_of {t : Child K V} (hb : Balanced t)
    (ha : Ascending (entries t)) : SearchTree t := by
  induction t with
  | none => trivial
  | some key value left right height size ihl ihr =>
    obtain ⟨hh, hs, h₁, h₂, hl, hr⟩ := hb
    obtain ⟨hal, har, hbelow, habove⟩ := ascending_append_cons.mp ha
    refine ⟨?_, ?_, hh, hs, ?_, ihl hl hal, ihr hr har⟩
    · intro k hk
      rw [collectKeys_eq] at hk
      obtain ⟨e, he, rfl⟩ := List.mem_map.mp hk
      exact hbelow e he
    · intro k hk
      rw [collectKeys_eq] at hk
      obtain ⟨e, he, rfl⟩ := List.mem_map.mp hk
      exact habove e he
    · rw [abs_le]
      omega

theorem getFrom_eq (key : K) {t : Child K V} (ha : Ascending (entries t)) :
    getFrom key t = (entries t).lookup key := by
  induction t with
  | none => rfl
  | some key₀ value left right height size ihl ihr =>
    obtain ⟨hal, har, hbelow, habove⟩ := ascending_append_cons.mp ha
    rcases lt_trichotomy key key₀ with hlt | rfl | hgt
    · rw [getFrom, if_pos hlt, ihl hal, entries, lookup_left habove hlt]
    · rw [getFrom, if_neg (lt_irrefl key), if_neg (lt_irrefl key), entries,
        lookup_here hbelow]
    · rw [getFrom, if_neg hgt.not_gt, if_pos hgt, ihr har, entries,
        lookup_right hbelow hgt]

theorem containsKeyFrom_eq (key : K) (t : Child K V) :
    containsKeyFrom key t = (getFrom key t).isSome := by
  induction t with
  | none => rfl
  | some key₀ value left right height size ihl ihr =>
    simp only [containsKeyFrom, getFrom]
    split
    · exact ihl
    · split
      · exact ihr
      · rfl

/-- The abstract map after an operation and the flag the operation answers. -/
def finmapStep (f : Finmap fun _ : K => V) :
    SortedMapOp K V → (Finmap fun _ : K => V) × Option Bool
  | .set key value => (f.insert key value, none)
  | .insert key value =>
    if key ∈ f then (f, some false) else (f.insert key value, some true)
  | .remove key => (f.erase key, some (decide (key ∈ f)))
  | .clear => (∅, none)

def finmapRun (f : Finmap fun _ : K => V) :
    List (SortedMapOp K V) → (Finmap fun _ : K => V) × List (Option Bool)
  | [] => (f, [])
  | op :: ops =>
    let r := finmapStep f op
    ((finmapRun r.1 ops).1, r.2 :: (finmapRun r.1 ops).2)

/-- A balanced search tree with the entries of an abstract map. -/
structure Shows (m : SortedMap K V) (f : Finmap fun _ : K => V) : Prop where
  balanced : Balanced m.root
  ascending : Ascending (entries m.root)
  lookup : ∀ k, (entries m.root).lookup k = f.lookup k

namespace Shows

variable {m : SortedMap K V} {f : Finmap fun _ : K => V}

theorem new : Shows (SortedMap.new : SortedMap K V) ∅ where
  balanced := trivial
  ascending := List.Pairwise.nil
  lookup _ := rfl

theorem mem_iff (h : Shows m f) (key : K) :
    ((entries m.root).lookup key).isSome = true ↔ key ∈ f := by
  rw [h.lookup, Finmap.lookup_isSome]

/-- An insertion, whichever way it treats a key that is there. -/
theorem put (h : Shows m f) (key : K) (value : V) (replace : Bool)
    (hreplace : replace = false → key ∉ f) :
    ∃ n, insertInto m.root key value replace false =
        .ok (n, decide (key ∉ f)) ∧ Shows ⟨n.child⟩ (f.insert key value) := by
  obtain ⟨n, hn, hins⟩ := insertInto_spec key value replace false m.root
    h.balanced h.ascending
  have hadded : addedAfter m.root key false = decide (key ∉ f) := by
    unfold addedAfter
    by_cases hmem : key ∈ f
    · simp [(h.mem_iff key).mpr hmem, hmem]
    · have hnot := mt (h.mem_iff key).mp hmem
      simp [hnot, hmem]
  refine ⟨n, by rw [hn, hadded], hins.balanced, ?_, ?_⟩
  · change Ascending (entries n.child)
    rw [hins.entries_eq]
    exact h.ascending.put
  · intro k
    change (entries n.child).lookup k = _
    rw [hins.entries_eq, lookup_put h.ascending, h.lookup, h.lookup]
    by_cases hk : k = key
    · subst hk
      rw [if_pos rfl, Finmap.lookup_insert]
      cases replace with
      | true => rfl
      | false =>
        rw [Finmap.lookup_eq_none.mpr (hreplace rfl)]
        rfl
    · rw [if_neg hk, Finmap.lookup_insert_of_ne f hk]

/-- An insertion that finds its key changes nothing. -/
theorem keep (h : Shows m f) (key : K) (value : V) (hmem : key ∈ f) :
    ∃ n, insertInto m.root key value false false = .ok (n, false) ∧
      Shows ⟨n.child⟩ f := by
  obtain ⟨n, hn, hins⟩ := insertInto_spec key value false false m.root
    h.balanced h.ascending
  have hadded : addedAfter m.root key false = false := by
    simp [addedAfter, (h.mem_iff key).mpr hmem]
  obtain ⟨w, hw⟩ := Finmap.mem_iff.mp hmem
  refine ⟨n, by rw [hn, hadded], hins.balanced, ?_, ?_⟩
  · change Ascending (entries n.child)
    rw [hins.entries_eq]
    exact h.ascending.put
  · intro k
    change (entries n.child).lookup k = _
    rw [hins.entries_eq, lookup_put h.ascending, h.lookup, h.lookup]
    by_cases hk : k = key
    · subst hk
      rw [if_pos rfl, hw]
      rfl
    · rw [if_neg hk]

theorem remove (h : Shows m f) (key : K) :
    ∃ t, removeFrom m.root key false = .ok (t, decide (key ∈ f)) ∧
      Shows ⟨t⟩ (f.erase key) := by
  obtain ⟨t, ht, hrem⟩ := removeFrom_spec key false m.root h.balanced
    h.ascending
  have hunlinked : unlinkedAfter m.root key false = decide (key ∈ f) := by
    unfold unlinkedAfter
    by_cases hmem : key ∈ f
    · simp [(h.mem_iff key).mpr hmem, hmem]
    · have hnot := mt (h.mem_iff key).mp hmem
      simp [hnot, hmem]
  refine ⟨t, by rw [ht, hunlinked], hrem.balanced, ?_, ?_⟩
  · change Ascending (entries t)
    rw [hrem.entries_eq]
    exact h.ascending.drop
  · intro k
    change (entries t).lookup k = _
    rw [hrem.entries_eq, lookup_drop, h.lookup]
    by_cases hk : k = key
    · subst hk
      rw [if_pos rfl, Finmap.lookup_erase]
    · rw [if_neg hk, Finmap.lookup_erase_ne hk]

/-- One operation of the map and of the abstract map. -/
theorem step (h : Shows m f) (op : SortedMapOp K V) :
    ∃ m', sortedMapStep m op = .ok (m', (finmapStep f op).2) ∧
      Shows m' (finmapStep f op).1 := by
  cases op with
  | set key value =>
    obtain ⟨n, hn, hshows⟩ := h.put key value true (by simp)
    refine ⟨⟨n.child⟩, ?_, hshows⟩
    simp only [sortedMapStep, SortedMap.set, hn, ok_bind]
    rfl
  | insert key value =>
    by_cases hmem : key ∈ f
    · obtain ⟨n, hn, hshows⟩ := h.keep key value hmem
      simp only [finmapStep, if_pos hmem]
      refine ⟨⟨n.child⟩, ?_, hshows⟩
      simp only [sortedMapStep, SortedMap.insert, hn, ok_bind]
      rfl
    · obtain ⟨n, hn, hshows⟩ := h.put key value false fun _ => hmem
      simp only [finmapStep, if_neg hmem]
      refine ⟨⟨n.child⟩, ?_, hshows⟩
      simp only [sortedMapStep, SortedMap.insert, hn, ok_bind, hmem,
        not_false_eq_true, decide_true]
      rfl
  | remove key =>
    obtain ⟨t, ht, hshows⟩ := h.remove key
    refine ⟨⟨t⟩, ?_, hshows⟩
    simp only [sortedMapStep, SortedMap.remove, ht, ok_bind]
    rfl
  | clear => exact ⟨_, rfl, new⟩

/-- A whole sequence of operations. -/
theorem run (h : Shows m f) (ops : List (SortedMapOp K V)) :
    ∃ m', sortedMapRun m ops = .ok (m', (finmapRun f ops).2) ∧
      Shows m' (finmapRun f ops).1 := by
  induction ops generalizing m f with
  | nil => exact ⟨m, rfl, h⟩
  | cons op ops ih =>
    obtain ⟨m₁, hm₁, h₁⟩ := h.step op
    obtain ⟨m₂, hm₂, h₂⟩ := ih h₁
    refine ⟨m₂, ?_, h₂⟩
    simp only [sortedMapRun, hm₁, ok_bind, hm₂]
    rfl

theorem mem_keys (h : Shows m f) (key : K) : key ∈ m.keys ↔ key ∈ f := by
  rw [← h.mem_iff, lookup_isSome_iff, SortedMap.keys, collectKeys_eq]

theorem pairwise_keys (h : Shows m f) : m.keys.Pairwise (· < ·) := by
  rw [SortedMap.keys, collectKeys_eq]
  exact h.ascending.keys

theorem keys_eq (h : Shows m f) : m.keys = f.keys.sort := by
  have hnodup : m.keys.Nodup := h.pairwise_keys.imp fun hlt => hlt.ne
  have hset : m.keys.toFinset = f.keys := by
    ext key
    rw [List.mem_toFinset, h.mem_keys, Finmap.mem_keys]
  rw [← hset]
  exact ((List.toFinset_sort _ hnodup).mpr
    (h.pairwise_keys.imp fun hlt => hlt.le)).symm

theorem values_eq (h : Shows m f) :
    m.values.map some = m.keys.map f.lookup := by
  rw [SortedMap.values, SortedMap.keys, collectValues_eq, collectKeys_eq,
    List.map_map, List.map_map]
  refine List.map_congr_left ?_
  intro e he
  rw [Function.comp_apply, Function.comp_apply, ← h.lookup,
    lookup_of_mem h.ascending he]

theorem len_eq (h : Shows m f) : m.len = f.keys.card := by
  rw [SortedMap.len, sizeOf_eq h.balanced, ← Finset.length_sort (r := (· ≤ ·)),
    ← h.keys_eq, SortedMap.keys, collectKeys_eq, List.length_map]

theorem get_eq (h : Shows m f) (key : K) : m.get key = f.lookup key := by
  rw [SortedMap.get, getFrom_eq key h.ascending, h.lookup]

theorem containsKey_iff (h : Shows m f) (key : K) :
    m.containsKey key = true ↔ key ∈ f := by
  rw [SortedMap.containsKey, containsKeyFrom_eq, getFrom_eq key h.ascending,
    h.mem_iff]

end Shows

/-- Every tree that a sequence of operations reaches is a balanced search tree
with right heights and sizes, and no operation panics on the way. -/
theorem sortedMap_searchTree (ops : List (SortedMapOp K V)) :
    ∃ m answers, sortedMapRun .new ops = .ok (m, answers) ∧
      SearchTree m.root := by
  obtain ⟨m, hm, hshows⟩ := Shows.new.run ops
  exact ⟨m, _, hm, searchTree_of hshows.balanced hshows.ascending⟩

/-- All reads answer the abstract map. -/
structure Agrees (m : SortedMap K V) (f : Finmap fun _ : K => V) : Prop where
  keys_eq : m.keys = f.keys.sort
  ascending : m.keys.Pairwise (· < ·)
  values_eq : m.values.map some = m.keys.map f.lookup
  len_eq : m.len = f.keys.card
  get_eq : ∀ key, m.get key = f.lookup key
  containsKey_iff : ∀ key, m.containsKey key = true ↔ key ∈ f

/-- The map and the flags of its operations are those of the finite map. -/
theorem sortedMap_refines_finmap (ops : List (SortedMapOp K V)) :
    ∃ m, sortedMapRun .new ops = .ok (m, (finmapRun ∅ ops).2) ∧
      Agrees m (finmapRun ∅ ops).1 := by
  obtain ⟨m, hm, h⟩ := Shows.new.run ops
  exact ⟨m, hm, h.keys_eq, h.pairwise_keys, h.values_eq, h.len_eq, h.get_eq,
    h.containsKey_iff⟩

end Collections
end Beans
