import Beans.Map.Operations

/-!
# The map is a finite map

A program's operations on a `BMap` are compared with the same operations on a
finite map.  The finite map is described twice: as the function that looks keys
up, and as the list of entries in first-insertion order, which is what an
`OrderedMap` shows.  Every run of operations agrees with both, never leaves a
probing loop running, and keeps the index invariant.

**Results.**
* `map_refines_finiteMap`: for any lawful equality and hash, ordered or not, as long as fewer
  than 2^32 - 2 entries are in use.

The layers below are the index (`Map/Index`), its invariant and one lemma an operation.
-/

namespace Beans
namespace Map

open OpenAddressing AssocList

variable {K V : Type*}

/-- The operations on the function that looks keys up. -/
def tableStep [Add V] (eq : K → K → Bool) (site : Site) (t : K → Option V) :
    MapOp K V → (K → Option V) × MapAnswer
  | .set key val => (fun k => if eq key k then some val else t k, .done)
  | .add key delta =>
    (fun k =>
      if eq key k then
        some (match t key with
          | some v => v + delta
          | none => delta)
      else t k,
      .done)
  | .insert key val =>
    match t key with
    | some _ => (t, .flag false)
    | none => (fun k => if eq key k then some val else t k, .flag true)
  | .remove key =>
    (fun k => if eq key k then none else t k, .flag (t key).isSome)
  | .reserve capacity =>
    (t,
      if capacity < 0 then
        .panicked ⟨s!"negative reserve capacity {capacity}", site⟩
      else if 2 ^ 58 < capacity then
        .panicked ⟨"reserve capacity too large", site⟩
      else .done)
  | .clear => (fun _ => none, .done)
  | .clone => (t, .done)

def tableRun [Add V] (eq : K → K → Bool) (site : Site) :
    List (MapOp K V) → (K → Option V) → (K → Option V) × List MapAnswer
  | [], t => (t, [])
  | op :: script, t =>
    ((tableRun eq site script (tableStep eq site t op).1).1,
      (tableStep eq site t op).2 ::
        (tableRun eq site script (tableStep eq site t op).1).2)

/-- A key that is present keeps its place, a new one goes to the end. -/
def orderPut (eq : K → K → Bool) (f : V → V) (key : K) (val : V)
    (l : List (K × V)) : List (K × V) :=
  match AssocList.get eq l key with
  | some _ => AssocList.modify eq f key l
  | none => l ++ [(key, val)]

/-- The operations on the entries in first-insertion order. -/
def orderStep [Add V] (eq : K → K → Bool) (l : List (K × V)) :
    MapOp K V → List (K × V)
  | .set key val => orderPut eq (fun _ => val) key val l
  | .add key delta => orderPut eq (· + delta) key delta l
  | .insert key val => orderPut eq id key val l
  | .remove key => AssocList.erase eq key l
  | .reserve _ => l
  | .clear => []
  | .clone => l

def orderRun [Add V] (eq : K → K → Bool) :
    List (MapOp K V) → List (K × V) → List (K × V)
  | [], l => l
  | op :: script, l => orderRun eq script (orderStep eq l op)

theorem get_orderPut {eq : K → K → Bool} (he : KeyEquivalence eq) (f : V → V)
    (key : K) (val : V) (l : List (K × V)) (k : K) :
    AssocList.get eq (orderPut eq f key val l) k =
      if eq key k then
        some (match AssocList.get eq l key with
          | some v => f v
          | none => val)
      else AssocList.get eq l k := by
  unfold orderPut
  cases h : AssocList.get eq l key with
  | none => exact get_append_new l key k val he h
  | some v =>
    dsimp only
    rw [get_modify he]
    split_ifs with hk
    · rw [← get_congr he l hk, h]
      rfl
    · rfl

/-- The two descriptions of the finite map agree. -/
theorem get_orderStep [Add V] {eq : K → K → Bool} (he : KeyEquivalence eq)
    (site : Site) {l : List (K × V)} {t : K → Option V}
    (h : ∀ k, AssocList.get eq l k = t k) (op : MapOp K V) (k : K) :
    AssocList.get eq (orderStep eq l op) k = (tableStep eq site t op).1 k := by
  cases op with
  | set key val =>
    rw [orderStep, get_orderPut he, tableStep]
    dsimp only
    rw [← h k]
    cases AssocList.get eq l key <;> rfl
  | add key delta =>
    rw [orderStep, get_orderPut he, tableStep]
    dsimp only
    rw [← h k, ← h key]
  | insert key val =>
    rw [orderStep, get_orderPut he, tableStep, h, h]
    cases ht : t key with
    | none => rfl
    | some v =>
      dsimp only
      split_ifs with hk
      · rw [← h, ← get_congr he l hk, h, ht]
        rfl
      · rfl
  | remove key =>
    rw [orderStep, get_erase he, tableStep, h]
  | reserve capacity => exact h k
  | clear => rfl
  | clone => exact h k

theorem Distinct.orderPut {eq : K → K → Bool} {l : List (K × V)}
    (hd : Distinct eq l) (f : V → V) (key : K) (val : V) :
    Distinct eq (orderPut eq f key val l) := by
  unfold Map.orderPut
  cases h : AssocList.get eq l key with
  | none => exact hd.append_new val h
  | some v => exact hd.modify f key

/-- A map shows the entries of `l`, in their order if it is ordered. -/
structure Shows (ops : KeyOps K) (m : BMap K V) (l : List (K × V)) : Prop where
  ok : m.Ok ops
  perm : (mapLive m).Perm l
  order : m.ordered = true → mapLive m = l

variable {ops : KeyOps K} {m : BMap K V} {l : List (K × V)}

theorem Shows.get_eq (hl : ops.Lawful) (h : Shows ops m l) (key : K) :
    AssocList.get ops.slotEq (mapLive m) key =
      AssocList.get ops.slotEq l key :=
  get_perm hl.equivalence h.ok.distinct h.perm key

theorem FoundAt.get_eq (hl : ops.Lawful) (hm : m.Ok ops) {key : K}
    {found : MapFound} {p : ℕ} {e : K × V}
    (hf : FoundAt ops m key found p e) :
    AssocList.get ops.slotEq (mapLive m) key = some e.2 :=
  get_of_mem hl.equivalence hm.distinct
    ((mem_mapLive m e).mpr ⟨p, hf.live, hf.entry⟩) hf.key_eq

theorem perm_modify (eq : K → K → Bool) (f : V → V) (key : K)
    {l l' : List (K × V)} (h : l.Perm l') :
    (AssocList.modify eq f key l).Perm (AssocList.modify eq f key l') :=
  h.map _

theorem perm_erase (eq : K → K → Bool) (key : K) {l l' : List (K × V)}
    (h : l.Perm l') :
    (AssocList.erase eq key l).Perm (AssocList.erase eq key l') :=
  h.filter _

/-- A found key is updated in place, a missing one is appended. -/
theorem shows_put (hl : ops.Lawful) (h : Shows ops m l)
    (hsmall : m.used < 2 ^ 32 - 2) (f : V → V) (key : K) (val : V) :
    ∃ found, mapFind ops m key = some found ∧
      ((∃ p v, found.position = some p ∧
          AssocList.get ops.slotEq l key = some v ∧
          Shows ops (mapStore m p f) (orderPut ops.slotEq f key val l) ∧
          (mapStore m p f).ordered = m.ordered) ∨
        (found.position = none ∧ AssocList.get ops.slotEq l key = none ∧
          ∃ m', mapInsertMiss ops m key val found = some m' ∧
            Shows ops m' (orderPut ops.slotEq f key val l) ∧
            m'.ordered = m.ordered)) := by
  obtain ⟨found, hfind, hcase⟩ := mapFind_spec hl h.ok key
  have hget := h.get_eq hl key
  refine ⟨found, hfind, ?_⟩
  rcases hcase with ⟨p, e, hf⟩ | hf
  · obtain ⟨hok, hlive⟩ := mapStore_spec hl h.ok hf f
    rw [hf.get_eq hl h.ok] at hget
    have hput : orderPut ops.slotEq f key val l =
        AssocList.modify ops.slotEq f key l := by
      rw [orderPut, ← hget]
    refine Or.inl ⟨p, e.2, hf.position, hget.symm, ⟨hok, ?_, ?_⟩, rfl⟩
    · rw [hlive, hput]
      exact perm_modify _ f key h.perm
    · intro hord
      rw [hlive, hput, h.order hord]
  · obtain ⟨m', heq, hok, hord', hlive⟩ :=
      mapInsertMiss_spec h.ok val hf hsmall
    rw [hf.absent] at hget
    have hput : orderPut ops.slotEq f key val l = l ++ [(key, val)] := by
      rw [orderPut, ← hget]
    refine Or.inr ⟨hf.position, hget.symm, m', heq, ⟨hok, ?_, ?_⟩, hord'⟩
    · rw [hlive, hput]
      exact h.perm.append_right _
    · intro hord
      rw [hlive, hput, h.order (by rw [← hord', hord])]

theorem beansMapReserve_spec (hm : m.Ok ops) {capacity : ℤ} (site : Site)
    (h₀ : ¬ capacity < 0) (h₁ : ¬ 2 ^ 58 < capacity)
    (hsmall : m.used < 2 ^ 32 - 2) :
    ∃ m', beansMapReserve ops m capacity site = .ok (some m') ∧ m'.Ok ops ∧
      m'.ordered = m.ordered ∧ mapLive m' = mapLive m := by
  have hb := bump_ok hm
  have hused := hm.used_eq
  have hgrown : (reserveEntries (mapBumpVersion m) capacity.toNat).Core ops ∧
      mapLive (reserveEntries (mapBumpVersion m) capacity.toNat) = mapLive m ∧
      (reserveEntries (mapBumpVersion m) capacity.toNat).len = m.len ∧
      (reserveEntries (mapBumpVersion m) capacity.toNat).ordered =
        m.ordered := by
    unfold reserveEntries
    by_cases hcap : (mapBumpVersion m).cap < capacity.toNat
    · rw [if_pos hcap]
      exact ⟨mapRealloc_core hb.toCore
        (hcap.le.trans (le_max_right _ _)), mapRealloc_mapLive _ _, rfl, rfl⟩
    · rw [if_neg hcap]
      exact ⟨hb.toCore, rfl, rfl, rfl⟩
  obtain ⟨hcore, hlive, hlen, hord⟩ := hgrown
  obtain ⟨m', heq, hok, hord', hlive', -⟩ := mapReindexTo_spec hcore
    (by omega) (show capacity.toNat ≤ 2 ^ 58 by omega)
  refine ⟨m', ?_, hok, by rw [hord', hord], by rw [hlive', hlive]⟩
  unfold beansMapReserve
  rw [if_neg h₀, if_neg h₁]
  dsimp only
  rw [heq]

/-- A clone has the live entries of the map, in their order. -/
theorem beansMapClone_spec (hm : m.Ok ops) (hsmall : m.used < 2 ^ 32 - 2) :
    ∃ m', beansMapClone ops m = some m' ∧ m'.Ok ops ∧
      m'.ordered = m.ordered ∧ mapLive m' = mapLive m := by
  have hlen := hm.len_eq
  have hused := hm.used_eq
  generalize hcopy : ({ (beansMapNew m.ordered : BMap K V) with
      cap := max m.len (beansMapNew m.ordered : BMap K V).cap
      entries := mapLive m
      len := (mapLive m).length } : BMap K V) = copy
  have hentries : copy.entries = mapLive m := by rw [← hcopy]
  have hlenCopy : copy.len = m.len := by
    rw [← hcopy]
    exact hlen
  have hcap : copy.cap = max m.len 4 := by
    rw [← hcopy]
    rfl
  have hdead : copy.deadbits = none := by
    rw [← hcopy]
    rfl
  have hidx : copy.idx = none := by
    rw [← hcopy]
    rfl
  have hord : copy.ordered = m.ordered := by
    rw [← hcopy]
    rfl
  have hlive : mapLive copy = mapLive m := by
    rw [mapLive_of_deadbits hdead, hentries]
  have husedCopy : copy.used = m.len := by
    rw [BMap.used, hentries, hlen]
  have hcore : copy.Core ops := by
    refine core_of_entries hdead ?_ ?_ ?_ ?_
    · rw [hentries, hlen, hlenCopy]
    · rw [husedCopy, hcap]
      exact le_max_left _ _
    · rw [hcap]
      exact lt_of_lt_of_le (by decide) (le_max_right _ _)
    · rw [hentries]
      exact hm.distinct
  have hclone : beansMapClone ops m =
      if mapLinearMax < copy.len then mapReindex ops copy else some copy := by
    unfold beansMapClone
    simp only [← hcopy]
  rw [hclone]
  by_cases hgrow : mapLinearMax < copy.len
  · rw [if_pos hgrow]
    obtain ⟨m', heq, hok, hord', hlive', -⟩ := mapReindexTo_spec hcore
      (by omega) (Nat.zero_le _)
    exact ⟨m', heq, hok, by rw [hord', hord], by rw [hlive', hlive]⟩
  · rw [if_neg hgrow]
    refine ⟨copy, rfl, ⟨hcore, by omega, fun _ => ⟨hdead, by omega⟩, ?_, ?_⟩,
      hord, hlive⟩
    · intro idx h
      rw [hidx] at h
      cases h
    · intro idx h
      rw [hidx] at h
      cases h

theorem beansMapClear_ok (hm : m.Ok ops) : (beansMapClear m).Ok ops where
  used_eq := rfl
  len_eq := rfl
  dead_lt _ h := absurd h Bool.false_ne_true
  fits := Nat.zero_le _
  cap_pos := hm.cap_pos
  bits_length _ h := nomatch h
  unordered _ := rfl
  distinct := List.Pairwise.nil
  dense := Nat.zero_le _
  linear _ := ⟨rfl, Nat.zero_le _⟩
  indexed _ h := nomatch h
  room _ h := nomatch h

section Runs

variable [Add V] [Zero K] [Zero V] {t : K → Option V} {site : Site}

/-- One operation agrees with the finite map. -/
theorem mapStep_spec (hl : ops.Lawful) (h : Shows ops m l)
    (ht : ∀ k, AssocList.get ops.slotEq l k = t k)
    (hsmall : m.used < 2 ^ 32 - 2) (op : MapOp K V) :
    ∃ m', mapStep ops site m op =
        some (m', (tableStep ops.slotEq site t op).2) ∧
      Shows ops m' (orderStep ops.slotEq l op) ∧ m'.ordered = m.ordered := by
  cases op with
  | set key val =>
    obtain ⟨found, hfind, hcase⟩ :=
      shows_put hl h hsmall (fun _ => val) key val
    rcases hcase with ⟨p, v, hpos, -, hshows, hord⟩ |
      ⟨hpos, -, m', hins, hshows, hord⟩
    · refine ⟨_, ?_, hshows, hord⟩
      rw [mapStep, beansMapSet, hfind]
      dsimp only
      rw [hpos]
      rfl
    · refine ⟨m', ?_, hshows, hord⟩
      rw [mapStep, beansMapSet, hfind]
      dsimp only
      rw [hpos]
      dsimp only
      rw [hins]
      rfl
  | add key delta =>
    obtain ⟨found, hfind, hcase⟩ :=
      shows_put hl h hsmall (· + delta) key delta
    rcases hcase with ⟨p, v, hpos, -, hshows, hord⟩ |
      ⟨hpos, -, m', hins, hshows, hord⟩
    · refine ⟨_, ?_, hshows, hord⟩
      rw [mapStep, beansMapAdd, hfind]
      dsimp only
      rw [hpos]
      rfl
    · refine ⟨m', ?_, hshows, hord⟩
      rw [mapStep, beansMapAdd, hfind]
      dsimp only
      rw [hpos]
      dsimp only
      rw [hins]
      rfl
  | insert key val =>
    obtain ⟨found, hfind, hcase⟩ := shows_put hl h hsmall id key val
    rcases hcase with ⟨p, v, hpos, hget, -, -⟩ |
      ⟨hpos, hget, m', hins, hshows, hord⟩
    · rw [ht] at hget
      have hsame : orderStep ops.slotEq l (.insert key val) = l := by
        rw [orderStep, orderPut, ht, hget]
        dsimp only
        unfold AssocList.modify
        simp
      refine ⟨m, ?_, by rw [hsame]; exact h, rfl⟩
      rw [mapStep, beansMapInsert, hfind]
      dsimp only
      rw [hpos, tableStep, hget]
      rfl
    · rw [ht] at hget
      refine ⟨m', ?_, hshows, hord⟩
      rw [mapStep, beansMapInsert, hfind]
      dsimp only
      rw [hpos, tableStep, hget]
      dsimp only
      rw [hins]
      rfl
  | remove key =>
    obtain ⟨found, hfind, hcase⟩ := mapFind_spec hl h.ok key
    have hget := h.get_eq hl key
    rw [ht] at hget
    rcases hcase with ⟨p, e, hf⟩ | hf
    · obtain ⟨m', heq, hr⟩ := mapRemoveFound_spec hl h.ok hf hsmall
      rw [hf.get_eq hl h.ok] at hget
      refine ⟨m', ?_, ⟨hr.ok, hr.perm.trans (perm_erase _ key h.perm), ?_⟩,
        hr.ordered⟩
      · rw [mapStep, beansMapRemove, hfind]
        dsimp only
        rw [hf.position, tableStep, ← hget]
        dsimp only
        rw [heq]
        rfl
      · intro hord
        rw [hr.ordered] at hord
        rw [hr.order hord, h.order hord]
        rfl
    · rw [hf.absent] at hget
      have habsent : ∀ e ∈ l, ops.slotEq e.1 key = false := by
        rw [← get_eq_none_iff, ht, ← hget]
      have hsame : orderStep ops.slotEq l (.remove key) = l :=
        List.filter_eq_self.mpr fun e he => by rw [habsent e he]; rfl
      refine ⟨m, ?_, by rw [hsame]; exact h, rfl⟩
      rw [mapStep, beansMapRemove, hfind]
      dsimp only
      rw [hf.position, tableStep, ← hget]
      rfl
  | reserve capacity =>
    rw [mapStep, tableStep]
    dsimp only
    by_cases h₀ : capacity < 0
    · refine ⟨m, ?_, h, rfl⟩
      rw [beansMapReserve, if_pos h₀, if_pos h₀]
      rfl
    by_cases h₁ : 2 ^ 58 < capacity
    · refine ⟨m, ?_, h, rfl⟩
      rw [beansMapReserve, if_neg h₀, if_neg h₀, if_pos h₁, if_pos h₁]
      rfl
    · obtain ⟨m', heq, hok, hord, hlive⟩ :=
        beansMapReserve_spec h.ok site h₀ h₁ hsmall
      refine ⟨m', ?_, ⟨hok, ?_, ?_⟩, hord⟩
      · rw [heq, if_neg h₀, if_neg h₁]
        rfl
      · rw [hlive]
        exact h.perm
      · intro hord'
        rw [hlive]
        exact h.order (by rw [← hord, hord'])
  | clear =>
    exact ⟨beansMapClear m, rfl,
      ⟨beansMapClear_ok h.ok, List.Perm.refl _, fun _ => rfl⟩, rfl⟩
  | clone =>
    obtain ⟨m', heq, hok, hord, hlive⟩ := beansMapClone_spec h.ok hsmall
    refine ⟨m', by rw [mapStep, heq]; rfl, ⟨hok, ?_, ?_⟩, hord⟩
    · rw [hlive]
      exact h.perm
    · intro hord'
      rw [hlive]
      exact h.order (by rw [← hord, hord'])

/-- Every run agrees with the finite map, as long as the entry array stays
below `2 ^ 32 - 2` entries. -/
theorem mapRun_spec (hl : ops.Lawful) :
    ∀ (script : List (MapOp K V)) (m : BMap K V) (l : List (K × V))
      (t : K → Option V),
      Shows ops m l → (∀ k, AssocList.get ops.slotEq l k = t k) →
      (∀ done, done <+: script → ∀ m' answers,
        mapRun ops site done m = some (m', answers) →
          m'.used < 2 ^ 32 - 2) →
      ∃ m', mapRun ops site script m =
          some (m', (tableRun ops.slotEq site script t).2) ∧
        Shows ops m' (orderRun ops.slotEq script l) ∧
        m'.ordered = m.ordered ∧
        ∀ k, AssocList.get ops.slotEq (orderRun ops.slotEq script l) k =
          (tableRun ops.slotEq site script t).1 k
  | [], m, l, t, h, ht, _ => ⟨m, rfl, h, rfl, ht⟩
  | op :: script, m, l, t, h, ht, hsmall => by
      obtain ⟨m₁, hstep, hshows, hord⟩ := mapStep_spec hl h ht
        (hsmall [] (List.nil_prefix) m [] rfl) op
      obtain ⟨m', hrun, hshows', hord', hget⟩ := mapRun_spec hl script m₁ _ _
        hshows (get_orderStep hl.equivalence site ht op) (by
          intro done hdone m' answers hm'
          refine hsmall (op :: done) (List.cons_prefix_cons.mpr ⟨rfl, hdone⟩) m'
            ((tableStep ops.slotEq site t op).2 :: answers) ?_
          rw [mapRun, hstep]
          dsimp only
          rw [hm']
          rfl)
      refine ⟨m', ?_, hshows', by rw [hord', hord], hget⟩
      rw [mapRun, hstep]
      dsimp only
      rw [hrun]
      rfl

end Runs

/-- The live entries from a position on. -/
def liveFrom (m : BMap K V) (cursor : ℕ) : List (K × V) :=
  (List.range' cursor (m.used - cursor)).filterMap (liveEntry m)

theorem liveFrom_zero (m : BMap K V) : liveFrom m 0 = mapLive m := by
  rw [liveFrom, mapLive_eq, Nat.sub_zero, List.range_eq_range']

theorem liveFrom_step (m : BMap K V) {cursor : ℕ} (h : cursor < m.used) :
    liveFrom m cursor =
      (liveEntry m cursor).toList ++ liveFrom m (cursor + 1) := by
  have hlen : m.used - cursor = (m.used - (cursor + 1)) + 1 := by omega
  rw [liveFrom, hlen, List.range'_succ, liveFrom]
  cases hentry : liveEntry m cursor with
  | none => rw [List.filterMap_cons_none hentry]; rfl
  | some e => rw [List.filterMap_cons_some hentry]; rfl

theorem liveFrom_end (m : BMap K V) {cursor : ℕ} (h : m.used ≤ cursor) :
    liveFrom m cursor = [] := by
  rw [liveFrom, Nat.sub_eq_zero_of_le h]
  rfl

/-- Skipping passes holes only. -/
theorem iterSkip_spec (m : BMap K V) :
    ∀ (fuel cursor : ℕ), m.used - cursor = fuel →
      cursor ≤ iterSkip m fuel cursor ∧
      liveFrom m (iterSkip m fuel cursor) = liveFrom m cursor ∧
      (iterSkip m fuel cursor < m.used → m.Live (iterSkip m fuel cursor))
  | 0, cursor, h => by
      refine ⟨le_rfl, rfl, fun hlt => ?_⟩
      change cursor < m.used at hlt
      omega
  | fuel + 1, cursor, h => by
      rw [iterSkip]
      by_cases hskip : cursor < m.used ∧ mapDead m cursor = true
      · rw [if_pos hskip]
        obtain ⟨hle, hsame, hlive⟩ :=
          iterSkip_spec m fuel (cursor + 1) (by omega)
        have hnone : liveEntry m cursor = none := if_pos hskip.2
        refine ⟨by omega, ?_, hlive⟩
        rw [hsame, liveFrom_step m hskip.1, hnone]
        rfl
      · rw [if_neg hskip]
        refine ⟨le_rfl, rfl, fun hlt => ⟨hlt, ?_⟩⟩
        by_contra hdead
        exact hskip ⟨hlt, (Bool.not_eq_false _).mp hdead⟩

theorem iterate_spec (m : BMap K V) (site : Site) :
    ∀ (fuel cursor : ℕ), m.used - cursor < fuel →
      iterate m m.version site fuel cursor = .ok (liveFrom m cursor)
  | 0, _, h => absurd h (Nat.not_lt_zero _)
  | fuel + 1, cursor, h => by
      obtain ⟨hle, hsame, hlive⟩ :=
        iterSkip_spec m (m.used - cursor) cursor rfl
      rw [iterate, beansMapIterNext, if_neg (fun hne => hne rfl)]
      dsimp only
      generalize iterSkip m (m.used - cursor) cursor = c at *
      by_cases hc : c < m.used
      · obtain ⟨e, he⟩ := (hlive hc).get
        have hentry : liveEntry m c = some e :=
          (liveEntry_eq_some_iff m c e).mpr ⟨hlive hc, he⟩
        rw [if_pos hc]
        dsimp only
        rw [iterate_spec m site fuel (c + 1) (by omega), he, ← hsame,
          liveFrom_step m hc, hentry]
        rfl
      · rw [if_neg hc, ← hsame, liveFrom_end m (by omega)]

/-- The claims about the index, word by word: every live position has one word,
which carries its fragment and which a search reaches, no word names anything
else, and a search meets an empty slot. -/
structure WellIndexed (ops : KeyOps K) (m : BMap K V) : Prop where
  one_word : ∀ idx ∈ m.idx, ∀ p, m.Live p →
    ∃! i, i < idx.length ∧ slotAt idx i = .full p
  fragment : ∀ idx ∈ m.idx, ∀ i < idx.length, ∀ p, slotAt idx i = .full p →
    idx.getD i 0 &&& idxFrag = hashAt ops m.entries p &&& idxFrag
  reachable : ∀ idx ∈ m.idx, ∀ p, m.Live p → ∃ k < idx.length,
    slotAt idx (((hashAt ops m.entries p).toNat + k) % idx.length) =
        .full p ∧
      ∀ j < k,
        slotAt idx (((hashAt ops m.entries p).toNat + j) % idx.length) ≠ .empty
  no_stale : ∀ idx ∈ m.idx, ∀ i < idx.length, ∀ p,
    slotAt idx i = .full p → m.Live p
  has_empty : ∀ idx ∈ m.idx, ∃ i < idx.length, slotAt idx i = .empty
  used_eq : m.used = m.len + m.holes

theorem BMap.Ok.wellIndexed (h : m.Ok ops) : WellIndexed ops m where
  one_word idx hidx p hp := by
    have hv := (h.indexed idx hidx).valid
    obtain ⟨k, -, hat, -⟩ := hv.reach p hp
    have hlt := Nat.mod_lt (homeAt ops m.entries idx.length p + k)
      (h.indexed idx hidx).length_pos
    exact ⟨_, ⟨hlt, hat⟩, fun i hi => hv.unique i hi.1 _ hlt p hi.2 hat⟩
  fragment idx hidx := (h.indexed idx hidx).fragment
  reachable idx hidx p hp := by
    obtain ⟨k, hk, hat, hbefore⟩ := (h.indexed idx hidx).valid.reach p hp
    simp only [homeAt, Nat.mod_add_mod] at hat hbefore
    exact ⟨k, hk, hat, hbefore⟩
  no_stale idx hidx := (h.indexed idx hidx).valid.live_of_full
  has_empty idx hidx := by
    have := h.room idx hidx
    exact (h.indexed idx hidx).exists_empty (by omega)
  used_eq := h.used_eq

/-- What a program sees of a map that stands for the finite map `t`, with its
entries in the order `l` if it is ordered. -/
structure Agrees (ops : KeyOps K) (site : Site) (m : BMap K V)
    (t : K → Option V) (l : List (K × V)) : Prop where
  lookups : ∀ key, beansMapGet ops m key = some (t key)
  iteration : iterate m m.version site (m.used + 1) 0 = .ok (mapLive m)
  keys : beansMapKeys m = (mapLive m).map Prod.fst
  values : beansMapValues m = (mapLive m).map Prod.snd
  once : Distinct ops.slotEq (mapLive m)
  complete : ∀ key v, t key = some v ↔
    ∃ e ∈ mapLive m, ops.slotEq e.1 key = true ∧ e.2 = v
  order : m.ordered = true → mapLive m = l

theorem Shows.agrees (hl : ops.Lawful) (h : Shows ops m l)
    {t : K → Option V} (ht : ∀ k, AssocList.get ops.slotEq l k = t k)
    (site : Site) : Agrees ops site m t l where
  lookups key := by
    obtain ⟨found, hfind, hcase⟩ := mapFind_spec hl h.ok key
    have hget := h.get_eq hl key
    rw [ht] at hget
    rw [beansMapGet, hfind, Option.map_some]
    rcases hcase with ⟨p, e, hf⟩ | hf
    · rw [hf.get_eq hl h.ok] at hget
      rw [hf.position, ← hget]
      dsimp only
      rw [hf.entry]
      rfl
    · rw [hf.absent] at hget
      rw [hf.position, ← hget]
  iteration := by
    rw [iterate_spec m site _ 0 (by omega), liveFrom_zero]
  keys := rfl
  values := rfl
  once := h.ok.distinct
  complete key v := by
    rw [← ht, ← h.get_eq hl]
    constructor
    · intro hv
      obtain ⟨e, hfind, he⟩ := Option.map_eq_some_iff.mp hv
      have hkey := List.find?_some hfind
      exact ⟨e, List.mem_of_find?_eq_some hfind, hkey, he⟩
    · rintro ⟨e, hmem, hkey, rfl⟩
      exact get_of_mem hl.equivalence h.ok.distinct hmem hkey
  order := h.order

/--
The runtime's hash map refines a finite map: for lawful keys every run of
operations on a new `Map` or `OrderedMap` that stays below `2 ^ 32 - 2` entries
comes to an end, answers as the finite map does, and leaves a map with the same
lookups, which iteration visits entry by entry and an `OrderedMap` shows in
first-insertion order; and the index invariant holds.
-/
theorem map_refines_finiteMap [Add V] [Zero K] [Zero V]
    (ops : KeyOps K) (hl : ops.Lawful) (site : Site) (ordered : Bool)
    (script : List (MapOp K V))
    (hsmall : ∀ done, done <+: script → ∀ m answers,
      mapRun ops site done (beansMapNew ordered) = some (m, answers) →
        m.used < 2 ^ 32 - 2) :
    ∃ m : BMap K V,
      mapRun ops site script (beansMapNew ordered) =
        some (m, (tableRun ops.slotEq site script fun _ => none).2) ∧
      m.ordered = ordered ∧
      Agrees ops site m (tableRun ops.slotEq site script fun _ => none).1
        (orderRun ops.slotEq script []) ∧
      WellIndexed ops m := by
  obtain ⟨m, hrun, hshows, hord, hget⟩ := mapRun_spec hl script
    (beansMapNew ordered) [] (fun _ => none)
    ⟨beansMapNew_ok ops ordered, List.Perm.refl _, fun _ => rfl⟩
    (fun _ => rfl) hsmall
  exact ⟨m, hrun, hord, hshows.agrees hl hget site, hshows.ok.wellIndexed⟩

/-- Ten words enter an `OrderedMap`, the ninth of which makes it build its index.  Six
leave again: the first five are buried, and the last makes it compact its entries and
index them anew.  A word that left comes back, one that is there is changed, and one
that is absent leaves. -/
def crowdedWords : List (MapOp UInt64 UInt64) :=
  [.set 10 1, .set 21 2, .set 32 3, .set 43 4, .set 54 5, .set 65 6, .set 76 7, .set 87 8,
    .insert 98 9, .insert 109 10, .remove 21, .remove 32, .remove 98, .remove 10, .remove 65,
    .remove 54, .insert 32 11, .add 43 5, .remove 7]

/-- The map of `crowdedWords` has an index and an order, and agrees with the finite map. -/
theorem map_refines_finiteMap_words :
    ∃ m : BMap UInt64 UInt64,
      mapRun rawOps ⟨1, 1⟩ crowdedWords (beansMapNew true) =
        some (m, (tableRun rawOps.slotEq ⟨1, 1⟩ crowdedWords fun _ => none).2) ∧
      m.ordered = true ∧
      Agrees rawOps ⟨1, 1⟩ m (tableRun rawOps.slotEq ⟨1, 1⟩ crowdedWords fun _ => none).1
        (orderRun rawOps.slotEq crowdedWords []) ∧
      WellIndexed rawOps m := by
  refine map_refines_finiteMap rawOps rawOps_lawful ⟨1, 1⟩ true crowdedWords ?_
  intro done hdone m answers hrun
  have hshort : ∀ done ∈ crowdedWords.inits,
      ∀ r ∈ mapRun rawOps ⟨1, 1⟩ done (beansMapNew true), r.1.used < 2 ^ 32 - 2 := by
    decide +kernel
  exact hshort done ((List.mem_inits _ _).mpr hdone) (m, answers) hrun

-- the index is there, and the entries stand in the order of their first insertion
example :
    (mapRun rawOps ⟨1, 1⟩ crowdedWords (beansMapNew true)).map
        (fun r => (r.1.idx.isSome, beansMapKeys r.1)) =
      some (true, [43, 76, 87, 109, 32]) := by
  decide +kernel

end Map
end Beans
