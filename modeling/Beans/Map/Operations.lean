import Beans.Map.Invariant

/-!
# What each map operation does

One specification per operation of the entry array: storing into an entry,
reallocating, appending after a missed search, and the three ways an entry is
unlinked.  Each says that the invariant is kept and what becomes of the live
entries.
-/

namespace Beans
namespace Map

open OpenAddressing AssocList

variable {K V : Type*} {ops : KeyOps K} {m : BMap K V}

theorem mapStore_getElem? (m : BMap K V) (i : ℕ) (f : V → V) (q : ℕ) :
    (mapStore m i f).entries[q]? =
      if i = q then (m.entries[q]?).map (fun e => (e.1, f e.2))
      else m.entries[q]? := by
  rw [mapStore, List.getElem?_modify]
  split_ifs <;> simp

theorem mapStore_used (m : BMap K V) (i : ℕ) (f : V → V) :
    (mapStore m i f).used = m.used := List.length_modify _ _ _

theorem mapStore_hashAt (m : BMap K V) (i : ℕ) (f : V → V) (q : ℕ) :
    hashAt ops (mapStore m i f).entries q = hashAt ops m.entries q := by
  unfold hashAt
  rw [mapStore_getElem?]
  split_ifs
  · cases m.entries[q]? <;> rfl
  · rfl

/-- An update changes the entry of its key in place. -/
theorem mapStore_spec (hl : ops.Lawful) (hm : m.Ok ops) {key : K}
    {found : MapFound} {p : ℕ} {e : K × V}
    (hf : FoundAt ops m key found p e) (f : V → V) :
    (mapStore m p f).Ok ops ∧
      mapLive (mapStore m p f) = AssocList.modify ops.slotEq f key (mapLive m) := by
  have hlive : mapLive (mapStore m p f) =
      AssocList.modify ops.slotEq f key (mapLive m) := by
    unfold AssocList.modify
    rw [mapLive_eq, mapLive_eq, mapStore_used, List.map_filterMap]
    refine List.filterMap_congr fun q _ => ?_
    by_cases hdead : mapDead m q = true
    · have hq : liveEntry m q = none := if_pos hdead
      have hq' : liveEntry (mapStore m p f) q = none := if_pos hdead
      rw [hq, hq', Option.map_none]
    · have hq : liveEntry m q = m.entries[q]? := if_neg hdead
      have hq' : liveEntry (mapStore m p f) q =
          (mapStore m p f).entries[q]? := if_neg hdead
      rw [hq, hq', mapStore_getElem?]
      by_cases hpq : p = q
      · rw [if_pos hpq, ← hpq, hf.entry, Option.map_some, Option.map_some,
          if_pos hf.key_eq]
      · rw [if_neg hpq]
        cases he : m.entries[q]? with
        | none => rfl
        | some e' =>
          have hne : ¬ ops.slotEq e'.1 key = true := by
            intro hkey
            refine hpq (position_unique hl hm.distinct hf.live
              ⟨(List.getElem?_eq_some_iff.mp he).1,
                (Bool.not_eq_true _).mp hdead⟩ hf.entry he ?_)
            exact hl.equivalence.trans _ _ _ hf.key_eq
              (hl.equivalence.symm _ _ hkey)
          rw [Option.map_some, if_neg hne]
  have hused := mapStore_used m p f
  refine ⟨⟨⟨?_, ?_, ?_, ?_, hm.cap_pos, hm.bits_length, hm.unordered, ?_⟩,
    ?_, hm.linear, ?_, hm.room⟩, hlive⟩
  · rw [hused]
    exact hm.used_eq
  · rw [hlive]
    exact (List.length_map _).trans hm.len_eq
  · rw [hused]
    exact hm.dead_lt
  · rw [hused]
    exact hm.fits
  · rw [hlive]
    exact hm.distinct.modify f key
  · rw [hused]
    exact hm.dense
  · intro idx hidx
    refine (hm.indexed idx hidx).congr (fun q => ?_)
      fun q _ => mapStore_hashAt m p f q
    rw [BMap.Live, hused]
    rfl

theorem deadWords_le {old new : ℕ} (h : old ≤ new) :
    deadWords old ≤ deadWords new := by
  rw [deadWords, deadWords, Nat.shiftRight_eq_div_pow,
    Nat.shiftRight_eq_div_pow]
  exact Nat.div_le_div_right (by omega)

theorem le_deadWords (cap : ℕ) : cap ≤ 64 * deadWords cap := by
  rw [deadWords, Nat.shiftRight_eq_div_pow]
  omega

theorem mapRealloc_dead (m : BMap K V) (cap p : ℕ) :
    mapDead (mapRealloc m cap) p = mapDead m p := by
  unfold mapDead mapRealloc
  cases m.deadbits with
  | none => rfl
  | some bits =>
    simp only [Option.map_some, growDeadbits, List.getD_eq_getElem?_getD,
      List.getElem?_append, List.getElem?_replicate]
    split_ifs with h₁ h₂
    · rfl
    · rw [List.getElem?_eq_none (not_lt.mp h₁)]
      rfl
    · rw [List.getElem?_eq_none (not_lt.mp h₁)]

theorem mapRealloc_holes (m : BMap K V) (cap : ℕ) :
    (mapRealloc m cap).holes = m.holes := by
  unfold BMap.holes mapRealloc
  cases m.deadbits with
  | none => rfl
  | some bits => simp [growDeadbits, List.count_replicate]

theorem mapRealloc_mapLive (m : BMap K V) (cap : ℕ) :
    mapLive (mapRealloc m cap) = mapLive m := by
  rw [mapLive_eq, mapLive_eq]
  refine List.filterMap_congr fun q _ => ?_
  rw [liveEntry, liveEntry, mapRealloc_dead]
  rfl

theorem mapRealloc_core (hm : m.Core ops) {cap : ℕ} (hcap : m.cap ≤ cap) :
    (mapRealloc m cap).Core ops := by
  have hlive := mapRealloc_mapLive m cap
  refine ⟨?_, ?_, ?_, ?_, ?_, ?_, ?_, ?_⟩
  · rw [mapRealloc_holes]
    exact hm.used_eq
  · rw [hlive]
    exact hm.len_eq
  · intro p hp
    rw [mapRealloc_dead] at hp
    exact hm.dead_lt p hp
  · exact hm.fits.trans hcap
  · exact lt_of_lt_of_le hm.cap_pos hcap
  · intro bits' hbits'
    obtain ⟨bits, hbits, rfl⟩ := Option.map_eq_some_iff.mp hbits'
    have hlen := hm.bits_length bits hbits
    have := deadWords_le hcap
    change _ = 64 * deadWords cap
    rw [growDeadbits, List.length_append, List.length_replicate, hlen]
    omega
  · intro h
    change m.deadbits.map _ = none
    rw [hm.unordered h]
    rfl
  · rw [hlive]
    exact hm.distinct

theorem mapRealloc_ok (hm : m.Ok ops) {cap : ℕ} (hcap : m.cap ≤ cap) :
    (mapRealloc m cap).Ok ops := by
  refine ⟨mapRealloc_core hm.toCore hcap, hm.dense, ?_, ?_, hm.room⟩
  · intro h
    obtain ⟨hdead, hlen⟩ := hm.linear h
    refine ⟨?_, hlen⟩
    change m.deadbits.map _ = none
    rw [hdead]
    rfl
  · intro idx hidx
    refine (hm.indexed idx hidx).congr (fun q => ?_) fun _ _ => rfl
    rw [BMap.Live, mapRealloc_dead]
    rfl

/-- Growing makes room for one more entry and changes nothing else. -/
theorem mapGrow_spec (hm : m.Ok ops) :
    (mapGrow m).Ok ops ∧ (mapGrow m).used < (mapGrow m).cap ∧
      mapLive (mapGrow m) = mapLive m ∧
      (mapGrow m).entries = m.entries ∧ (mapGrow m).len = m.len ∧
      (mapGrow m).ordered = m.ordered ∧ (mapGrow m).idx = m.idx ∧
      (mapGrow m).tombs = m.tombs := by
  have hfits := hm.fits
  have hpos := hm.cap_pos
  unfold mapGrow
  by_cases h : m.used = m.cap
  · rw [if_pos h]
    refine ⟨mapRealloc_ok hm (by omega), ?_, mapRealloc_mapLive m _, rfl, rfl,
      rfl, rfl, rfl⟩
    change m.used < m.cap * 2
    omega
  · rw [if_neg h]
    exact ⟨hm, by omega, rfl, rfl, rfl, rfl, rfl, rfl⟩

theorem mapAppend_used (m : BMap K V) (key : K) (val : V) :
    (mapAppend m key val).used = m.used + 1 := by
  rw [BMap.used, mapAppend]
  exact List.length_append

theorem mapAppend_live (hm : m.Core ops) (key : K) (val : V) (q : ℕ) :
    (mapAppend m key val).Live q ↔ m.Live q ∨ q = m.used := by
  have hdead := hm.dead_lt q
  have hsame : mapDead (mapAppend m key val) q = mapDead m q := rfl
  rw [BMap.Live, BMap.Live, mapAppend_used, hsame]
  constructor
  · rintro ⟨hq, hq'⟩
    by_cases h : q = m.used
    · exact Or.inr h
    · exact Or.inl ⟨by omega, hq'⟩
  · rintro (⟨hq, hq'⟩ | rfl)
    · exact ⟨by omega, hq'⟩
    · refine ⟨by omega, ?_⟩
      by_contra h
      have := hdead ((Bool.not_eq_false _).mp h)
      omega

theorem mapAppend_mapLive (hm : m.Core ops) (key : K) (val : V) :
    mapLive (mapAppend m key val) = mapLive m ++ [(key, val)] := by
  have hlast : liveEntry (mapAppend m key val) m.used = some (key, val) := by
    rw [liveEntry_eq_some_iff, mapAppend_live hm]
    refine ⟨Or.inr rfl, ?_⟩
    exact List.getElem?_concat_length
  rw [mapLive_eq, mapLive_eq, mapAppend_used, List.range_succ,
    List.filterMap_append]
  congr 1
  · refine List.filterMap_congr fun q hq => ?_
    have hget : (mapAppend m key val).entries[q]? = m.entries[q]? :=
      List.getElem?_append_left (List.mem_range.mp hq)
    have hsame : mapDead (mapAppend m key val) q = mapDead m q := rfl
    rw [liveEntry, liveEntry, hsame, hget]
  · simp [hlast]

theorem mapAppend_core (hm : m.Core ops) {key : K} (val : V)
    (hfits : m.used < m.cap)
    (hnew : get ops.slotEq (mapLive m) key = none) :
    (mapAppend m key val).Core ops := by
  have hlive := mapAppend_mapLive hm key val
  have hused := mapAppend_used m key val
  have husedEq := hm.used_eq
  have hlen := hm.len_eq
  refine ⟨?_, ?_, ?_, ?_, hm.cap_pos, hm.bits_length, hm.unordered, ?_⟩
  · have hholes : (mapAppend m key val).holes = m.holes := rfl
    have hlen' : (mapAppend m key val).len = m.len + 1 := rfl
    omega
  · rw [hlive, List.length_append, hlen]
    rfl
  · intro p hp
    have := hm.dead_lt p hp
    omega
  · rw [hused]
    exact hfits
  · rw [hlive]
    exact hm.distinct.append_new val hnew

theorem slotOf_eq_tomb_iff (w : UInt64) :
    slotOf w = .tomb ↔ w &&& idxPos = 1 := by
  rcases slotOf_cases w with ⟨h, hs⟩ | ⟨h, hs⟩ | ⟨-, h, -, hs⟩
  · rw [hs, h]
    simp
  · rw [hs, h]
    simp
  · rw [hs]
    exact iff_of_false (by simp) h

/-- A missed search is followed by an append, and by a reindex where the index
fills up. -/
theorem mapInsertMiss_spec (hm : m.Ok ops) {key : K} (val : V)
    {found : MapFound} (hf : FoundNone ops m key found)
    (hsmall : m.used < 2 ^ 32 - 2) :
    ∃ m', mapInsertMiss ops m key val found = some m' ∧ m'.Ok ops ∧
      m'.ordered = m.ordered ∧ mapLive m' = mapLive m ++ [(key, val)] := by
  obtain ⟨hg, hfits, hlive, hentries, hlen, hord, hidx, htombs⟩ :=
    mapGrow_spec hm
  have hcore := mapAppend_core hg.toCore val hfits (by rw [hlive]; exact hf.absent)
  have hmapLive : mapLive (mapAppend (mapGrow m) key val) =
      mapLive m ++ [(key, val)] := by
    rw [mapAppend_mapLive hg.toCore, hlive]
  have hused : (mapGrow m).used = m.used := by
    rw [BMap.used, hentries, BMap.used]
  have hused' := mapAppend_used (mapGrow m) key val
  have hle : m.len ≤ m.used := by
    have := hm.used_eq
    omega
  have hlen' : (mapAppend (mapGrow m) key val).len = m.len + 1 := by
    rw [← hlen]
    rfl
  have hreindex : ∃ m', mapReindex ops (mapAppend (mapGrow m) key val) = some m' ∧
      m'.Ok ops ∧ m'.ordered = m.ordered ∧
      mapLive m' = mapLive m ++ [(key, val)] := by
    obtain ⟨m', heq, hok, hord', hlive', -⟩ :=
      mapReindexTo_spec hcore (by omega) (Nat.zero_le _)
    exact ⟨m', heq, hok, by rw [hord']; exact hord, by rw [hlive', hmapLive]⟩
  have hdense : (mapAppend (mapGrow m) key val).used ≤
      (mapAppend (mapGrow m) key val).len * 2 := by
    have := hm.dense
    omega
  unfold mapInsertMiss
  dsimp only
  have hidx' : (mapAppend (mapGrow m) key val).idx = m.idx := hidx
  cases hmidx : m.idx with
  | none =>
    rw [hidx', hmidx]
    dsimp only
    by_cases hgrow : mapLinearMax < (mapAppend (mapGrow m) key val).len
    · rw [if_pos hgrow]
      exact hreindex
    · rw [if_neg hgrow]
      refine ⟨_, rfl, ⟨hcore, hdense, fun _ => ⟨?_, by omega⟩, ?_, ?_⟩, hord,
        hmapLive⟩
      · exact (hg.linear (by rw [hidx, hmidx])).1
      · intro idx h
        rw [hidx', hmidx] at h
        cases h
      · intro idx h
        rw [hidx', hmidx] at h
        cases h
  | some idx =>
    obtain ⟨hhash, k, hk, hslot, hvac, hbefore⟩ := hf.slot idx hmidx
    rw [hidx', hmidx]
    dsimp only
    by_cases hfull : idx.length * 2 ≤
        ((mapAppend (mapGrow m) key val).used +
          (mapAppend (mapGrow m) key val).tombs) * 3
    · rw [if_pos hfull]
      exact hreindex
    · rw [if_neg hfull]
      have hget : (mapAppend (mapGrow m) key val).entries[m.used]? =
          some (key, val) := by
        change ((mapGrow m).entries ++ [(key, val)])[m.used]? = _
        rw [hentries]
        exact List.getElem?_concat_length
      have hhashAt : hashAt ops (mapAppend (mapGrow m) key val).entries m.used =
          ops.slotHash key := hashAt_of_getElem? ops hget
      have hhome : homeAt ops (mapAppend (mapGrow m) key val).entries idx.length
          m.used = (ops.slotHash key).toNat % idx.length := by
        rw [homeAt, hhashAt]
      have hkeepHash : ∀ q, m.Live q →
          hashAt ops (mapAppend (mapGrow m) key val).entries q =
            hashAt ops m.entries q := by
        intro q hq
        have : (mapAppend (mapGrow m) key val).entries[q]? = m.entries[q]? := by
          change ((mapGrow m).entries ++ [(key, val)])[q]? = _
          rw [hentries]
          exact List.getElem?_append_left hq.1
        rw [hashAt, hashAt, this]
      have hold := (hm.indexed idx hmidx).congr (fun _ => Iff.rfl) hkeepHash
      have hplaced := hold.place (p := m.used) hk (by omega)
        (fun h => lt_irrefl _ h.1)
        (by rw [hhome, ← hslot]; exact hvac)
        (by rw [hhome]; exact hbefore)
      rw [hhome, ← hslot, hhashAt] at hplaced
      have hword : (mapAppend (mapGrow m) key val).used - 1 = m.used := by
        omega
      have htombs' : (mapAppend (mapGrow m) key val).tombs = m.tombs := htombs
      have htomb : (if idx.getD found.slot 0 &&& idxPos = 1 then
          (mapAppend (mapGrow m) key val).tombs - 1
          else (mapAppend (mapGrow m) key val).tombs) =
          if slotAt idx found.slot = .tomb then m.tombs - 1 else m.tombs := by
        rw [htombs']
        simp only [slotAt, slotOf_eq_tomb_iff]
      rw [htomb, hword, hhash]
      refine ⟨_, rfl, ⟨⟨hcore.used_eq, hcore.len_eq, hcore.dead_lt,
        hcore.fits, hcore.cap_pos, hcore.bits_length, hcore.unordered,
        hcore.distinct⟩, hdense, fun h => ?_, ?_, ?_⟩, hord, hmapLive⟩
      · cases h
      · intro idx' h
        rw [Option.mem_some_iff] at h
        rw [← h]
        dsimp only
        rw [hlen']
        refine hplaced.congr (fun q => ?_) fun _ _ => rfl
        have := mapAppend_live hg.toCore key val q
        rw [hused] at this
        refine Iff.trans (b := (mapAppend (mapGrow m) key val).Live q) Iff.rfl
          (this.trans (or_congr_left ?_))
        unfold mapGrow
        split_ifs
        · rw [BMap.Live, mapRealloc_dead]
          rfl
        · exact Iff.rfl
      · intro idx' h
        rw [Option.mem_some_iff] at h
        rw [← h, List.length_set]
        dsimp only
        split_ifs <;> omega

theorem swapOut_eq {es : List (K × V)} {last : K × V} (init : List (K × V))
    (hes : es = init ++ [last]) (i : ℕ) :
    swapOut es i = if i < init.length then init.set i last else init := by
  unfold swapOut
  rw [hes, List.getLast?_concat]
  dsimp only
  by_cases h : i < init.length
  · rw [if_pos h, List.set_append_left _ _ h, List.dropLast_concat]
  · rw [if_neg h, List.set_append_right _ _ (by omega)]
    cases hi : i - init.length with
    | zero => rw [List.set_cons_zero, List.dropLast_concat]
    | succ j => rw [List.set_cons_succ, List.set_nil, List.dropLast_concat]

theorem swapOut_length (es : List (K × V)) {i : ℕ} (hi : i < es.length) :
    (swapOut es i).length = es.length - 1 := by
  obtain ⟨init, last, rfl⟩ := List.eq_nil_or_concat es |>.resolve_left
    (List.ne_nil_of_length_pos (by omega))
  rw [List.concat_eq_append, swapOut_eq init rfl]
  split_ifs <;> simp

/-- Moving the last entry over another one removes that entry. -/
theorem swapOut_perm (es : List (K × V)) {i : ℕ} (hi : i < es.length) :
    (swapOut es i).Perm (es.eraseIdx i) := by
  obtain ⟨init, last, rfl⟩ := List.eq_nil_or_concat es |>.resolve_left
    (List.ne_nil_of_length_pos (by omega))
  rw [List.concat_eq_append] at hi ⊢
  rw [swapOut_eq init rfl]
  by_cases h : i < init.length
  · rw [if_pos h, List.eraseIdx_append_of_lt_length h]
    exact (List.set_perm_cons_eraseIdx h last).trans
      (List.perm_append_singleton last _).symm
  · rw [List.length_append, List.length_singleton] at hi
    have hi' : i = init.length := by omega
    rw [if_neg h, hi', List.eraseIdx_append_of_length_le le_rfl, Nat.sub_self,
      List.eraseIdx_cons_zero, List.append_nil]

theorem swapOut_getElem? (es : List (K × V)) {i q : ℕ} (hi : i < es.length)
    (hq : q + 1 < es.length) :
    (swapOut es i)[q]? = if q = i then es[es.length - 1]? else es[q]? := by
  obtain ⟨init, last, rfl⟩ := List.eq_nil_or_concat es |>.resolve_left
    (List.ne_nil_of_length_pos (by omega))
  rw [List.concat_eq_append] at hi hq ⊢
  rw [List.length_append, List.length_singleton] at hi hq ⊢
  have hq' : (init ++ [last])[q]? = init[q]? :=
    List.getElem?_append_left (by omega)
  rw [swapOut_eq init rfl, hq', Nat.add_sub_cancel, List.getElem?_concat_length]
  by_cases hqi : q = i
  · rw [if_pos hqi, hqi, if_pos (by omega), List.getElem?_set_self (by omega)]
  · rw [if_neg hqi]
    split_ifs
    · rw [List.getElem?_set_ne (Ne.symm hqi)]
    · rfl

/-- What a removal leaves: the same entries without the one removed, in order
in an `OrderedMap`. -/
structure Removed (ops : KeyOps K) (m : BMap K V) (key : K) (m' : BMap K V) :
    Prop where
  ok : m'.Ok ops
  ordered : m'.ordered = m.ordered
  perm : (mapLive m').Perm (erase ops.slotEq key (mapLive m))
  order : m.ordered = true → mapLive m' = erase ops.slotEq key (mapLive m)

/-- A reindex after the entry is gone does not change what is left. -/
theorem Removed.reindex {m₁ : BMap K V} {key : K} (hcore : m₁.Core ops)
    (hsmall : m₁.len + 1 < 2 ^ 32) (hord : m₁.ordered = m.ordered)
    (hperm : (mapLive m₁).Perm (erase ops.slotEq key (mapLive m)))
    (horder : m.ordered = true →
      mapLive m₁ = erase ops.slotEq key (mapLive m)) :
    ∃ m', mapReindex ops m₁ = some m' ∧ Removed ops m key m' := by
  obtain ⟨m', heq, hok, hord', hlive, -⟩ :=
    mapReindexTo_spec hcore hsmall (Nat.zero_le _)
  exact ⟨m', heq, hok, by rw [hord', hord], by rw [hlive]; exact hperm,
    fun h => by rw [hlive]; exact horder h⟩

/-- A map without holes, from its entries alone. -/
theorem core_of_entries {m₁ : BMap K V} (hdead : m₁.deadbits = none)
    (hlen : m₁.entries.length = m₁.len) (hfits : m₁.used ≤ m₁.cap)
    (hcap : 0 < m₁.cap) (hd : Distinct ops.slotEq m₁.entries) :
    m₁.Core ops := by
  have hlive := mapLive_of_deadbits hdead
  have hholes : m₁.holes = 0 := by
    rw [BMap.holes, hdead]
    rfl
  refine ⟨?_, ?_, ?_, hfits, hcap, ?_, fun _ => hdead, ?_⟩
  · rw [hholes]
    exact hlen
  · rw [hlive]
    exact hlen
  · intro p hp
    rw [mapDead, hdead] at hp
    exact absurd hp Bool.false_ne_true
  · intro bits h
    rw [hdead] at h
    cases h
  · rw [hlive]
    exact hd

theorem FoundAt.erase_eq (hl : ops.Lawful) (hm : m.Ok ops) {key : K}
    {found : MapFound} {p : ℕ} {e : K × V} (hf : FoundAt ops m key found p e)
    (hdead : m.deadbits = none) :
    erase ops.slotEq key (mapLive m) = m.entries.eraseIdx p := by
  have hd := hm.distinct
  rw [mapLive_of_deadbits hdead] at hd ⊢
  obtain ⟨hp, he⟩ := List.getElem?_eq_some_iff.mp hf.entry
  exact erase_eq_eraseIdx hl.equivalence hd hp (by rw [he]; exact hf.key_eq)

/-- Without an index the entry is cut out of the array. -/
theorem mapUnlinkEntry_linear [Zero K] [Zero V] (hl : ops.Lawful) (hm : m.Ok ops) {key : K}
    {found : MapFound} {p : ℕ} {e : K × V} (hf : FoundAt ops m key found p e)
    (hidx : m.idx = none) :
    ∃ m', mapUnlinkEntry ops m p found.slot = some m' ∧
      Removed ops m key m' := by
  obtain ⟨hdead, hsmall⟩ := hm.linear hidx
  have herase := hf.erase_eq hl hm hdead
  have hp : p < m.entries.length := hf.live.1
  have hlen : m.entries.length = m.len := by
    rw [← hm.len_eq, mapLive_of_deadbits hdead]
  have hfits := hm.fits
  have hdist : Distinct ops.slotEq (m.entries.eraseIdx p) := by
    rw [← herase]
    exact hm.distinct.erase key
  have hkept : (if m.ordered then m.entries.eraseIdx p
      else swapOut m.entries p).Perm (m.entries.eraseIdx p) := by
    split_ifs
    · exact List.Perm.refl _
    · exact swapOut_perm m.entries hp
  have hkeptLen := hkept.length_eq
  rw [List.length_eraseIdx_of_lt hp] at hkeptLen
  generalize hm₁ : ({ m with
      entries := if m.ordered then m.entries.eraseIdx p
        else swapOut m.entries p
      len := m.len - 1 } : BMap K V) = m₁
  have hunlink : mapUnlinkEntry ops m p found.slot = some m₁ := by
    unfold mapUnlinkEntry
    simp only [hidx, ← hm₁]
  have hentries₁ : m₁.entries = if m.ordered then m.entries.eraseIdx p
      else swapOut m.entries p := by rw [← hm₁]
  have hlen₁ : m₁.len = m.len - 1 := by rw [← hm₁]
  have hdead₁ : m₁.deadbits = none := by
    rw [← hm₁]
    exact hdead
  have hidx₁ : m₁.idx = none := by
    rw [← hm₁]
    exact hidx
  have hcap₁ : m₁.cap = m.cap := by rw [← hm₁]
  have hord₁ : m₁.ordered = m.ordered := by rw [← hm₁]
  have hlive₁ : mapLive m₁ = m₁.entries := mapLive_of_deadbits hdead₁
  have hused : m.used = m.entries.length := rfl
  have hused₁ : m₁.used = m.used - 1 := by
    rw [BMap.used, hentries₁, hkeptLen, hused]
  have hcore : m₁.Core ops := by
    refine core_of_entries hdead₁ ?_ (by omega)
      (by rw [hcap₁]; exact hm.cap_pos) ?_
    · rw [hentries₁, hkeptLen, hlen, hlen₁]
    · rw [hentries₁]
      exact hdist.perm hl.equivalence hkept.symm
  refine ⟨m₁, hunlink, ⟨hcore, by omega, fun _ => ⟨hdead₁, by omega⟩, ?_, ?_⟩,
    hord₁, ?_, ?_⟩
  · intro idx h
    rw [hidx₁] at h
    cases h
  · intro idx h
    rw [hidx₁] at h
    cases h
  · rw [hlive₁, hentries₁, herase]
    exact hkept
  · intro hord
    rw [hlive₁, hentries₁, herase, if_pos hord]

/-- The word of the entry that moves is found and takes the new position. -/
theorem movedLoop_spec {entries : List (K × V)} {live : ℕ → Prop}
    {idx : List UInt64} {tombs len last : ℕ}
    (h : Indexed ops entries live idx tombs len) (hlast : live last)
    (hsmall : last + 2 < 2 ^ 32) :
    ∃ i < idx.length, slotAt idx i = .full last ∧
      movedLoop idx last idx.length
        (mapMask idx.length (hashAt ops entries last).toNat) = some i := by
  obtain ⟨e, hn⟩ := h.sized
  have hstart : mapMask idx.length (hashAt ops entries last).toNat =
      homeAt ops entries idx.length last := mapMask_eq hn _
  obtain ⟨k, hk, hat, -⟩ := h.valid.reach last hlast
  obtain ⟨k', -, hprobe, hstop, -⟩ := probe_round
    (fun i => decide (slotAt idx i = .full last))
    (i := homeAt ops entries idx.length last)
    (Nat.mod_lt _ h.length_pos) (Nat.mod_lt _ h.length_pos)
    (by rw [hat]; exact decide_eq_true rfl)
  refine ⟨_, Nat.mod_lt _ h.length_pos, of_decide_eq_true hstop, ?_⟩
  rw [movedLoop_eq_probe hn hsmall, hstart, hprobe]

/-- In an unordered map the last entry moves into the gap, and its index word
follows it. -/
theorem mapUnlinkEntry_unordered [Zero K] [Zero V] (hl : ops.Lawful) (hm : m.Ok ops) {key : K}
    {found : MapFound} {p : ℕ} {e : K × V} (hf : FoundAt ops m key found p e)
    {idx : List UInt64} (hidx : m.idx = some idx) (hord : m.ordered = false)
    (hsmall : m.used < 2 ^ 32 - 2) :
    ∃ m', mapUnlinkEntry ops m p found.slot = some m' ∧
      Removed ops m key m' := by
  have hdead := hm.unordered hord
  have herase := hf.erase_eq hl hm hdead
  have hp : p < m.entries.length := hf.live.1
  have hused : m.used = m.entries.length := rfl
  have hlen : m.entries.length = m.len := by
    rw [← hm.len_eq, mapLive_of_deadbits hdead]
  have hfits := hm.fits
  have hroom := hm.room idx hidx
  obtain ⟨hslotLt, hslot⟩ := hf.slot idx hidx
  have hburied := (hm.indexed idx hidx).bury hslotLt hslot
  have hswap := swapOut_perm m.entries hp
  have hswapLen := swapOut_length m.entries hp
  have hrepaired : ∃ idx', repairMoved ops m p (idx.set found.slot 1) =
      some idx' ∧ idx'.length = idx.length ∧
      Indexed ops (swapOut m.entries p) (fun q => q < m.used - 1) idx'
        (m.tombs + 1) (m.len - 1) := by
    unfold repairMoved
    dsimp only
    have hkeep : ∀ q, q < m.used - 1 → q ≠ p →
        hashAt ops (swapOut m.entries p) q = hashAt ops m.entries q := by
      intro q hq hne
      rw [hashAt, hashAt, swapOut_getElem? m.entries hp (by omega), if_neg hne]
    by_cases hmove : p ≠ m.used - 1
    · have hlast : m.entries[m.used - 1]? =
          some (m.entries.get ⟨m.used - 1, by omega⟩) :=
        List.getElem?_eq_getElem (by omega)
      have hhash := hashAt_of_getElem? ops hlast
      have hlive : m.Live (m.used - 1) :=
        (live_of_deadbits hdead _).mpr (by omega)
      obtain ⟨i', hi', hat, hloop⟩ := movedLoop_spec hburied
        ⟨hlive, fun h => hmove h.symm⟩ (by omega)
      have hsame : hashAt ops (swapOut m.entries p) p =
          hashAt ops m.entries (m.used - 1) := by
        rw [hashAt, hashAt, swapOut_getElem? m.entries hp (by omega),
          if_pos rfl, hused]
      have hdone := hburied.relabel (q := p)
        hi' hat (by omega) (fun h => h.2 rfl)
        (fun r hr hne => hkeep r (by have := hr.1.1; omega) hr.2) hsame
      refine ⟨_, ?_, ?_, hdone.congr (fun q => ?_) fun _ _ => rfl⟩
      · rw [if_pos hmove, hlast]
        dsimp only
        rw [← hhash, hloop, Option.map_some]
        rfl
      · rw [List.length_set, List.length_set]
      · rw [live_of_deadbits hdead]
        omega
    · have hpLast : p = m.used - 1 := not_not.mp hmove
      refine ⟨_, if_neg hmove, List.length_set,
        hburied.congr (fun q => ?_) fun q hq => ?_⟩
      · rw [live_of_deadbits hdead]
        omega
      · have := hq.1.1
        exact hkeep q (by have := hq.2; omega) hq.2
  obtain ⟨idx', hrep, hidxLen, hindexed⟩ := hrepaired
  generalize hm₁ : ({ m with
      entries := swapOut m.entries p
      len := m.len - 1
      idx := some idx'
      tombs := m.tombs + 1 } : BMap K V) = m₁
  have hunlink : mapUnlinkEntry ops m p found.slot =
      if m₁.len < m₁.tombs then mapReindex ops m₁ else some m₁ := by
    unfold mapUnlinkEntry
    simp only [hidx, hord, if_true, hrep, ← hm₁]
  have hentries₁ : m₁.entries = swapOut m.entries p := by rw [← hm₁]
  have hlen₁ : m₁.len = m.len - 1 := by rw [← hm₁]
  have hidx₁ : m₁.idx = some idx' := by rw [← hm₁]
  have htombs₁ : m₁.tombs = m.tombs + 1 := by rw [← hm₁]
  have hcap₁ : m₁.cap = m.cap := by rw [← hm₁]
  have hord₁ : m₁.ordered = m.ordered := by rw [← hm₁]
  have hdead₁ : m₁.deadbits = none := by
    rw [← hm₁]
    exact hdead
  have hlive₁ : mapLive m₁ = m₁.entries := mapLive_of_deadbits hdead₁
  have hused₁ : m₁.used = m.used - 1 := by
    rw [BMap.used, hentries₁, hswapLen, hused]
  have hcore : m₁.Core ops := by
    refine core_of_entries hdead₁ ?_ (by omega)
      (by rw [hcap₁]; exact hm.cap_pos) ?_
    · rw [hentries₁, hswapLen, hlen, hlen₁]
    · rw [hentries₁]
      refine Distinct.perm hl.equivalence ?_ hswap.symm
      rw [← herase]
      exact hm.distinct.erase key
  have hperm : (mapLive m₁).Perm (erase ops.slotEq key (mapLive m)) := by
    rw [hlive₁, hentries₁, herase]
    exact hswap
  have horder : m.ordered = true →
      mapLive m₁ = erase ops.slotEq key (mapLive m) := by
    intro h
    rw [hord] at h
    cases h
  rw [hunlink]
  by_cases hre : m₁.len < m₁.tombs
  · rw [if_pos hre]
    exact Removed.reindex hcore (by omega) hord₁ hperm horder
  · rw [if_neg hre]
    refine ⟨m₁, rfl, ⟨hcore, by omega, fun h => ?_, ?_, ?_⟩, hord₁, hperm,
      horder⟩
    · rw [hidx₁] at h
      cases h
    · intro idx₂ h
      rw [hidx₁, Option.mem_some_iff] at h
      rw [← h, hentries₁, hlen₁, htombs₁]
      refine hindexed.congr (fun q => ?_) fun _ _ => rfl
      rw [live_of_deadbits hdead₁, hused₁]
    · intro idx₂ h
      rw [hidx₁, Option.mem_some_iff] at h
      rw [← h, hidxLen, hlen₁, htombs₁]
      omega

/-- The hole an `OrderedMap` leaves in place of an entry. -/
theorem getD_set_true (bits : List Bool) {p : ℕ} (hp : p < bits.length)
    (q : ℕ) :
    (bits.set p true).getD q false = (decide (q = p) || bits.getD q false) := by
  by_cases hqp : q = p
  · subst hqp
    rw [List.getD_eq_getElem?_getD, List.getElem?_set_self hp,
      decide_eq_true rfl]
    rfl
  · rw [List.getD_eq_getElem?_getD, List.getElem?_set_ne (Ne.symm hqp),
      ← List.getD_eq_getElem?_getD, decide_eq_false hqp, Bool.false_or]

/-- In an ordered map the entry becomes a hole. -/
theorem mapUnlinkEntry_ordered [Zero K] [Zero V] (hl : ops.Lawful) (hm : m.Ok ops) {key : K}
    {found : MapFound} {p : ℕ} {e : K × V} (hf : FoundAt ops m key found p e)
    {idx : List UInt64} (hidx : m.idx = some idx) (hord : m.ordered = true)
    (hsmall : m.used < 2 ^ 32 - 2) :
    ∃ m', mapUnlinkEntry ops m p found.slot = some m' ∧
      Removed ops m key m' := by
  obtain ⟨bits, hbits, hbitsLen⟩ : ∃ bits,
      m.deadbits.getD (List.replicate (64 * deadWords m.cap) false) = bits ∧
        bits.length = 64 * deadWords m.cap := by
    refine ⟨_, rfl, ?_⟩
    cases h : m.deadbits with
    | none => exact List.length_replicate
    | some bits => exact hm.bits_length bits h
  have hdeadBits : ∀ q, mapDead m q = bits.getD q false := by
    intro q
    rw [← hbits, mapDead]
    cases m.deadbits with
    | none =>
      dsimp only [Option.getD]
      rw [List.getD_eq_getElem?_getD, List.getElem?_replicate]
      split_ifs <;> rfl
    | some bits => rfl
  have hholes : m.holes = bits.count true := by
    rw [← hbits, BMap.holes]
    cases m.deadbits with
    | none => simp [List.count_replicate]
    | some bits => rfl
  have hp : p < m.used := hf.live.1
  have hfits := hm.fits
  have hcap := le_deadWords m.cap
  have hpBits : p < bits.length := by omega
  have hused := hm.used_eq
  have hlenEq := hm.len_eq
  have hpos : 0 < m.len := by
    rw [← hlenEq]
    exact List.length_pos_of_mem ((mem_mapLive m e).mpr ⟨p, hf.live, hf.entry⟩)
  obtain ⟨hslotLt, hslot⟩ := hf.slot idx hidx
  have hburied := (hm.indexed idx hidx).bury hslotLt hslot
  have hroom := hm.room idx hidx
  generalize hm₁ : ({ m with
      entries := m.entries.set p (0, 0)
      deadbits := some (bits.set p true)
      len := m.len - 1
      idx := some (idx.set found.slot 1)
      tombs := m.tombs + 1 } : BMap K V) = m₁
  have hused₁ : m₁.used = m.used := by
    rw [← hm₁]
    exact List.length_set
  have hlen₁ : m₁.len = m.len - 1 := by rw [← hm₁]
  have hcap₁ : m₁.cap = m.cap := by rw [← hm₁]
  have hord₁ : m₁.ordered = m.ordered := by rw [← hm₁]
  have hidx₁ : m₁.idx = some (idx.set found.slot 1) := by rw [← hm₁]
  have htombs₁ : m₁.tombs = m.tombs + 1 := by rw [← hm₁]
  have hdead₁ : ∀ q, mapDead m₁ q = (decide (q = p) || mapDead m q) := by
    intro q
    rw [← hm₁, hdeadBits]
    exact getD_set_true bits hpBits q
  have hget₁ : ∀ q, q ≠ p → m₁.entries[q]? = m.entries[q]? := by
    intro q hq
    rw [← hm₁]
    exact List.getElem?_set_ne (Ne.symm hq)
  have hholes₁ : m₁.holes = m.holes + 1 := by
    have hwas : bits[p] = false := by
      have := hf.live.2
      rw [hdeadBits, List.getD_eq_getElem?_getD,
        List.getElem?_eq_getElem hpBits] at this
      exact this
    rw [hholes, ← hm₁]
    change (bits.set p true).count true = _
    rw [List.count_set hpBits, hwas]
    simp
  have hlive₁ : mapLive m₁ = erase ops.slotEq key (mapLive m) := by
    unfold erase
    rw [mapLive_eq, mapLive_eq, hused₁, List.filter_filterMap]
    refine List.filterMap_congr fun q _ => ?_
    by_cases hqp : q = p
    · have hentry : liveEntry m q = some e := by
        rw [liveEntry_eq_some_iff, hqp]
        exact ⟨hf.live, hf.entry⟩
      rw [liveEntry, hdead₁, hentry, decide_eq_true hqp, Bool.true_or,
        if_pos rfl, Option.filter_some, hf.key_eq]
      rfl
    · have hsame : liveEntry m₁ q = liveEntry m q := by
        rw [liveEntry, liveEntry, hdead₁, decide_eq_false hqp, Bool.false_or,
          hget₁ q hqp]
      rw [hsame]
      cases hentry : liveEntry m q with
      | none => rfl
      | some e' =>
        obtain ⟨hq, he'⟩ := (liveEntry_eq_some_iff m q e').mp hentry
        have hne : ops.slotEq e'.1 key = false := by
          by_contra h
          refine hqp (position_unique hl hm.distinct hq hf.live he' hf.entry
            ?_)
          exact hl.equivalence.trans _ _ _ ((Bool.not_eq_false _).mp h)
            (hl.equivalence.symm _ _ hf.key_eq)
        rw [Option.filter_some, hne]
        rfl
  have hcore : m₁.Core ops := by
    refine ⟨by omega, ?_, ?_, by omega, by rw [hcap₁]; exact hm.cap_pos, ?_, ?_,
      ?_⟩
    · have hcount := (mem_mapLive m e).mpr ⟨p, hf.live, hf.entry⟩
      obtain ⟨i, hi, hie⟩ := List.getElem_of_mem hcount
      rw [hlive₁, erase_eq_eraseIdx hl.equivalence hm.distinct hi
        (by rw [hie]; exact hf.key_eq), List.length_eraseIdx_of_lt hi]
      omega
    · intro q hq
      rw [hdead₁, Bool.or_eq_true, decide_eq_true_iff] at hq
      rcases hq with rfl | hq
      · omega
      · have := hm.dead_lt q hq
        omega
    · intro bits' h
      rw [← hm₁, Option.mem_some_iff] at h
      rw [← h, hcap₁, List.length_set]
      exact hbitsLen
    · intro h
      rw [hord₁, hord] at h
      cases h
    · rw [hlive₁]
      exact hm.distinct.erase key
  have hunlink : mapUnlinkEntry ops m p found.slot =
      if m₁.len * 2 < m₁.used then mapReindex ops m₁ else some m₁ := by
    unfold mapUnlinkEntry
    simp only [hidx, hord, Bool.true_eq_false, if_false, hbits, ← hm₁]
  rw [hunlink]
  by_cases hre : m₁.len * 2 < m₁.used
  · rw [if_pos hre]
    exact Removed.reindex hcore (by omega) hord₁
      (by rw [hlive₁]) fun _ => hlive₁
  · rw [if_neg hre]
    refine ⟨_, rfl, ⟨hcore, by omega, fun h => ?_, ?_, ?_⟩, hord₁,
      by rw [hlive₁], fun _ => hlive₁⟩
    · rw [hidx₁] at h
      cases h
    · intro idx₂ h
      rw [hidx₁, Option.mem_some_iff] at h
      rw [← h, hlen₁, htombs₁]
      refine hburied.congr (fun q => ?_) fun q hq => ?_
      · rw [BMap.Live, BMap.Live, hused₁, hdead₁]
        simp only [Bool.or_eq_false_iff, decide_eq_false_iff_not]
        tauto
      · rw [hashAt, hashAt, hget₁ q hq.2]
    · intro idx₂ h
      rw [hidx₁, Option.mem_some_iff] at h
      rw [← h, hlen₁, htombs₁, List.length_set]
      omega

theorem bump_ok (hm : m.Ok ops) : (mapBumpVersion m).Ok ops :=
  ⟨⟨hm.used_eq, hm.len_eq, hm.dead_lt, hm.fits, hm.cap_pos, hm.bits_length,
    hm.unordered, hm.distinct⟩, hm.dense, hm.linear, hm.indexed, hm.room⟩

/-- A removal takes out the entry of the key and nothing else. -/
theorem mapRemoveFound_spec [Zero K] [Zero V] (hl : ops.Lawful) (hm : m.Ok ops) {key : K}
    {found : MapFound} {p : ℕ} {e : K × V} (hf : FoundAt ops m key found p e)
    (hsmall : m.used < 2 ^ 32 - 2) :
    ∃ m', mapRemoveFound ops m p found.slot = some m' ∧
      Removed ops m key m' := by
  have hb := bump_ok hm
  have hf' : FoundAt ops (mapBumpVersion m) key found p e :=
    ⟨hf.position, hf.live, hf.entry, hf.key_eq, hf.slot⟩
  have hgoal : ∃ m', mapUnlinkEntry ops (mapBumpVersion m) p found.slot =
      some m' ∧ Removed ops (mapBumpVersion m) key m' := by
    cases hidx : m.idx with
    | none => exact mapUnlinkEntry_linear hl hb hf' hidx
    | some idx =>
      cases hord : m.ordered with
      | false => exact mapUnlinkEntry_unordered hl hb hf' hidx hord hsmall
      | true => exact mapUnlinkEntry_ordered hl hb hf' hidx hord hsmall
  obtain ⟨m', heq, hr⟩ := hgoal
  exact ⟨m', heq, hr.ok, hr.ordered, hr.perm, hr.order⟩

end Map
end Beans
