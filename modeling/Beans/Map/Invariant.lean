import Beans.Map.Index

/-!
# The map invariant

`Core` is what holds of a map whatever its index says: the counts agree with
the hole bitmap, the arrays are large enough and no two live entries have equal
keys.  `Ok` adds the index.  A reindex turns the first into the second.
-/

namespace Beans
namespace Map

open OpenAddressing AssocList

variable {K V : Type*}

namespace BMap

/-- A position holds an entry and is not a hole. -/
def Live (m : BMap K V) (p : ℕ) : Prop := p < m.used ∧ mapDead m p = false

/-- The holes marked in the bitmap. -/
def holes (m : BMap K V) : ℕ := (m.deadbits.getD []).count true

end BMap

def liveEntry (m : BMap K V) (p : ℕ) : Option (K × V) :=
  if mapDead m p then none else m.entries[p]?

theorem mapLive_eq (m : BMap K V) :
    mapLive m = (List.range m.used).filterMap (liveEntry m) := rfl

theorem liveEntry_eq_some_iff (m : BMap K V) (p : ℕ) (e : K × V) :
    liveEntry m p = some e ↔ m.Live p ∧ m.entries[p]? = some e := by
  unfold liveEntry BMap.Live BMap.used
  by_cases h : mapDead m p = true
  · simp [h]
  · rw [if_neg h]
    rw [Bool.not_eq_true] at h
    constructor
    · intro he
      exact ⟨⟨(List.getElem?_eq_some_iff.mp he).1, h⟩, he⟩
    · exact fun he => he.2

theorem BMap.Live.get {m : BMap K V} {p : ℕ} (h : m.Live p) :
    ∃ e, m.entries[p]? = some e :=
  ⟨_, List.getElem?_eq_getElem h.1⟩

theorem mem_mapLive (m : BMap K V) (e : K × V) :
    e ∈ mapLive m ↔ ∃ p, m.Live p ∧ m.entries[p]? = some e := by
  rw [mapLive_eq, List.mem_filterMap]
  constructor
  · rintro ⟨p, -, h⟩
    exact ⟨p, (liveEntry_eq_some_iff m p e).mp h⟩
  · rintro ⟨p, hp, h⟩
    exact ⟨p, List.mem_range.mpr hp.1, (liveEntry_eq_some_iff m p e).mpr ⟨hp, h⟩⟩

/-- Without holes every entry is live. -/
theorem mapLive_of_deadbits {m : BMap K V} (h : m.deadbits = none) :
    mapLive m = m.entries := by
  have hentry : liveEntry m = fun p => m.entries[p]? := by
    funext p
    rw [liveEntry, if_neg]
    rw [mapDead, h]
    exact Bool.false_ne_true
  rw [mapLive_eq, hentry, BMap.used]
  generalize m.entries = es
  induction es using List.reverseRecOn with
  | nil => rfl
  | append_singleton es e ih =>
    have hsame : (List.range es.length).filterMap (fun p => (es ++ [e])[p]?) =
        (List.range es.length).filterMap (fun p => es[p]?) := by
      refine List.filterMap_congr fun p hp => ?_
      exact List.getElem?_append_left (List.mem_range.mp hp)
    rw [List.length_append, List.length_singleton, List.range_succ,
      List.filterMap_append, hsame, ih]
    simp

theorem live_of_deadbits {m : BMap K V} (h : m.deadbits = none) (p : ℕ) :
    m.Live p ↔ p < m.used := by
  unfold BMap.Live mapDead
  rw [h]
  simp

theorem distinct_mapLive_iff (eq : K → K → Bool) (m : BMap K V) :
    Distinct eq (mapLive m) ↔
      ∀ p q e e', p < q → m.Live p → m.Live q → m.entries[p]? = some e →
        m.entries[q]? = some e' → eq e.1 e'.1 = false := by
  rw [Distinct, mapLive_eq, List.pairwise_filterMap,
    List.pairwise_iff_getElem]
  simp only [List.length_range, List.getElem_range]
  constructor
  · intro h p q e e' hpq hp hq he he'
    exact h p q hp.1 hq.1 hpq e ((liveEntry_eq_some_iff m p e).mpr ⟨hp, he⟩) e'
      ((liveEntry_eq_some_iff m q e').mpr ⟨hq, he'⟩)
  · intro h p q _ _ hpq e he e' he'
    obtain ⟨hp, he⟩ := (liveEntry_eq_some_iff m p e).mp he
    obtain ⟨hq, he'⟩ := (liveEntry_eq_some_iff m q e').mp he'
    exact h p q e e' hpq hp hq he he'

/-- Live positions with equal keys are one position. -/
theorem position_unique {ops : KeyOps K} (hl : ops.Lawful) {m : BMap K V}
    (hd : Distinct ops.slotEq (mapLive m)) {p q : ℕ} {e e' : K × V}
    (hp : m.Live p) (hq : m.Live q) (he : m.entries[p]? = some e)
    (he' : m.entries[q]? = some e') (heq : ops.slotEq e.1 e'.1 = true) :
    p = q := by
  have hpair := (distinct_mapLive_iff ops.slotEq m).mp hd
  rcases lt_trichotomy p q with h | h | h
  · rw [hpair p q e e' h hp hq he he'] at heq
    exact absurd heq Bool.false_ne_true
  · exact h
  · rw [hl.equivalence.comm, hpair q p e' e h hq hp he' he] at heq
    exact absurd heq Bool.false_ne_true

namespace BMap

/-- What holds of a map whatever its index says. -/
structure Core (ops : KeyOps K) (m : BMap K V) : Prop where
  used_eq : m.used = m.len + m.holes
  len_eq : (mapLive m).length = m.len
  dead_lt : ∀ p, mapDead m p = true → p < m.used
  fits : m.used ≤ m.cap
  cap_pos : 0 < m.cap
  bits_length : ∀ bits ∈ m.deadbits, bits.length = 64 * deadWords m.cap
  unordered : m.ordered = false → m.deadbits = none
  distinct : Distinct ops.slotEq (mapLive m)

/-- The invariant of a map between two operations. -/
structure Ok (ops : KeyOps K) (m : BMap K V) : Prop extends Core ops m where
  dense : m.used ≤ m.len * 2
  linear : m.idx = none → m.deadbits = none ∧ m.len ≤ mapLinearMax
  indexed : ∀ idx ∈ m.idx, Indexed ops m.entries m.Live idx m.tombs m.len
  room : ∀ idx ∈ m.idx, (m.len + m.tombs) * 3 < idx.length * 2

end BMap

theorem beansMapNew_ok (ops : KeyOps K) (ordered : Bool) :
    (beansMapNew ordered : BMap K V).Ok ops where
  used_eq := rfl
  len_eq := rfl
  dead_lt _ h := absurd h Bool.false_ne_true
  fits := Nat.zero_le _
  cap_pos := Nat.succ_pos 3
  bits_length _ h := nomatch h
  unordered _ := rfl
  distinct := List.Pairwise.nil
  dense := le_rfl
  linear _ := ⟨rfl, Nat.zero_le _⟩
  indexed _ h := nomatch h
  room _ h := nomatch h

theorem mapCompact_eq (m : BMap K V) :
    mapCompact m = { m with entries := mapLive m, deadbits := none } := by
  unfold mapCompact
  cases h : m.deadbits with
  | none =>
    dsimp only
    rw [mapLive_of_deadbits h]
    cases m
    simp only at h
    rw [h]
  | some bits => rfl

/-- A reindex keeps the live entries in their order and rebuilds the index,
with room to spare. -/
theorem mapReindexTo_spec {ops : KeyOps K} {m : BMap K V} (hc : m.Core ops)
    {reserve : ℕ} (hlen : m.len + 1 < 2 ^ 32) (hreserve : reserve ≤ 2 ^ 58) :
    ∃ m', mapReindexTo ops m reserve = some m' ∧ m'.Ok ops ∧
      m'.ordered = m.ordered ∧ mapLive m' = mapLive m ∧ m'.len = m.len := by
  have hcount := hc.len_eq
  obtain ⟨⟨e, he⟩, hroom, -⟩ := reindexCap_spec (max m.len reserve) 64 16
    ⟨4, rfl⟩ (by omega)
  have hfresh := Indexed.nil ops (mapLive m) e
  rw [← he] at hfresh
  obtain ⟨idx, hplace, hidxLen, hidx⟩ := placeEntries_spec ops (mapLive m)
    (mapLive m) 0 (List.replicate (reindexCap 64 16 (max m.len reserve)) 0)
    rfl (Nat.zero_le _) (by rw [List.length_replicate]; omega) (by omega)
    (hfresh.congr (fun q => by simp) fun _ _ => rfl)
  rw [List.length_replicate] at hidxLen
  have hlive : mapLive ({ m with
      entries := mapLive m, deadbits := none, idx := some idx, tombs := 0 } :
      BMap K V) = mapLive m := mapLive_of_deadbits rfl
  refine ⟨{ m with
    entries := mapLive m, deadbits := none, idx := some idx, tombs := 0 },
    ?_, ?_, rfl, hlive, rfl⟩
  · unfold mapReindexTo
    rw [mapCompact_eq]
    dsimp only
    rw [List.take_of_length_le hcount.le, hplace]
  · refine ⟨⟨?_, ?_, ?_, ?_, hc.cap_pos, ?_, fun _ => rfl, ?_⟩, ?_, ?_, ?_, ?_⟩
    · exact hcount
    · rw [hlive]
      exact hcount
    · intro p hp
      exact absurd hp Bool.false_ne_true
    · have := hc.used_eq
      have := hc.fits
      change (mapLive m).length ≤ m.cap
      omega
    · intro _ h
      cases h
    · rw [hlive]
      exact hc.distinct
    · change (mapLive m).length ≤ m.len * 2
      omega
    · intro h
      cases h
    · intro idx' h
      rw [Option.mem_some_iff] at h
      rw [← h, ← hcount]
      exact hidx.congr (fun q => live_of_deadbits rfl q) fun _ _ => rfl
    · intro idx' h
      rw [Option.mem_some_iff] at h
      rw [← h, hidxLen]
      dsimp only
      omega

section Search

variable {ops : KeyOps K} {m : BMap K V} {key : K}

/-- A search that found the key at a position. -/
structure FoundAt (ops : KeyOps K) (m : BMap K V) (key : K) (found : MapFound)
    (p : ℕ) (e : K × V) : Prop where
  position : found.position = some p
  live : m.Live p
  entry : m.entries[p]? = some e
  key_eq : ops.slotEq e.1 key = true
  slot : ∀ idx ∈ m.idx, found.slot < idx.length ∧
    slotAt idx found.slot = .full p

/-- A search that found nothing, and where it would insert. -/
structure FoundNone (ops : KeyOps K) (m : BMap K V) (key : K)
    (found : MapFound) : Prop where
  position : found.position = none
  absent : get ops.slotEq (mapLive m) key = none
  slot : ∀ idx ∈ m.idx, found.hash = ops.slotHash key ∧
    ∃ k < idx.length,
      found.slot = ((ops.slotHash key).toNat % idx.length + k) % idx.length ∧
      (∀ q, slotAt idx found.slot ≠ .full q) ∧
      ∀ j < k, slotAt idx
        (((ops.slotHash key).toNat % idx.length + j) % idx.length) ≠ .empty

theorem keyHit_iff (p : ℕ) :
    keyHit ops m.entries key p = true ↔
      ∃ e, m.entries[p]? = some e ∧ ops.slotEq e.1 key = true := by
  unfold keyHit
  cases m.entries[p]? <;> simp

theorem absent_iff :
    get ops.slotEq (mapLive m) key = none ↔
      ∀ p e, m.Live p → m.entries[p]? = some e →
        ops.slotEq e.1 key = false := by
  rw [get_eq_none_iff]
  constructor
  · intro h p e hp he
    exact h e ((mem_mapLive m e).mpr ⟨p, hp, he⟩)
  · intro h e hmem
    obtain ⟨p, hp, he⟩ := (mem_mapLive m e).mp hmem
    exact h p e hp he

/-- The probing loop stops, at the key where it is stored and else at a vacant
slot of the key's walk. -/
theorem mapFind_indexed (hl : ops.Lawful) {idx : List UInt64}
    (hm : m.idx = some idx)
    (hd : Distinct ops.slotEq (mapLive m))
    (hidx : Indexed ops m.entries m.Live idx m.tombs m.len)
    (hroom : (m.len + m.tombs) * 3 < idx.length * 2) :
    ∃ found, mapFind ops m key = some found ∧
      ((∃ p e, FoundAt ops m key found p e) ∨ FoundNone ops m key found) := by
  obtain ⟨e₂, hn⟩ := hidx.sized
  have hstart : mapMask idx.length (ops.slotHash key).toNat =
      (ops.slotHash key).toNat % idx.length := mapMask_eq hn _
  have hlt : (ops.slotHash key).toNat % idx.length < idx.length :=
    Nat.mod_lt _ hidx.length_pos
  obtain ⟨s, hs, hempty⟩ := hidx.exists_empty (by omega)
  obtain ⟨k₀, hk₀, hks⟩ := exists_offset hlt hs
  obtain ⟨k, hk, found, hfind, hstop, hbefore, hres⟩ := findLoop_spec ops
    m.entries idx key (ops.slotHash key) hn idx.length _ none hlt
    ⟨k₀, hk₀, Or.inl (by rw [hks]; exact hempty)⟩
  have hat : (((ops.slotHash key).toNat % idx.length) + k) % idx.length <
      idx.length := Nat.mod_lt _ hidx.length_pos
  refine ⟨found, ?_, ?_⟩
  · unfold mapFind
    rw [hm]
    dsimp only
    rw [hstart]
    exact hfind
  by_cases hstored : ∃ p e, m.Live p ∧ m.entries[p]? = some e ∧
      ops.slotEq e.1 key = true
  · obtain ⟨p, e, hp, he, hkey⟩ := hstored
    have hhash : hashAt ops m.entries p = ops.slotHash key := by
      rw [hashAt_of_getElem? ops he]
      exact hl.compatible _ _ hkey
    have hhome : homeAt ops m.entries idx.length p =
        (ops.slotHash key).toNat % idx.length := by
      rw [homeAt, hhash]
    have honly : ∀ q, m.Live q → keyHit ops m.entries key q = true → q = p := by
      intro q hq hhit
      obtain ⟨e', he', hkey'⟩ := (keyHit_iff q).mp hhit
      exact position_unique hl hd hq hp he' he
        (hl.equivalence.trans _ _ _ hkey' (hl.equivalence.symm _ _ hkey))
    have hfull : slotAt idx
        (((ops.slotHash key).toNat % idx.length + k) % idx.length) =
        .full p := by
      rw [← hhome] at hat hstop hbefore ⊢
      refine hidx.valid.stops_at hk hp honly ?_ ?_
      · rcases hstop with hstop | ⟨q, hq, -, hhit⟩
        · exact Or.inl hstop
        · exact Or.inr ⟨q, hq, hhit⟩
      · intro j hj hjp
        refine hbefore j hj (Or.inr ⟨p, hjp, ?_, (keyHit_iff p).mpr ⟨e, he, hkey⟩⟩)
        rw [hidx.fragment _ (Nat.mod_lt _ hidx.length_pos) p hjp, hhash]
    rcases hres with ⟨q, hq, hr⟩ | ⟨hemptyk, -⟩
    · rw [hfull, Slot.full.injEq] at hq
      subst hq
      refine Or.inl ⟨p, e, by rw [hr], hp, he, hkey, ?_⟩
      intro idx' hmem
      rw [hm, Option.mem_some_iff] at hmem
      rw [← hmem, hr]
      exact ⟨hat, hfull⟩
    · rw [hfull] at hemptyk
      cases hemptyk
  · have habsent : ∀ p e, m.Live p → m.entries[p]? = some e →
        ops.slotEq e.1 key = false := by
      intro p e hp he
      by_contra h
      exact hstored ⟨p, e, hp, he, (Bool.not_eq_false _).mp h⟩
    rcases hres with ⟨q, hq, -⟩ | ⟨-, s', hr, hs'⟩
    · have hlive := hidx.valid.live_of_full _ hat q hq
      rcases hstop with h | ⟨q', hq', -, hhit⟩
      · rw [hq] at h
        cases h
      · rw [hq, Slot.full.injEq] at hq'
        subst hq'
        obtain ⟨e', he', hkey'⟩ := (keyHit_iff q).mp hhit
        rw [habsent q e' hlive he'] at hkey'
        exact absurd hkey' Bool.false_ne_true
    · rcases hs' with h | ⟨-, j, hj, hsj, hvac⟩
      · cases h
      refine Or.inr ⟨by rw [hr], absent_iff.mpr habsent, ?_⟩
      intro idx' hmem
      rw [hm, Option.mem_some_iff] at hmem
      subst hmem
      rw [hr]
      refine ⟨rfl, j, by omega, hsj, hvac, ?_⟩
      intro j' hj' hempty'
      exact hbefore j' (by omega) (Or.inl hempty')

/-- A search always answers, and answers right. -/
theorem mapFind_spec (hl : ops.Lawful) (hm : m.Ok ops) (key : K) :
    ∃ found, mapFind ops m key = some found ∧
      ((∃ p e, FoundAt ops m key found p e) ∨ FoundNone ops m key found) := by
  cases hidx : m.idx with
  | some idx =>
    exact mapFind_indexed hl hidx hm.distinct (hm.indexed idx hidx)
      (hm.room idx hidx)
  | none =>
    obtain ⟨hdead, -⟩ := hm.linear hidx
    have hlive := mapLive_of_deadbits hdead
    have htake : m.entries.take m.len = m.entries := by
      rw [← hm.len_eq, hlive]
      exact List.take_length
    unfold mapFind
    rw [hidx]
    dsimp only
    rw [htake]
    refine ⟨_, rfl, ?_⟩
    cases hfind : m.entries.findIdx? (fun e => ops.slotEq e.1 key) with
    | none =>
      refine Or.inr ⟨rfl, ?_, fun idx h => by rw [hidx] at h; cases h⟩
      rw [get_eq_none_iff, hlive]
      exact List.findIdx?_eq_none_iff.mp hfind
    | some p =>
      obtain ⟨hp, hkey, -⟩ := List.findIdx?_eq_some_iff_getElem.mp hfind
      refine Or.inl ⟨p, m.entries[p], rfl, ?_, List.getElem?_eq_getElem hp,
        hkey, fun idx h => by rw [hidx] at h; cases h⟩
      exact (live_of_deadbits hdead p).mpr hp

end Search

end Map
end Beans
