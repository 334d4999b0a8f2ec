import Beans.Foundation.OpenAddressing
import Beans.Map.Model

/-!
# The map's index

Index words are read as slots of an open-addressed table whose items are entry
positions.  `Indexed` says that an index stores exactly the live positions,
each with the fragment of its key's hash; the probing loops of the source are
the walks of the table, and every write keeps the invariant.
-/

namespace Beans
namespace Map

open OpenAddressing

/-- Equal keys hash alike, and equality is an equivalence. -/
structure KeyOps.Lawful {K : Type*} (ops : KeyOps K) : Prop where
  equivalence : AssocList.KeyEquivalence ops.slotEq
  compatible : ∀ a b, ops.slotEq a b = true → ops.slotHash a = ops.slotHash b

theorem rawOps_lawful : rawOps.Lawful where
  equivalence :=
    { refl := fun _ => beq_self_eq_true _
      symm := fun a b h => by
        rw [(beq_iff_eq (a := a) (b := b)).mp h]
        exact beq_self_eq_true b
      trans := fun a b c h h' => by
        rw [(beq_iff_eq (a := a) (b := b)).mp h]
        exact h' }
  compatible a b h := by rw [(beq_iff_eq (a := a) (b := b)).mp h]

theorem and_idxPos_toNat (w : UInt64) :
    (w &&& idxPos).toNat = w.toNat % 2 ^ 32 := by
  rw [UInt64.toNat_and]
  exact Nat.and_two_pow_sub_one_eq_mod w.toNat 32

variable {w : UInt64} {i p : ℕ}

theorem and_idxPos_of_lt (hw : w.toNat < 2 ^ 32) :
    w &&& idxPos = w := by
  rw [← UInt64.toNat_inj, and_idxPos_toNat, Nat.mod_eq_of_lt hw]

theorem idxPos_and_idxFrag : idxPos &&& idxFrag = 0 := by decide

theorem or_and_distrib (a b c : UInt64) :
    (a ||| b) &&& c = (a &&& c) ||| (b &&& c) := by
  refine UInt64.toBitVec_inj.mp ?_
  simp only [UInt64.toBitVec_and, UInt64.toBitVec_or]
  exact BitVec.and_or_distrib_right

theorem position_toNat (hp : p + 2 < 2 ^ 32) :
    (UInt64.ofNat (p + 2)).toNat = p + 2 := by
  rw [UInt64.toNat_ofNat']
  exact Nat.mod_eq_of_lt (by omega)

theorem indexWord_pos (h : UInt64) (hp : p + 2 < 2 ^ 32) :
    indexWord h p &&& idxPos = UInt64.ofNat (p + 2) := by
  have hval := position_toNat hp
  rw [indexWord, or_and_distrib, UInt64.and_assoc, UInt64.and_comm idxFrag,
    idxPos_and_idxFrag, UInt64.and_zero, UInt64.zero_or,
    and_idxPos_of_lt (by omega)]

theorem indexWord_frag (h : UInt64) (hp : p + 2 < 2 ^ 32) :
    indexWord h p &&& idxFrag = h &&& idxFrag := by
  have hval := position_toNat hp
  have hlow : UInt64.ofNat (p + 2) &&& idxFrag = 0 := by
    rw [← and_idxPos_of_lt (w := UInt64.ofNat (p + 2)) (by omega),
      UInt64.and_assoc, idxPos_and_idxFrag, UInt64.and_zero]
  rw [indexWord, or_and_distrib, UInt64.and_assoc, UInt64.and_self, hlow,
    UInt64.or_zero]

/-- An index word as a slot. -/
def slotOf (w : UInt64) : Slot ℕ :=
  match (w &&& idxPos).toNat with
  | 0 => .empty
  | 1 => .tomb
  | p + 2 => .full p

theorem slotOf_cases (w : UInt64) :
    (w &&& idxPos = 0 ∧ slotOf w = .empty) ∨
    (w &&& idxPos = 1 ∧ slotOf w = .tomb) ∨
    (w &&& idxPos ≠ 0 ∧ w &&& idxPos ≠ 1 ∧ 2 ≤ w &&& idxPos ∧
      slotOf w = .full ((w &&& idxPos).toNat - 2)) := by
  unfold slotOf
  rcases h : (w &&& idxPos).toNat with _ | _ | p
  · exact Or.inl ⟨UInt64.toNat_inj.mp h, rfl⟩
  · exact Or.inr (Or.inl ⟨UInt64.toNat_inj.mp h, rfl⟩)
  · refine Or.inr (Or.inr ⟨?_, ?_, ?_, rfl⟩)
    · intro h0
      rw [h0] at h
      cases h
    · intro h1
      rw [h1] at h
      cases h
    · rw [UInt64.le_iff_toNat_le, h]
      exact Nat.le_add_left 2 p

theorem slotOf_indexWord (h : UInt64) (hp : p + 2 < 2 ^ 32) :
    slotOf (indexWord h p) = .full p := by
  rw [slotOf, indexWord_pos h hp, position_toNat hp]

theorem slotOf_eq_full_iff (hp : p + 2 < 2 ^ 32) :
    slotOf w = .full p ↔ w &&& idxPos = UInt64.ofNat (p + 2) := by
  have hval := position_toNat hp
  rw [slotOf, ← UInt64.toNat_inj, hval]
  rcases (w &&& idxPos).toNat with _ | _ | q <;> simp

def slotAt (idx : List UInt64) (i : ℕ) : Slot ℕ := slotOf (idx.getD i 0)

theorem slotAt_set {idx : List UInt64} (w : UInt64)
    (hi : i < idx.length) :
    slotAt (idx.set i w) = Function.update (slotAt idx) i (slotOf w) := by
  funext j
  by_cases hji : j = i
  · subst hji
    rw [Function.update_self, slotAt, List.getD_eq_getElem?_getD,
      List.getElem?_set_self hi]
    rfl
  · rw [Function.update_of_ne hji, slotAt, slotAt,
      List.getD_eq_getElem?_getD, List.getElem?_set_ne (Ne.symm hji),
      ← List.getD_eq_getElem?_getD]

theorem getD_set_self {idx : List UInt64} (w : UInt64)
    (hi : i < idx.length) : (idx.set i w).getD i 0 = w := by
  rw [List.getD_eq_getElem?_getD, List.getElem?_set_self hi]
  rfl

theorem getD_set_of_ne {idx : List UInt64} {j : ℕ} (w : UInt64)
    (h : j ≠ i) : (idx.set i w).getD j 0 = idx.getD j 0 := by
  rw [List.getD_eq_getElem?_getD, List.getElem?_set_ne (Ne.symm h),
    ← List.getD_eq_getElem?_getD]

theorem slotAt_replicate (n : ℕ) :
    slotAt (List.replicate n 0) = fun _ => .empty := by
  funext i
  have hzero : (List.replicate n (0 : UInt64)).getD i 0 = 0 := by
    rw [List.getD_eq_getElem?_getD, List.getElem?_replicate]
    split_ifs <;> rfl
  rw [slotAt, hzero]
  rfl

theorem mapMask_eq {n e : ℕ} (hn : n = 2 ^ e) (i : ℕ) :
    mapMask n i = i % n := by
  rw [mapMask, hn]
  exact Nat.and_two_pow_sub_one_eq_mod i e

theorem placeLoop_eq_probe {idx : List UInt64} {e : ℕ}
    (hn : idx.length = 2 ^ e) :
    ∀ fuel i, placeLoop idx fuel i =
      probe (fun i => (slotAt idx i).isEmpty) idx.length fuel i
  | 0, _ => rfl
  | fuel + 1, i => by
      rw [placeLoop, probe, mapMask_eq hn, placeLoop_eq_probe hn fuel]
      rcases slotOf_cases (idx.getD i 0) with ⟨h, hs⟩ | ⟨h, hs⟩ | ⟨h, -, -, hs⟩
      · rw [if_neg (not_not.mpr h), slotAt, hs]
        rfl
      · rw [if_pos (by rw [h]; decide), slotAt, hs]
        rfl
      · rw [if_pos h, slotAt, hs]
        rfl

theorem movedLoop_eq_probe {idx : List UInt64} {e last : ℕ}
    (hn : idx.length = 2 ^ e) (hlast : last + 2 < 2 ^ 32) :
    ∀ fuel i, movedLoop idx last fuel i =
      probe (fun i => decide (slotAt idx i = .full last)) idx.length fuel i
  | 0, _ => rfl
  | fuel + 1, i => by
      rw [movedLoop, probe, mapMask_eq hn, movedLoop_eq_probe hn hlast fuel]
      simp only [decide_eq_true_eq, slotAt, slotOf_eq_full_iff hlast]

variable {K V : Type*}

/-- The hash of the key at a position. -/
def hashAt (ops : KeyOps K) (entries : List (K × V)) (p : ℕ) : UInt64 :=
  match entries[p]? with
  | none => 0
  | some e => ops.slotHash e.1

theorem hashAt_of_getElem? (ops : KeyOps K) {entries : List (K × V)}
    {e : K × V} (h : entries[p]? = some e) :
    hashAt ops entries p = ops.slotHash e.1 := by
  rw [hashAt, h]

/-- The slot where the search for a position's key starts. -/
def homeAt (ops : KeyOps K) (entries : List (K × V)) (n p : ℕ) : ℕ :=
  (hashAt ops entries p).toNat % n

/-- An index that stores the positions of `live`. -/
structure Indexed (ops : KeyOps K) (entries : List (K × V)) (live : ℕ → Prop)
    (idx : List UInt64) (tombs len : ℕ) : Prop where
  sized : ∃ e, idx.length = 2 ^ e
  valid : Valid idx.length (homeAt ops entries idx.length) live (slotAt idx)
  fragment : ∀ i < idx.length, ∀ p, slotAt idx i = .full p →
    idx.getD i 0 &&& idxFrag = hashAt ops entries p &&& idxFrag
  tombs_eq : tally Slot.isTomb (slotAt idx) idx.length = tombs
  full_eq : tally Slot.isFull (slotAt idx) idx.length = len

namespace Indexed

variable {ops : KeyOps K} {entries : List (K × V)} {live : ℕ → Prop}
  {idx : List UInt64} {tombs len : ℕ}

theorem length_pos (h : Indexed ops entries live idx tombs len) :
    0 < idx.length := by
  obtain ⟨e, he⟩ := h.sized
  rw [he]
  positivity

/-- The index reads the keys of live positions only. -/
theorem congr (h : Indexed ops entries live idx tombs len)
    {entries' : List (K × V)} {live' : ℕ → Prop}
    (hlive : ∀ p, live' p ↔ live p)
    (hhash : ∀ p, live p → hashAt ops entries' p = hashAt ops entries p) :
    Indexed ops entries' live' idx tombs len where
  sized := h.sized
  valid := h.valid.congr hlive fun p hp => by
    rw [homeAt, homeAt, hhash p hp]
  fragment i hi p hp := by
    rw [hhash p (h.valid.live_of_full i hi p hp)]
    exact h.fragment i hi p hp
  tombs_eq := h.tombs_eq
  full_eq := h.full_eq

theorem nil (ops : KeyOps K) (entries : List (K × V)) (e : ℕ) :
    Indexed ops entries (fun _ => False) (List.replicate (2 ^ e) 0) 0 0 where
  sized := ⟨e, List.length_replicate⟩
  valid := by
    rw [slotAt_replicate]
    exact Valid.nil _ _
  fragment i _ p hp := by
    rw [slotAt_replicate] at hp
    cases hp
  tombs_eq := by
    rw [slotAt_replicate]
    exact Finset.sum_eq_zero fun _ _ => rfl
  full_eq := by
    rw [slotAt_replicate]
    exact Finset.sum_eq_zero fun _ _ => rfl

theorem exists_empty (h : Indexed ops entries live idx tombs len)
    (hroom : tombs + len < idx.length) :
    ∃ i < idx.length, slotAt idx i = .empty :=
  OpenAddressing.exists_empty (by rw [h.tombs_eq, h.full_eq]; exact hroom)

/-- A new position is written into a vacant slot of its walk. -/
theorem place (h : Indexed ops entries live idx tombs len) {p k : ℕ}
    (hk : k < idx.length) (hp : p + 2 < 2 ^ 32) (hnew : ¬ live p)
    (hvacant : ∀ q,
      slotAt idx ((homeAt ops entries idx.length p + k) % idx.length) ≠ .full q)
    (hbefore : ∀ j < k,
      slotAt idx ((homeAt ops entries idx.length p + j) % idx.length) ≠ .empty) :
    Indexed ops entries (fun q => live q ∨ q = p)
      (idx.set ((homeAt ops entries idx.length p + k) % idx.length)
        (indexWord (hashAt ops entries p) p))
      (if slotAt idx ((homeAt ops entries idx.length p + k) % idx.length) = .tomb
        then tombs - 1 else tombs)
      (len + 1) := by
  have hlt : (homeAt ops entries idx.length p + k) % idx.length < idx.length :=
    Nat.mod_lt _ h.length_pos
  have hslot := slotOf_indexWord (hashAt ops entries p) hp
  have htable := slotAt_set (indexWord (hashAt ops entries p) p) hlt
  have hvalid := h.valid.place hk hvacant hbefore hnew
  have htombs := tally_update Slot.isTomb (slotAt idx) (.full p) hlt
  have hfull := tally_update Slot.isFull (slotAt idx) (.full p) hlt
  generalize (homeAt ops entries idx.length p + k) % idx.length = i at *
  rw [h.tombs_eq] at htombs
  rw [h.full_eq] at hfull
  rw [hslot] at htable
  refine ⟨?_, ?_, ?_, ?_, ?_⟩
  · rw [List.length_set]
    exact h.sized
  · rw [List.length_set, htable]
    exact hvalid
  · intro j hj q hq
    rw [List.length_set] at hj
    by_cases hji : j = i
    · rw [htable, hji, Function.update_self, Slot.full.injEq] at hq
      rw [hji, getD_set_self _ hlt, indexWord_frag _ hp, hq]
    · rw [htable, Function.update_of_ne hji] at hq
      rw [getD_set_of_ne _ hji]
      exact h.fragment j hj q hq
  · rw [List.length_set, htable]
    cases hs : slotAt idx i with
    | empty =>
      rw [hs] at htombs
      rw [if_neg (by simp)]
      exact htombs
    | tomb =>
      rw [hs] at htombs
      have : tally Slot.isTomb (Function.update (slotAt idx) i (.full p))
        idx.length + 1 = tombs := htombs
      rw [if_pos rfl]
      omega
    | full q => exact absurd hs (hvacant q)
  · rw [List.length_set, htable]
    cases hs : slotAt idx i with
    | empty =>
      rw [hs] at hfull
      exact hfull
    | tomb =>
      rw [hs] at hfull
      exact hfull
    | full q => exact absurd hs (hvacant q)

/-- A position's word becomes a tombstone. -/
theorem bury (h : Indexed ops entries live idx tombs len) {p i : ℕ}
    (hi : i < idx.length) (hat : slotAt idx i = .full p) :
    Indexed ops entries (fun q => live q ∧ q ≠ p) (idx.set i 1) (tombs + 1)
      (len - 1) := by
  have htable : slotAt (idx.set i 1) = Function.update (slotAt idx) i .tomb :=
    slotAt_set 1 hi
  have htombs := tally_update Slot.isTomb (slotAt idx) .tomb hi
  have hfull := tally_update Slot.isFull (slotAt idx) .tomb hi
  rw [h.tombs_eq, hat] at htombs
  rw [h.full_eq, hat] at hfull
  refine ⟨?_, ?_, ?_, ?_, ?_⟩
  · rw [List.length_set]
    exact h.sized
  · rw [List.length_set, htable]
    exact h.valid.bury hi hat
  · intro j hj q hq
    rw [List.length_set] at hj
    rw [htable] at hq
    by_cases hji : j = i
    · rw [hji, Function.update_self] at hq
      cases hq
    · rw [Function.update_of_ne hji] at hq
      rw [getD_set_of_ne _ hji]
      exact h.fragment j hj q hq
  · rw [List.length_set, htable]
    exact htombs
  · rw [List.length_set, htable]
    have : tally Slot.isFull (Function.update (slotAt idx) i .tomb)
        idx.length + 1 = len := hfull
    omega

/-- A word is given the position its entry moves to. -/
theorem relabel (h : Indexed ops entries live idx tombs len)
    {entries' : List (K × V)} {p q i : ℕ} (hi : i < idx.length)
    (hat : slotAt idx i = .full p) (hq : q + 2 < 2 ^ 32) (hnew : ¬ live q)
    (hhash : ∀ r, live r → r ≠ p → hashAt ops entries' r = hashAt ops entries r)
    (hsame : hashAt ops entries' q = hashAt ops entries p) :
    Indexed ops entries' (fun r => (live r ∧ r ≠ p) ∨ r = q)
      (idx.set i (indexWord (idx.getD i 0) q)) tombs len := by
  have hslot := slotOf_indexWord (idx.getD i 0) hq
  have htable := slotAt_set (indexWord (idx.getD i 0) q) hi
  have htombs := tally_update Slot.isTomb (slotAt idx) (.full q) hi
  have hfull := tally_update Slot.isFull (slotAt idx) (.full q) hi
  rw [h.tombs_eq, hat] at htombs
  rw [h.full_eq, hat] at hfull
  rw [hslot] at htable
  refine ⟨?_, ?_, ?_, ?_, ?_⟩
  · rw [List.length_set]
    exact h.sized
  · rw [List.length_set, htable]
    refine h.valid.relabel hi hat hnew ?_ ?_
    · intro r hr hne
      rw [homeAt, homeAt, hhash r hr hne]
    · rw [homeAt, homeAt, hsame]
  · intro j hj r hr
    rw [List.length_set] at hj
    rw [htable] at hr
    by_cases hji : j = i
    · rw [hji, Function.update_self, Slot.full.injEq] at hr
      rw [hji, getD_set_self _ hi, indexWord_frag _ hq, ← hr, hsame]
      exact h.fragment i hi p hat
    · rw [Function.update_of_ne hji] at hr
      rw [getD_set_of_ne _ hji, hhash r (h.valid.live_of_full j hj r hr)]
      · exact h.fragment j hj r hr
      · rintro rfl
        exact hji (h.valid.unique j hj i hi r hr hat)
  · rw [List.length_set, htable]
    exact htombs
  · rw [List.length_set, htable]
    exact Nat.add_right_cancel hfull

end Indexed

/-- The fresh index of `map_reindex_to` stores every entry. -/
theorem placeEntries_spec (ops : KeyOps K) (entries : List (K × V)) :
    ∀ (es : List (K × V)) (p : ℕ) (idx : List UInt64),
      entries.drop p = es → p ≤ entries.length →
      entries.length < idx.length → entries.length + 1 < 2 ^ 32 →
      Indexed ops entries (fun q => q < p) idx 0 p →
      ∃ idx', placeEntries ops es p idx = some idx' ∧
        idx'.length = idx.length ∧
        Indexed ops entries (fun q => q < entries.length) idx' 0 entries.length
  | [], p, idx, hes, hp, _, _, hidx => by
      have hlen : p = entries.length := by
        have := List.drop_eq_nil_iff.mp hes
        omega
      rw [hlen] at hidx
      exact ⟨idx, rfl, rfl, hidx⟩
  | e :: es, p, idx, hes, hp, hroom, hsmall, hidx => by
      have hlt : p < entries.length := by
        by_contra h
        rw [List.drop_eq_nil_of_le (by omega)] at hes
        cases hes
      have hget : entries[p]? = some e := by
        rw [← List.head?_drop, hes]
        rfl
      have hhash := hashAt_of_getElem? ops hget
      obtain ⟨e₂, hn⟩ := hidx.sized
      obtain ⟨s, hs, hempty⟩ := hidx.exists_empty (by omega)
      obtain ⟨k, hk, hprobe, hstop, hbefore⟩ :=
        probe_round (fun i => (slotAt idx i).isEmpty)
          (i := homeAt ops entries idx.length p)
          (Nat.mod_lt _ hidx.length_pos) hs (by rw [hempty]; rfl)
      rw [Slot.isEmpty_iff] at hstop
      have hplaced := hidx.place hk (by omega) (lt_irrefl p)
        (fun q h => by rw [hstop] at h; cases h)
        (fun j hj h => by
          have := hbefore j hj
          rw [h] at this
          cases this)
      rw [hstop, if_neg (by simp)] at hplaced
      obtain ⟨idx', heq, hlen, hfinal⟩ := placeEntries_spec ops entries es (p + 1)
        _ (by rw [← List.drop_drop, hes]; rfl) hlt
        (by rw [List.length_set]; exact hroom) hsmall
        (hplaced.congr (fun q => by omega) fun _ _ => rfl)
      refine ⟨idx', ?_, by rw [hlen, List.length_set], hfinal⟩
      have hstart : mapMask idx.length (ops.slotHash e.1).toNat =
          homeAt ops entries idx.length p := by
        rw [mapMask_eq hn, homeAt, hhash]
      rw [placeEntries, hstart, placeLoop_eq_probe hn, hprobe, ← hhash]
      exact heq

theorem reindexCap_spec (wanted : ℕ) :
    ∀ fuel cap, (∃ e, cap = 2 ^ e) → wanted * 3 < cap * 2 ^ (fuel + 1) →
      (∃ e, reindexCap fuel cap wanted = 2 ^ e) ∧
        wanted * 3 < reindexCap fuel cap wanted * 2 ∧
        cap ≤ reindexCap fuel cap wanted
  | 0, cap, hpow, hlt =>
    ⟨hpow, by rw [reindexCap]; simpa using hlt, le_rfl⟩
  | fuel + 1, cap, ⟨e, he⟩, hlt => by
      rw [reindexCap]
      by_cases h : cap * 2 ≤ wanted * 3
      · rw [if_pos h]
        have hdouble : cap * 2 * 2 ^ (fuel + 1) = cap * 2 ^ (fuel + 1 + 1) := by
          ring
        obtain ⟨hpow, hroom, hle⟩ := reindexCap_spec wanted fuel (cap * 2)
          ⟨e + 1, by rw [he, pow_succ]⟩ (by rw [hdouble]; exact hlt)
        exact ⟨hpow, hroom, by omega⟩
      · rw [if_neg h]
        exact ⟨⟨e, he⟩, by omega, le_rfl⟩

section Search

variable (ops : KeyOps K) (entries : List (K × V)) (idx : List UInt64)
  (key : K) (h : UInt64)

/-- The entry at a position has the key that is searched for. -/
def keyHit (p : ℕ) : Bool :=
  match entries[p]? with
  | none => false
  | some e => ops.slotEq e.1 key

/-- Where the probing loop of a search returns. -/
def FindStop (i : ℕ) : Prop :=
  slotAt idx i = .empty ∨
    ∃ p, slotAt idx i = .full p ∧
      idx.getD i 0 &&& idxFrag = h &&& idxFrag ∧
      keyHit ops entries key p = true

/-- What the loop returns at its first stop: the hit, or the first vacant slot
it saw. -/
def FindResult (i k : ℕ) (firstTomb : Option ℕ) (r : MapFound) : Prop :=
  (∃ p, slotAt idx ((i + k) % idx.length) = .full p ∧
    r = ⟨some p, h, (i + k) % idx.length⟩) ∨
  (slotAt idx ((i + k) % idx.length) = .empty ∧
    ∃ s, r = ⟨none, h, s⟩ ∧
      (firstTomb = some s ∨
        (firstTomb = none ∧ ∃ j ≤ k, s = (i + j) % idx.length ∧
          ∀ p, slotAt idx s ≠ .full p)))

/-- The probe stops at the first word it may stop at, and reports what stands there. -/
theorem findLoop_spec {e : ℕ} (hn : idx.length = 2 ^ e) :
    ∀ (fuel i : ℕ) (firstTomb : Option ℕ), i < idx.length →
      (∃ k < fuel, FindStop ops entries idx key h ((i + k) % idx.length)) →
      ∃ k < fuel, ∃ r,
        findLoop ops entries idx key h fuel i firstTomb = some r ∧
        FindStop ops entries idx key h ((i + k) % idx.length) ∧
        (∀ j < k, ¬ FindStop ops entries idx key h ((i + j) % idx.length)) ∧
        FindResult idx h i k firstTomb r
  | 0, _, _, _, ⟨_, hk, _⟩ => absurd hk (Nat.not_lt_zero _)
  | fuel + 1, i, firstTomb, hi, hex => by
      have hhere : (i + 0) % idx.length = i := Nat.mod_eq_of_lt hi
      have hnext : mapMask idx.length (i + 1) = (i + 1) % idx.length :=
        mapMask_eq hn _
      have hgo : ∀ ft, ¬ FindStop ops entries idx key h i →
          (∀ s, ft = some s → firstTomb = some s ∨
            (firstTomb = none ∧ s = i ∧ ∀ p, slotAt idx i ≠ .full p)) →
          (ft = none → firstTomb = none) →
          findLoop ops entries idx key h (fuel + 1) i firstTomb =
            findLoop ops entries idx key h fuel
              (mapMask idx.length (i + 1)) ft →
          ∃ k < fuel + 1, ∃ r,
            findLoop ops entries idx key h (fuel + 1) i firstTomb = some r ∧
            FindStop ops entries idx key h ((i + k) % idx.length) ∧
            (∀ j < k,
              ¬ FindStop ops entries idx key h ((i + j) % idx.length)) ∧
            FindResult idx h i k firstTomb r := by
        intro ft hnot hft hft' heq
        have hlater : ∃ k < fuel,
            FindStop ops entries idx key h
              (((i + 1) % idx.length + k) % idx.length) := by
          obtain ⟨k, hk, hstop⟩ := hex
          cases k with
          | zero => exact absurd (hhere ▸ hstop) hnot
          | succ k => exact ⟨k, by omega, by rw [next_offset]; exact hstop⟩
        obtain ⟨k, hk, r, hr, hstop, hbefore, hres⟩ :=
          findLoop_spec hn fuel ((i + 1) % idx.length) ft
            (Nat.mod_lt _ (by omega)) hlater
        rw [next_offset] at hstop
        refine ⟨k + 1, by omega, r, by rw [heq, hnext, hr], hstop, ?_, ?_⟩
        · intro j hj
          cases j with
          | zero => rw [hhere]; exact hnot
          | succ j =>
            rw [← next_offset]
            exact hbefore j (by omega)
        · unfold FindResult at hres ⊢
          rw [next_offset] at hres
          refine hres.imp_right ?_
          rintro ⟨hempty, s, hrs, hs⟩
          refine ⟨hempty, s, hrs, ?_⟩
          rcases hs with hs | ⟨hs, j, hj, hsj, hvac⟩
          · rcases hft s hs with h₁ | ⟨h₁, h₂, h₃⟩
            · exact Or.inl h₁
            · refine Or.inr ⟨h₁, 0, by omega, by rw [hhere, h₂], ?_⟩
              rw [h₂]
              exact h₃
          · exact Or.inr ⟨hft' hs, j + 1, by omega,
              by rw [hsj, next_offset], hvac⟩
      rcases slotOf_cases (idx.getD i 0) with
        ⟨hst, hslot⟩ | ⟨hst, hslot⟩ | ⟨hst0, hst1, hst2, hslot⟩
      · refine ⟨0, by omega, ⟨none, h, firstTomb.getD i⟩, ?_, ?_,
          fun j hj => absurd hj (Nat.not_lt_zero j), ?_⟩
        · rw [findLoop]
          exact if_pos hst
        · rw [hhere]
          exact Or.inl hslot
        · refine Or.inr ⟨by rw [hhere]; exact hslot, firstTomb.getD i, rfl, ?_⟩
          cases firstTomb with
          | none =>
            refine Or.inr ⟨rfl, 0, le_rfl, by rw [hhere]; rfl, ?_⟩
            intro p hp
            change slotOf (idx.getD i 0) = _ at hp
            rw [hslot] at hp
            cases hp
          | some s => exact Or.inl rfl
      · have hvac : ∀ p, slotAt idx i ≠ .full p := by
          intro p hp
          change slotOf (idx.getD i 0) = _ at hp
          rw [hslot] at hp
          cases hp
        refine hgo (if firstTomb = none then some i else firstTomb) ?_ ?_ ?_ ?_
        · rintro (hempty | ⟨p, hp, -⟩)
          · change slotOf (idx.getD i 0) = _ at hempty
            rw [hslot] at hempty
            cases hempty
          · exact hvac p hp
        · intro s hs
          split_ifs at hs with hnone
          · exact Or.inr ⟨hnone, (Option.some_inj.mp hs).symm, hvac⟩
          · exact Or.inl hs
        · intro hs
          split_ifs at hs with hnone
          exact hs
        · rw [findLoop]
          dsimp only
          rw [if_neg (by rw [hst]; decide),
            if_neg (fun hc => absurd hc.1 (by rw [hst]; decide))]
          by_cases hnone : firstTomb = none
          · rw [if_pos hnone, if_pos ⟨hst, hnone⟩]
          · rw [if_neg hnone, if_neg (fun hc => hnone hc.2)]
      · have hstopIff : FindStop ops entries idx key h i ↔
            idx.getD i 0 &&& idxFrag = h &&& idxFrag ∧
              keyHit ops entries key ((idx.getD i 0 &&& idxPos).toNat - 2) =
                true := by
          unfold FindStop slotAt
          rw [hslot]
          constructor
          · rintro (hc | ⟨p, hp, hw⟩)
            · cases hc
            · rw [Slot.full.injEq] at hp
              rw [hp]
              exact hw
          · intro hw
            exact Or.inr ⟨_, rfl, hw⟩
        by_cases hhit : FindStop ops entries idx key h i
        · obtain ⟨hfrag, hkey⟩ := hstopIff.mp hhit
          refine ⟨0, by omega,
            ⟨some ((idx.getD i 0 &&& idxPos).toNat - 2), h, i⟩, ?_, ?_,
            fun j hj => absurd hj (Nat.not_lt_zero j), ?_⟩
          · rw [findLoop]
            dsimp only
            rw [if_neg hst0]
            exact if_pos ⟨hst2, hfrag, hkey⟩
          · rw [hhere]
            exact hhit
          · exact Or.inl ⟨_, by rw [hhere]; exact hslot, by rw [hhere]⟩
        · refine hgo firstTomb hhit (fun s hs => Or.inl hs) id ?_
          rw [findLoop]
          dsimp only
          rw [if_neg hst0,
            if_neg (fun hc => hhit (hstopIff.mpr ⟨hc.2.1, hc.2.2⟩)),
            if_neg (fun hc => hst1 hc.1)]

end Search

end Map
end Beans
