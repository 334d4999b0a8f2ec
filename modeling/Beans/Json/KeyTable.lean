import Beans.Foundation.OpenAddressing
import Beans.Json.Types

/-!
# The emitted key table

The table the compiler lays out for a struct is found by the runtime's search:
a key names a field exactly when it is one of the field's accepted names.
-/

namespace Beans
namespace Json

open OpenAddressing

variable {names : List (Text × ℕ)} {keys : List Key} {mask size slot : ℕ}
  {text : Text} {entry : Text × ℕ}

theorem tableSizeLoop_spec (names rounds size : ℕ)
    (hpow : ∃ e, size = 2 ^ e)
    (hroom : names * 2 ≤ size * 2 ^ rounds) :
    ∃ out, tableSizeLoop names (rounds + 1) size = some out ∧
      (∃ e, out = 2 ^ e) ∧ names * 2 ≤ out ∧ size ≤ out := by
  induction rounds generalizing size with
  | zero =>
    rw [pow_zero, mul_one] at hroom
    exact ⟨size, if_neg (not_lt.mpr hroom), hpow, hroom, le_rfl⟩
  | succ rounds ih =>
    obtain ⟨e, he⟩ := hpow
    rw [tableSizeLoop]
    split_ifs with hsmall
    · obtain ⟨out, hout, hpow', hroom', hle⟩ := ih (size * 2) ⟨e + 1, by rw [he, pow_succ]⟩ (by
        rw [mul_assoc, ← pow_succ']
        exact hroom)
      exact ⟨out, hout, hpow', hroom', by omega⟩
    · exact ⟨size, rfl, ⟨e, he⟩, not_lt.mp hsmall, le_rfl⟩

/-- The loop that sizes the table ends. -/
theorem tableSizeLoop_eq (names : ℕ) :
    tableSizeLoop names (names * 2 + 1) 2 = some (tableSize names) := by
  have hlt : names * 2 < 2 ^ (names * 2) := Nat.lt_two_pow_self
  obtain ⟨out, hout, -⟩ := tableSizeLoop_spec names (names * 2) 2 ⟨1, rfl⟩ (by omega)
  rw [tableSize, hout, Option.getD_some]

/-- The table is a power of two with room for twice the names. -/
theorem tableSize_spec (names : ℕ) :
    (∃ e, tableSize names = 2 ^ e) ∧ names * 2 ≤ tableSize names ∧
      2 ≤ tableSize names := by
  have hlt : names * 2 < 2 ^ (names * 2) := Nat.lt_two_pow_self
  obtain ⟨out, hout, hspec⟩ := tableSizeLoop_spec names (names * 2) 2 ⟨1, rfl⟩ (by omega)
  rw [tableSizeLoop_eq, Option.some.injEq] at hout
  rwa [hout]

variable {e found fuel fuel' start : ℕ} {entered : List (Text × ℕ)} {schema : Schema Kind}

theorem and_mask (hsize : size = 2 ^ e) (value : ℕ) :
    value &&& (size - 1) = value % size := by
  rw [hsize]
  exact Nat.and_two_pow_sub_one_eq_mod value e

theorem jsonKeySlot_lt (hsize : size = 2 ^ e) (text : Text) :
    jsonKeySlot text (size - 1) < size := by
  have hpos : 0 < size := by rw [hsize]; positivity
  have hfold : ∀ (bytes : Text) (hash : ℕ), hash < size →
      bytes.foldl (fun hash byte => (hash * 33 + byte.toNat) &&& (size - 1)) hash <
        size := by
    intro bytes
    induction bytes with
    | nil => exact fun _ h => h
    | cons byte bytes ih =>
      intro hash _
      refine ih _ ?_
      change (hash * 33 + byte.toNat) &&& (size - 1) < size
      rw [and_mask hsize]
      exact Nat.mod_lt _ hpos
  exact hfold text 0 hpos

/-- A bucket as a slot for the name it holds. -/
def bucketSlot (key : Key) : OpenAddressing.Slot (Text × ℕ) :=
  if key.field = 0 then .empty else .full (key.name, key.field - 1)

def bucketAt (keys : List Key) (slot : ℕ) : OpenAddressing.Slot (Text × ℕ) :=
  bucketSlot (keys.getD slot ⟨[], 0⟩)

/-- The bucket a name starts from. -/
def nameHome (size : ℕ) (entry : Text × ℕ) : ℕ :=
  jsonKeySlot entry.1 (size - 1)

theorem bucketSlot_isEmpty (key : Key) :
    (bucketSlot key).isEmpty = decide (key.field = 0) := by
  unfold bucketSlot
  split_ifs with h <;> simp [OpenAddressing.Slot.isEmpty, h]

theorem bucketSlot_ne_tomb (key : Key) : (bucketSlot key).isTomb = false := by
  unfold bucketSlot
  split_ifs <;> rfl

theorem bucketAt_set (hslot : slot < keys.length) (name : Text) (index : ℕ) :
    bucketAt (keys.set slot ⟨name, index + 1⟩) =
      Function.update (bucketAt keys) slot (.full (name, index)) := by
  funext i
  by_cases hi : i = slot
  · subst hi
    simp [bucketAt, bucketSlot, hslot]
  · simp [bucketAt, List.getD_eq_getElem?_getD, Ne.symm hi, Function.update_of_ne hi]

/-- The names entered so far, each within reach of its hash. -/
structure Holds (size : ℕ) (entered : List (Text × ℕ)) (keys : List Key) : Prop where
  length : keys.length = size
  valid : Valid size (nameHome size) (fun entry => entry ∈ entered) (bucketAt keys)
  full : tally OpenAddressing.Slot.isFull (bucketAt keys) size = entered.length

theorem holds_empty (size : ℕ) : Holds size [] (List.replicate size ⟨[], 0⟩) := by
  have hempty : bucketAt (List.replicate size ⟨[], 0⟩) = fun _ => .empty := by
    funext slot
    have hkey : (List.replicate size (⟨[], 0⟩ : Key)).getD slot ⟨[], 0⟩ = ⟨[], 0⟩ := by
      rw [List.getD_eq_getElem?_getD, List.getElem?_replicate]
      split_ifs <;> rfl
    rw [bucketAt, hkey]
    rfl
  refine ⟨List.length_replicate, ?_, ?_⟩
  · rw [hempty]
    exact (Valid.nil size (nameHome size)).congr (by simp) fun _ _ => rfl
  · rw [hempty]
    exact Finset.sum_eq_zero fun _ _ => rfl

/-- The search for an empty bucket is a probe. -/
theorem freeSlotLoop_of_probe (hsize : size = 2 ^ e) (hlength : keys.length = size)
    (hstart : start < size)
    (h : probe (fun slot => (bucketAt keys slot).isEmpty) size fuel start = some found) :
    freeSlotLoop keys (size - 1) fuel start = some found := by
  induction fuel generalizing start with
  | zero => exact absurd h (by simp [probe])
  | succ fuel ih =>
    have hkey : keys[start]? = some (keys.getD start ⟨[], 0⟩) := by
      rw [List.getD_eq_getElem?_getD, List.getElem?_eq_getElem (by omega)]
      rfl
    have hempty : (bucketAt keys start).isEmpty = true ↔
        (keys.getD start ⟨[], 0⟩).field = 0 := by
      rw [bucketAt, bucketSlot_isEmpty, decide_eq_true_eq]
    rw [freeSlotLoop, hkey]
    rw [probe] at h
    by_cases hfree : (keys.getD start ⟨[], 0⟩).field = 0
    · rw [if_pos (hempty.mpr hfree)] at h
      exact (if_pos hfree).trans h
    · rw [if_neg (mt hempty.mp hfree)] at h
      refine (if_neg hfree).trans ?_
      rw [and_mask hsize]
      exact ih (Nat.mod_lt _ (by omega)) h

/-- Entering a name keeps the table, as long as a bucket is free. -/
theorem Holds.enter (h : Holds size entered keys) (entry : Text × ℕ) (hsize : size = 2 ^ e)
    (hroom : entered.length < size) (hfresh : entry ∉ entered) :
    ∃ slot, freeSlotLoop keys (size - 1) size (jsonKeySlot entry.1 (size - 1)) = some slot ∧
      Holds size (entry :: entered) (keys.set slot ⟨entry.1, entry.2 + 1⟩) := by
  have htombs : tally OpenAddressing.Slot.isTomb (bucketAt keys) size = 0 :=
    Finset.sum_eq_zero fun i _ => by rw [bucketAt, bucketSlot_ne_tomb]; rfl
  have hpos : 0 < size := by rw [hsize]; positivity
  obtain ⟨free, hfree, hfreeEmpty⟩ := @exists_empty _ (bucketAt keys) size (by
    rw [htombs, h.full]
    omega)
  have hstart := jsonKeySlot_lt hsize entry.1
  obtain ⟨k, hk, hprobe, hempty, hbefore⟩ :=
    probe_round (fun slot => (bucketAt keys slot).isEmpty) hstart hfree (by
      rw [hfreeEmpty]
      rfl)
  refine ⟨_, freeSlotLoop_of_probe hsize h.length hstart hprobe, ?_⟩
  have hvacant := (OpenAddressing.Slot.isEmpty_iff _).mp hempty
  have hlt : (jsonKeySlot entry.1 (size - 1) + k) % size < size := Nat.mod_lt _ hpos
  have hplaced := @Valid.place _ _ _ _ _ h.valid entry k hk
    (fun y hy => by
      rw [nameHome, hvacant] at hy
      exact absurd hy (by simp))
    (fun j hj hnone => by
      have := hbefore j hj
      rw [nameHome] at hnone
      rw [hnone] at this
      exact absurd this (by simp [OpenAddressing.Slot.isEmpty]))
    hfresh
  have hset : bucketAt (keys.set ((jsonKeySlot entry.1 (size - 1) + k) % size)
      ⟨entry.1, entry.2 + 1⟩) = Function.update (bucketAt keys)
        ((jsonKeySlot entry.1 (size - 1) + k) % size) (.full entry) :=
    bucketAt_set (by rw [h.length]; exact hlt) entry.1 entry.2
  refine ⟨by rw [List.length_set, h.length], ?_, ?_⟩
  · rw [hset]
    exact hplaced.congr (fun x => by simp [or_comm]) fun _ _ => rfl
  · rw [hset]
    have htally := tally_update OpenAddressing.Slot.isFull (bucketAt keys) (.full entry) hlt
    rw [hvacant, h.full] at htally
    simpa [OpenAddressing.Slot.isFull] using htally

theorem enterNamesLoop_holds (hsize : size = 2 ^ e) (names : List (Text × ℕ))
    (keys : List Key)
    (h : Holds size entered keys)
    (hroom : entered.length + names.length ≤ size)
    (hnodup : (names ++ entered).Nodup) :
    ∃ keys', enterNamesLoop (size - 1) size names keys = some keys' ∧
      Holds size (names.reverse ++ entered) keys' := by
  induction names generalizing entered keys with
  | nil => exact ⟨keys, rfl, h⟩
  | cons entry rest ih =>
    obtain ⟨name, index⟩ := entry
    rw [List.cons_append, List.nodup_cons] at hnodup
    rw [List.length_cons] at hroom
    obtain ⟨slot, hslot, henter⟩ := h.enter (name, index) hsize (by omega) fun hmem =>
      hnodup.1 (List.mem_append_right _ hmem)
    obtain ⟨keys', hkeys', hholds⟩ := ih _ henter (by rw [List.length_cons]; omega)
      (List.nodup_middle.mpr (List.nodup_cons.mpr hnodup))
    rw [enterNamesLoop, hslot, List.reverse_cons, List.append_assoc, List.singleton_append]
    exact ⟨keys', hkeys', hholds⟩

theorem tableSizeLoop_mono {names out : ℕ} (hfuel : fuel ≤ fuel')
    (h : tableSizeLoop names fuel size = some out) :
    tableSizeLoop names fuel' size = some out := by
  induction fuel generalizing size fuel' with
  | zero => exact absurd h (by simp [tableSizeLoop])
  | succ fuel ih =>
    obtain ⟨fuel', rfl⟩ := Nat.exists_eq_succ_of_ne_zero (n := fuel') (by omega)
    rw [tableSizeLoop] at h ⊢
    split_ifs at h ⊢
    · exact ih (by omega) h
    · exact h

theorem freeSlotLoop_mono (hfuel : fuel ≤ fuel')
    (h : freeSlotLoop keys mask fuel start = some found) :
    freeSlotLoop keys mask fuel' start = some found := by
  induction fuel generalizing start fuel' with
  | zero => exact absurd h (by simp [freeSlotLoop])
  | succ fuel ih =>
    obtain ⟨fuel', rfl⟩ := Nat.exists_eq_succ_of_ne_zero (n := fuel') (by omega)
    rw [freeSlotLoop] at h ⊢
    cases hkey : keys[start]? with
    | none => rw [hkey] at h; exact h
    | some key =>
      rw [hkey] at h
      simp only at h ⊢
      split_ifs at h ⊢
      · exact h
      · exact ih (by omega) h

theorem enterNamesLoop_mono (hfuel : fuel ≤ fuel') {out : List Key}
    (h : enterNamesLoop mask fuel names keys = some out) :
    enterNamesLoop mask fuel' names keys = some out := by
  induction names generalizing keys with
  | nil => exact h
  | cons entry rest ih =>
    rw [enterNamesLoop] at h ⊢
    cases hslot : freeSlotLoop keys mask fuel (jsonKeySlot entry.1 mask) with
    | none => rw [hslot] at h; exact absurd h (by simp)
    | some slot =>
      rw [hslot] at h
      rw [freeSlotLoop_mono hfuel hslot]
      exact ih h

/-- The loops that fill the table end, in a table that holds the names. -/
theorem keyTableLoop_spec (hnodup : names.Nodup) :
    (∀ fuel, names.length * 2 + 1 + tableSize names.length ≤ fuel →
      keyTableLoop names fuel = some (keyTable names, tableSize names.length - 1)) ∧
    Holds (tableSize names.length) names.reverse (keyTable names) := by
  obtain ⟨⟨e, he⟩, hroom, htwo⟩ := tableSize_spec names.length
  obtain ⟨keys, hkeys, hholds⟩ := enterNamesLoop_holds he names _
    (holds_empty (tableSize names.length)) (by rw [List.length_nil]; omega)
    (by rwa [List.append_nil])
  rw [List.append_nil] at hholds
  have hloop : ∀ fuel, names.length * 2 + 1 + tableSize names.length ≤ fuel →
      keyTableLoop names fuel = some (keys, tableSize names.length - 1) := by
    intro fuel hfuel
    rw [keyTableLoop, tableSizeLoop_mono (by omega) (tableSizeLoop_eq names.length)]
    have hentered := enterNamesLoop_mono (by omega : tableSize names.length ≤ fuel) hkeys
    simp only [hentered, Option.map_some]
  have htable : keyTable names = keys := by
    rw [keyTable, hloop _ le_rfl]
    rfl
  rw [htable]
  exact ⟨hloop, hholds⟩

/-- The table holds its names. -/
theorem keyTable_holds (hnodup : names.Nodup) :
    Holds (tableSize names.length) names.reverse (keyTable names) :=
  (keyTableLoop_spec hnodup).2

/-- A search stops at an empty bucket or at its key. -/
def keyStop (keys : List Key) (text : Text) (slot : ℕ) : Bool :=
  match bucketAt keys slot with
  | .full entry => decide (entry.1 = text)
  | _ => true

/-- A search ends, at its name when that was entered and else at an empty bucket. -/
theorem Holds.search (h : Holds size entered keys) (hsize : size = 2 ^ e)
    (hroom : entered.length < size) (hnodup : (entered.map Prod.fst).Nodup) (text : Text) :
    ∃ found, probe (keyStop keys text) size size (jsonKeySlot text (size - 1)) = some found ∧
      (∀ index, (text, index) ∈ entered → bucketAt keys found = .full (text, index)) ∧
      ((∀ index, (text, index) ∉ entered) → bucketAt keys found = .empty) := by
  have htombs : tally OpenAddressing.Slot.isTomb (bucketAt keys) size = 0 :=
    Finset.sum_eq_zero fun i _ => by rw [bucketAt, bucketSlot_ne_tomb]; rfl
  obtain ⟨free, hfree, hfreeEmpty⟩ := @exists_empty _ (bucketAt keys) size (by
    rw [htombs, h.full]
    omega)
  have hstart := jsonKeySlot_lt hsize text
  obtain ⟨k, hk, hprobe, hstop, hpassed⟩ := probe_round (keyStop keys text) hstart hfree (by
    rw [keyStop, hfreeEmpty])
  have hlt : (jsonKeySlot text (size - 1) + k) % size < size := Nat.mod_lt _ (by omega)
  -- it stands at an empty bucket or at one with its name
  have hstands : bucketAt keys ((jsonKeySlot text (size - 1) + k) % size) = .empty ∨
      ∃ y, bucketAt keys ((jsonKeySlot text (size - 1) + k) % size) = .full y ∧ y.1 = text := by
    rw [keyStop] at hstop
    cases hslot : bucketAt keys ((jsonKeySlot text (size - 1) + k) % size) with
    | empty => exact Or.inl rfl
    | tomb =>
      have := bucketSlot_ne_tomb
        (keys.getD ((jsonKeySlot text (size - 1) + k) % size) ⟨[], 0⟩)
      rw [← bucketAt, hslot] at this
      exact absurd this (by simp [OpenAddressing.Slot.isTomb])
    | full y =>
      rw [hslot] at hstop
      exact Or.inr ⟨y, rfl, by simpa using hstop⟩
  refine ⟨_, hprobe, fun index hmem => ?_, fun hnone => ?_⟩
  · refine @Valid.stops_at _ _ _ _ _ h.valid (fun entry => entry.1 = text) (text, index) k hk hmem
      ?_ hstands ?_
    · intro y hy hhit
      obtain ⟨name, index'⟩ := y
      simp only at hhit
      subst hhit
      exact List.inj_on_of_nodup_map hnodup hy hmem rfl
    · intro j hj hfull
      have := hpassed j hj
      rw [nameHome] at hfull
      rw [keyStop, hfull] at this
      simp at this
  · rcases hstands with hempty | ⟨⟨name, index⟩, hfull, rfl⟩
    · exact hempty
    · exact absurd (h.valid.live_of_full _ hlt _ hfull) (hnone index)

end Json
end Beans
