import Beans.Foundation.ClosingGaps

/-!
# The table of weak handles

The runtime keeps, for every object a weak handle was made for, the control block
that its handles share.  Slots are found by linear probing, and a removed entry
leaves no mark: the entries behind it are placed anew.
-/

namespace Beans
namespace Weak

open OpenAddressing

/-- A control block, named by the number of its allocation. -/
structure Block where
  value : UInt64
  weak : ℤ
  freed : Bool
deriving DecidableEq

/-- An entry; the null object marks a free slot. -/
structure Entry where
  obj : UInt64
  ctrl : Option ℕ
deriving DecidableEq

def Entry.null : Entry :=
  ⟨0, none⟩

/-- The table of a thread and the control blocks it has handed out. -/
structure Table where
  entries : List Entry
  cap : ℕ
  len : ℕ
  live : Bool
  blocks : List Block

def Table.empty : Table :=
  ⟨[], 0, 0, false, []⟩

/-- The slot an object belongs into. -/
def weakSlotFor (obj : UInt64) (cap : ℕ) : ℕ :=
  let h := obj ^^^ (obj >>> 33)
  let h := h * 0xff51afd7ed558ccd
  let h := h ^^^ (h >>> 33)
  (h &&& UInt64.ofNat (cap - 1)).toNat

def next (cap slot : ℕ) : ℕ :=
  (slot + 1) &&& (cap - 1)

/-- Steps over occupied slots; a slot outside of the table is a fault. -/
def freeFrom (entries : List Entry) (cap : ℕ) : ℕ → ℕ → Option ℕ
  | 0, _ => none
  | turns + 1, slot =>
    match entries[slot]? with
    | none => none
    | some e => if e.obj ≠ 0 then freeFrom entries cap turns (next cap slot) else some slot

/-- Steps over the slots of other objects. -/
def findFrom (entries : List Entry) (cap : ℕ) (obj : UInt64) : ℕ → ℕ → Option ℕ
  | 0, _ => none
  | turns + 1, slot =>
    match entries[slot]? with
    | none => none
    | some e =>
      if e.obj ≠ 0 then
        if e.obj = obj then some slot else findFrom entries cap obj turns (next cap slot)
      else some slot

/-- An entry goes to the first free slot from its own. -/
def place (cap : ℕ) (e : Entry) (entries : List Entry) : Option (List Entry) :=
  (freeFrom entries cap cap (weakSlotFor e.obj cap)).map fun slot => entries.set slot e

/-- The loop that enters the old entries into the grown table. -/
def regrow (cap : ℕ) : List Entry → List Entry → Option (List Entry)
  | [], grown => some grown
  | e :: rest, grown =>
    if e.obj = 0 then regrow cap rest grown
    else (place cap e grown).bind (regrow cap rest)

/-- Twice the slots, or the first 64. -/
def weakTableGrow (t : Table) : Option Table :=
  let cap := if t.cap ≠ 0 then t.cap * 2 else 64
  (regrow cap t.entries (List.replicate cap .null)).map fun grown =>
    { t with entries := grown, cap := cap }

/-- The block of an object, a new one when it has none. -/
def weakCtrlIn (t : Table) (obj : UInt64) : Option (ℕ × Table) :=
  (findFrom t.entries t.cap obj t.cap (weakSlotFor obj t.cap)).bind fun slot =>
    (t.entries[slot]?).bind fun e =>
      if e.obj ≠ 0 then e.ctrl.map fun ctrl => (ctrl, t)
      else
        some (t.blocks.length,
          { t with
            entries := t.entries.set slot ⟨obj, some t.blocks.length⟩
            len := t.len + 1
            live := true
            blocks := t.blocks ++ [⟨obj, 1, false⟩] })

/-- The same, in a table that is grown when three quarters of it are full. -/
def weakCtrlFor (t : Table) (obj : UInt64) : Option (ℕ × Table) :=
  (if t.cap = 0 ∨ t.len * 4 ≥ t.cap * 3 then weakTableGrow t else some t).bind fun t =>
    weakCtrlIn t obj

/-- The loop that places the entries behind a removed one anew. -/
def closeFrom (cap : ℕ) : ℕ → ℕ → List Entry → Option (List Entry)
  | 0, _, _ => none
  | turns + 1, slot, entries =>
    match entries[slot]? with
    | none => none
    | some moved =>
      if moved.obj ≠ 0 then
        (place cap moved (entries.set slot .null)).bind (closeFrom cap turns (next cap slot))
      else some entries

/-- The slot is freed, and the run of entries behind it is placed anew. -/
def weakTableRemove (t : Table) (slot : ℕ) : Option Table :=
  (closeFrom t.cap t.cap (next t.cap slot) (t.entries.set slot .null)).map fun entries =>
    { t with entries := entries, len := t.len - 1, live := decide (t.len - 1 ≠ 0) }

/-- The value is zeroed and the hold of the table dropped. -/
def Block.die (b : Block) : Block :=
  ⟨0, b.weak - 1, b.freed || decide (b.weak = 1)⟩

/-- An object dies: its block is zeroed and its entry removed. -/
def rtWeakInvalidate (t : Table) (obj : UInt64) : Option Table :=
  if t.live = false then some t
  else if t.cap = 0 then some t
  else
    (findFrom t.entries t.cap obj t.cap (weakSlotFor obj t.cap)).bind fun slot =>
      (t.entries[slot]?).bind fun e =>
        if e.obj ≠ 0 then
          e.ctrl.bind fun ctrl =>
            weakTableRemove { t with blocks := t.blocks.modify ctrl Block.die } slot
        else some t

def slotOf (e : Entry) : Slot Entry :=
  if e.obj = 0 then .empty else .full e

def slotAt (entries : List Entry) (i : ℕ) : Slot Entry :=
  slotOf (entries.getD i .null)

def home (cap : ℕ) (e : Entry) : ℕ :=
  weakSlotFor e.obj cap

variable {entries grown : List Entry} {cap slot i : ℕ} {e x : Entry} {obj : UInt64}

theorem slotOf_null : slotOf .null = .empty :=
  rfl

theorem slotOf_full (h : e.obj ≠ 0) :
    slotOf e = .full e :=
  if_neg h

theorem slotOf_isTomb (e : Entry) :
    (slotOf e).isTomb = false := by
  rw [slotOf]
  split_ifs <;> rfl

theorem slotOf_eq_full :
    slotOf e = .full x ↔ e = x ∧ x.obj ≠ 0 := by
  rw [slotOf]
  split_ifs with h
  · refine iff_of_false (by simp) ?_
    rintro ⟨rfl, hne⟩
    exact hne h
  · rw [Slot.full.injEq]
    refine ⟨?_, And.left⟩
    rintro rfl
    exact ⟨rfl, h⟩

theorem slotOf_eq_empty :
    slotOf e = .empty ↔ e.obj = 0 := by
  rw [slotOf]
  split_ifs with h
  · exact iff_of_true rfl h
  · exact iff_of_false (by simp) h

theorem slotAt_set (h : slot < entries.length) (e : Entry) :
    slotAt (entries.set slot e) = Function.update (slotAt entries) slot (slotOf e) := by
  funext i
  by_cases hi : i = slot
  · subst hi
    simp [slotAt, h]
  · simp [slotAt, List.getD_eq_getElem?_getD, Ne.symm hi, Function.update_of_ne hi]

theorem getElem?_eq_getD (h : slot < entries.length) :
    entries[slot]? = some (entries.getD slot .null) := by
  rw [List.getD_eq_getElem?_getD, List.getElem?_eq_getElem h]
  rfl

theorem tombs_eq_zero (entries : List Entry) (n : ℕ) :
    tally Slot.isTomb (slotAt entries) n = 0 :=
  Finset.sum_eq_zero fun i _ => by rw [slotAt, slotOf_isTomb]; rfl

/-- The occupied slots. -/
def occupied (entries : List Entry) : List Entry :=
  entries.filter fun e => e.obj ≠ 0

theorem tally_eq_occupied (entries : List Entry) :
    tally Slot.isFull (slotAt entries) entries.length = (occupied entries).length := by
  induction entries using List.reverseRecOn with
  | nil => rfl
  | append_singleton entries e ih =>
    have hlast : slotAt (entries ++ [e]) entries.length = slotOf e := by
      simp [slotAt]
    have hrest : ∑ i ∈ Finset.range entries.length,
        (Slot.isFull (slotAt (entries ++ [e]) i)).toNat = (occupied entries).length := by
      rw [← ih]
      refine Finset.sum_congr rfl fun i hi => ?_
      rw [slotAt, slotAt, List.getD_append _ _ _ _ (Finset.mem_range.mp hi)]
    rw [tally, List.length_append, List.length_singleton, Finset.sum_range_succ, hrest, hlast,
      occupied, occupied, List.filter_append, List.length_append, slotOf]
    by_cases h : e.obj = 0
    · simp [h, Slot.isFull]
    · simp [h, Slot.isFull]

theorem weakSlotFor_lt (obj : UInt64) (h : 0 < cap) :
    weakSlotFor obj cap < cap := by
  rw [weakSlotFor, UInt64.toNat_and]
  refine Nat.and_le_right.trans_lt ?_
  rw [UInt64.toNat_ofNat']
  exact (Nat.mod_le _ _).trans_lt (Nat.sub_lt h Nat.one_pos)

variable {b found start turns : ℕ}

theorem next_eq (hcap : cap = 2 ^ b) (slot : ℕ) :
    next cap slot = (slot + 1) % cap := by
  rw [next, hcap]
  exact Nat.and_two_pow_sub_one_eq_mod _ b

/-- The walk of both searches: `stop` holds of the entries that end it. -/
theorem freeFrom_of_probe (hcap : cap = 2 ^ b) (hlength : entries.length = cap)
    (hstart : start < cap)
    (h : probe (fun i => decide ((entries.getD i .null).obj = 0)) cap turns start =
      some found) :
    freeFrom entries cap turns start = some found := by
  induction turns generalizing start with
  | zero => cases h
  | succ turns ih =>
    rw [probe] at h
    rw [freeFrom, getElem?_eq_getD (by omega)]
    dsimp only
    by_cases hfree : (entries.getD start .null).obj = 0
    · rw [if_pos (decide_eq_true hfree)] at h
      rw [if_neg (not_not.mpr hfree)]
      exact h
    · rw [if_neg (by rw [decide_eq_true_eq]; exact hfree)] at h
      rw [if_pos hfree, next_eq hcap]
      exact ih (Nat.mod_lt _ (by omega)) h

theorem findFrom_of_probe (hcap : cap = 2 ^ b) (hlength : entries.length = cap)
    (hstart : start < cap)
    (h : probe (fun i => decide ((entries.getD i .null).obj = 0 ∨
      (entries.getD i .null).obj = obj)) cap turns start = some found) :
    findFrom entries cap obj turns start = some found := by
  induction turns generalizing start with
  | zero => cases h
  | succ turns ih =>
    rw [probe] at h
    rw [findFrom, getElem?_eq_getD (by omega)]
    dsimp only
    by_cases hfree : (entries.getD start .null).obj = 0
    · rw [if_pos (decide_eq_true (.inl hfree))] at h
      rw [if_neg (not_not.mpr hfree)]
      exact h
    · rw [if_pos hfree]
      by_cases hobj : (entries.getD start .null).obj = obj
      · rw [if_pos (decide_eq_true (.inr hobj))] at h
        rw [if_pos hobj]
        exact h
      · rw [if_neg (by rw [decide_eq_true_eq, not_or]; exact ⟨hfree, hobj⟩)] at h
        rw [if_neg hobj, next_eq hcap]
        exact ih (Nat.mod_lt _ (by omega)) h

theorem exists_free (hlength : entries.length = cap) (hroom : (occupied entries).length < cap) :
    ∃ i < cap, slotAt entries i = .empty := by
  refine exists_empty ?_
  rw [tombs_eq_zero, ← hlength, tally_eq_occupied, hlength]
  omega

/-- An entry is placed in the first free slot on its walk. -/
theorem place_spec (hcap : cap = 2 ^ b) (hlength : entries.length = cap) {free : ℕ}
    (hfree : free < cap) (hempty : slotAt entries free = .empty) (e : Entry) :
    ∃ k < cap, slotAt entries ((home cap e + k) % cap) = .empty ∧
      (∀ j < k, slotAt entries ((home cap e + j) % cap) ≠ .empty) ∧
      place cap e entries = some (entries.set ((home cap e + k) % cap) e) := by
  have hstart := weakSlotFor_lt e.obj (Nat.zero_lt_of_lt hfree)
  obtain ⟨k, hk, hprobe, hstop, hpassed⟩ :=
    probe_round (fun i => decide ((entries.getD i .null).obj = 0)) hstart hfree
      (decide_eq_true (slotOf_eq_empty.mp hempty))
  refine ⟨k, hk, slotOf_eq_empty.mpr (of_decide_eq_true hstop), fun j hj hnone => ?_, ?_⟩
  · exact of_decide_eq_false (hpassed j hj) (slotOf_eq_empty.mp hnone)
  · rw [place, freeFrom_of_probe hcap hlength hstart hprobe]
    rfl

end Weak
end Beans
