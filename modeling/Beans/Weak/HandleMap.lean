import Beans.Weak.HandleTable

/-!
# The table of weak handles as a map

Growing, entering and removing keep every object findable.  So the table is a finite
map from objects to control blocks over every run: an object keeps its block until
it is invalidated, and gets a new one afterwards.

**Results.**
* `weak_table_refines`: every run ends, answers what the map answers and leaves its blocks.
-/

namespace Beans
namespace Weak

open OpenAddressing

variable {entries grown : List Entry} {cap b : ℕ} {e : Entry} {obj : UInt64}

/-- The slots hold the entries of a list. -/
structure Holds (cap : ℕ) (stored entries : List Entry) : Prop where
  length : entries.length = cap
  valid : Valid cap (home cap) (fun e => e ∈ stored) (slotAt entries)
  count : (occupied entries).length = stored.length

theorem holds_replicate (cap : ℕ) :
    Holds cap [] (List.replicate cap .null) := by
  have hempty : slotAt (List.replicate cap .null) = fun _ => .empty := by
    funext i
    have hget : (List.replicate cap Entry.null).getD i .null = .null := by
      rw [List.getD_eq_getElem?_getD, List.getElem?_replicate]
      split_ifs <;> rfl
    rw [slotAt, hget, slotOf_null]
  refine ⟨List.length_replicate, ?_, ?_⟩
  · rw [hempty]
    exact (Valid.nil cap (home cap)).congr (by simp) fun _ _ => rfl
  · have hnone : occupied (List.replicate cap Entry.null) = [] := by
      refine List.filter_eq_nil_iff.mpr fun e he => ?_
      rw [List.eq_of_mem_replicate he]
      decide
    rw [hnone]

variable {c n slot : ℕ}

/-- An entry put into a free slot is one more occupied slot. -/
theorem occupied_set (hlength : entries.length = cap) (hslot : slot < cap)
    (hempty : slotAt entries slot = .empty) (he : e.obj ≠ 0) :
    (occupied (entries.set slot e)).length = (occupied entries).length + 1 := by
  have htally := tally_update Slot.isFull (slotAt entries) (slotOf e) hslot
  have hset := tally_eq_occupied (entries.set slot e)
  rw [slotAt_set (by omega), List.length_set, hlength] at hset
  rw [hempty, hset, ← hlength, tally_eq_occupied, slotOf_full he] at htally
  exact htally

/-- A cleared slot is one occupied slot less. -/
theorem occupied_clear (hlength : entries.length = cap) (hslot : slot < cap)
    (hfull : slotAt entries slot = .full e) :
    (occupied (entries.set slot .null)).length + 1 = (occupied entries).length := by
  have htally := tally_update Slot.isFull (slotAt entries) (slotOf .null) hslot
  have hset := tally_eq_occupied (entries.set slot .null)
  rw [slotAt_set (by omega), List.length_set, hlength] at hset
  rw [hfull, hset, ← hlength, tally_eq_occupied, slotOf_null] at htally
  exact htally

theorem Holds.place {stored : List Entry} (h : Holds cap stored entries) (hcap : cap = 2 ^ b)
    (hroom : stored.length < cap) (he : e.obj ≠ 0) (hfresh : e ∉ stored) :
    ∃ entries', place cap e entries = some entries' ∧ Holds cap (e :: stored) entries' := by
  obtain ⟨free, hfree, hempty⟩ := exists_free h.length (by rw [h.count]; exact hroom)
  obtain ⟨k, hk, hvacant, hbefore, hplace⟩ := place_spec hcap h.length hfree hempty e
  have hslot : (home cap e + k) % cap < cap := Nat.mod_lt _ (by omega)
  refine ⟨_, hplace, by rw [List.length_set, h.length], ?_, ?_⟩
  · rw [slotAt_set (by rw [h.length]; exact hslot), slotOf_full he]
    refine (h.valid.place hk (fun y hy => ?_) hbefore hfresh).congr (fun x => ?_) fun _ _ => rfl
    · rw [hvacant] at hy
      cases hy
    · rw [List.mem_cons, or_comm]
  · rw [occupied_set h.length hslot hvacant he, h.count, List.length_cons]

theorem regrow_spec (hcap : cap = 2 ^ b) (rest : List Entry) {stored : List Entry}
    (h : Holds cap stored grown) (hroom : (occupied rest).length + stored.length ≤ cap)
    (hnodup : (occupied rest ++ stored).Nodup) :
    ∃ grown' stored', regrow cap rest grown = some grown' ∧ Holds cap stored' grown' ∧
      stored'.Perm (occupied rest ++ stored) := by
  induction rest generalizing grown stored with
  | nil => exact ⟨grown, stored, rfl, h, List.Perm.refl _⟩
  | cons e rest ih =>
    rw [regrow]
    by_cases he : e.obj = 0
    · have hskip : occupied (e :: rest) = occupied rest := List.filter_cons_of_neg (by simp [he])
      rw [hskip] at hroom hnodup ⊢
      rw [if_pos he]
      exact ih h hroom hnodup
    · have hkeep : occupied (e :: rest) = e :: occupied rest :=
        List.filter_cons_of_pos (by simp [he])
      rw [hkeep] at hroom hnodup ⊢
      rw [List.length_cons] at hroom
      rw [List.cons_append, List.nodup_cons] at hnodup
      obtain ⟨entries', hplace, hholds⟩ := h.place hcap (by omega) he
        fun hmem => hnodup.1 (List.mem_append_right _ hmem)
      obtain ⟨grown', stored', hgrow, hholds', hperm⟩ := ih hholds
        (by rw [List.length_cons]; omega)
        (List.nodup_middle.mpr (List.nodup_cons.mpr hnodup))
      rw [if_neg he, hplace]
      exact ⟨grown', stored', hgrow, hholds', hperm.trans List.perm_middle⟩

theorem slotAt_clear_lt (hlength : entries.length = cap) (hslot : slot < cap) :
    slotAt (entries.set slot .null) = Function.update (slotAt entries) slot .empty := by
  rw [slotAt_set (by omega), slotOf_null]

/-- The run behind a removed entry is placed anew. -/
theorem closeFrom_spec (hcap : cap = 2 ^ b) {live : Entry → Prop} {start k last turns : ℕ}
    (hlength : entries.length = cap) (h : Gapped cap (home cap) live (slotAt entries) start k)
    (hk : k ≤ last) (hlast : last < cap) (hend : slotAt entries ((start + last) % cap) = .empty)
    (hturns : last - k < turns) :
    ∃ entries', closeFrom cap turns ((start + k) % cap) entries = some entries' ∧
      entries'.length = cap ∧ Valid cap (home cap) live (slotAt entries') ∧
      (occupied entries').length = (occupied entries).length := by
  induction turns generalizing entries k with
  | zero => omega
  | succ turns ih =>
    have hslot : (start + k) % cap < cap := Nat.mod_lt _ (by omega)
    rw [closeFrom, getElem?_eq_getD (by omega)]
    dsimp only
    by_cases hfree : (entries.getD ((start + k) % cap) .null).obj = 0
    · rw [if_neg (not_not.mpr hfree)]
      exact ⟨entries, rfl, hlength, h.closed (by omega) (slotOf_eq_empty.mpr hfree), rfl⟩
    · have hat : slotAt entries ((start + k) % cap) =
          .full (entries.getD ((start + k) % cap) .null) := slotOf_full hfree
      have hne : k ≠ last := by
        rintro rfl
        rw [hat] at hend
        cases hend
      generalize hmoved : entries.getD ((start + k) % cap) .null = moved at hfree hat ⊢
      have hclear := slotAt_clear_lt hlength hslot
      have hclearLength : (entries.set ((start + k) % cap) .null).length = cap := by
        rw [List.length_set, hlength]
      obtain ⟨j, hj, hvacant, hbefore, hplace⟩ := place_spec hcap hclearLength hslot
        (by rw [hclear, Function.update_self]) moved
      rw [hclear] at hvacant hbefore
      have hput : (home cap moved + j) % cap < cap := Nat.mod_lt _ (by omega)
      obtain ⟨hrun, hgapped⟩ := h.step (by omega) hlast hend hat hj hvacant hbefore
      have hset : slotAt ((entries.set ((start + k) % cap) .null).set
          ((home cap moved + j) % cap) moved) = Function.update
            (Function.update (slotAt entries) ((start + k) % cap) .empty)
            ((home cap moved + j) % cap) (.full moved) := by
        rw [slotAt_set (by omega), hclear, slotOf_full hfree]
      rw [← hset] at hgapped
      have hnext : next cap ((start + k) % cap) = (start + (k + 1)) % cap := by
        rw [next_eq hcap, Nat.mod_add_mod, Nat.add_assoc]
      have hstill : slotAt ((entries.set ((start + k) % cap) .null).set
          ((home cap moved + j) % cap) moved) ((start + last) % cap) = .empty := by
        have houter : (start + last) % cap ≠ (home cap moved + j) % cap := by
          intro heq
          rw [← heq] at hrun
          exact not_inRun (by omega) hlast hrun
        have hinner : (start + last) % cap ≠ (start + k) % cap := by
          intro heq
          have := offset_inj hlast (by omega) heq
          omega
        rw [hset, Function.update_of_ne houter, Function.update_of_ne hinner]
        exact hend
      have hcount : (occupied ((entries.set ((start + k) % cap) .null).set
          ((home cap moved + j) % cap) moved)).length = (occupied entries).length := by
        rw [occupied_set hclearLength hput (by rw [hclear]; exact hvacant) hfree,
          occupied_clear hlength hslot hat]
      obtain ⟨entries', hclose, hlength', hvalid, hcount'⟩ :=
        ih (by rw [List.length_set, hclearLength]) hgapped (by omega) hstill (by omega)
      refine ⟨entries', ?_, hlength', hvalid, hcount'.trans hcount⟩
      rw [if_pos hfree, hplace, hnext]
      exact hclose

/-- What the table is for: the block of every object that has one, and all blocks. -/
structure Handles where
  map : UInt64 → Option ℕ
  blocks : List Block

def Handles.empty : Handles :=
  ⟨fun _ => none, []⟩

/-- The block of an object; one without a block gets the next. -/
def Handles.ctrlFor (m : Handles) (obj : UInt64) : ℕ × Handles :=
  match m.map obj with
  | some c => (c, m)
  | none =>
    (m.blocks.length,
      ⟨Function.update m.map obj (some m.blocks.length), m.blocks ++ [⟨obj, 1, false⟩]⟩)

/-- An object loses its block, which dies. -/
def Handles.invalidate (m : Handles) (obj : UInt64) : Handles :=
  match m.map obj with
  | some c => ⟨Function.update m.map obj none, m.blocks.modify c Block.die⟩
  | none => m

/-- The entries that the map asks for. -/
def Stored (m : Handles) (e : Entry) : Prop :=
  m.map e.obj = e.ctrl ∧ e.ctrl ≠ none

/-- The table is in shape, and its slots hold what the map has. -/
structure Represents (t : Table) (m : Handles) : Prop where
  size : t.cap = 0 ∨ 64 ≤ t.cap ∧ ∃ b, t.cap = 2 ^ b
  length : t.entries.length = t.cap
  valid : Valid t.cap (home t.cap) (Stored m) (slotAt t.entries)
  count : (occupied t.entries).length = t.len
  room : t.cap ≠ 0 → t.len < t.cap
  live : t.live = decide (t.len ≠ 0)
  blocks : t.blocks = m.blocks
  null : m.map 0 = none
  held : ∀ obj c, m.map obj = some c → m.blocks[c]? = some ⟨obj, 1, false⟩
  dead : ∀ c block, m.blocks[c]? = some block → (∀ obj, m.map obj ≠ some c) →
    block = ⟨0, 0, true⟩

theorem represents_empty : Represents .empty .empty where
  size := .inl rfl
  length := rfl
  valid := (Valid.nil 0 (home 0)).congr (fun e => by simp [Stored, Handles.empty, eq_comm])
    fun _ _ => rfl
  count := rfl
  room h := absurd rfl h
  live := rfl
  blocks := rfl
  null := rfl
  held _ _ h := by cases h
  dead _ _ h := by cases h

variable {t : Table} {m : Handles}

theorem mem_occupied_iff (hlength : entries.length = cap) :
    e ∈ occupied entries ↔ ∃ i < cap, slotAt entries i = .full e := by
  rw [occupied, List.mem_filter, decide_eq_true_eq]
  constructor
  · rintro ⟨hmem, he⟩
    obtain ⟨i, hi, rfl⟩ := List.getElem_of_mem hmem
    refine ⟨i, by omega, ?_⟩
    rw [slotAt, List.getD_eq_getElem _ _ hi]
    exact slotOf_full he
  · rintro ⟨i, hi, hslot⟩
    obtain ⟨hget, he⟩ := slotOf_eq_full.mp hslot
    rw [List.getD_eq_getElem _ _ (by omega)] at hget
    exact ⟨hget ▸ List.getElem_mem _, he⟩

/-- The occupied slots hold what the map asks for. -/
theorem Represents.mem_occupied (h : Represents t m) :
    e ∈ occupied t.entries ↔ Stored m e := by
  rw [mem_occupied_iff h.length]
  constructor
  · rintro ⟨i, hi, hslot⟩
    exact h.valid.live_of_full i hi e hslot
  · intro hstored
    obtain ⟨k, hk, hslot, -⟩ := h.valid.reach e hstored
    exact ⟨_, Nat.mod_lt _ (by omega), hslot⟩

theorem Represents.nodup (h : Represents t m) :
    (occupied t.entries).Nodup := by
  refine List.pairwise_filter.mpr (List.pairwise_iff_getElem.mpr fun i j hi hj hij hp hp' heq => ?_)
  rw [decide_eq_true_eq] at hp hp'
  have hlength := h.length
  have hslot : slotAt t.entries i = .full t.entries[i] := by
    rw [slotAt, List.getD_eq_getElem _ _ hi]
    exact slotOf_full hp
  have hslot' : slotAt t.entries j = .full t.entries[i] := by
    rw [slotAt, List.getD_eq_getElem _ _ hj, heq]
    exact slotOf_full hp'
  have := h.valid.unique i (by omega) j (by omega) _ hslot hslot'
  omega

/-- Growing changes no object's block and leaves room for a new entry. -/
theorem weakTableGrow_spec (h : Represents t m) :
    ∃ t', weakTableGrow t = some t' ∧ Represents t' m ∧ t'.cap ≠ 0 ∧
      t'.len * 4 < t'.cap * 3 := by
  obtain ⟨cap, b, hcap, hsize, hpow, hroom⟩ : ∃ cap b,
      (if t.cap ≠ 0 then t.cap * 2 else 64) = cap ∧ 64 ≤ cap ∧ cap = 2 ^ b ∧
        t.len * 4 < cap * 3 := by
    rcases h.size with hzero | ⟨hmin, b, hb⟩
    · refine ⟨64, 6, by rw [if_neg (not_not.mpr hzero)], le_rfl, rfl, ?_⟩
      have hcount := h.count
      rw [List.length_eq_zero_iff.mp (h.length.trans hzero)] at hcount
      rw [← hcount]
      decide
    · have hroom := h.room (by omega)
      refine ⟨t.cap * 2, b + 1, if_pos (by omega), by omega, ?_, by omega⟩
      rw [pow_succ, hb]
  have hcount := h.count
  obtain ⟨grown, stored, hgrow, hholds, hperm⟩ := regrow_spec hpow t.entries (holds_replicate cap)
    (by rw [List.length_nil]; omega) (by rw [List.append_nil]; exact h.nodup)
  rw [List.append_nil] at hperm
  refine ⟨{ t with entries := grown, cap := cap }, ?_, ?_, by dsimp only; omega, hroom⟩
  · rw [weakTableGrow, hcap, hgrow]
    rfl
  · refine ⟨.inr ⟨hsize, b, hpow⟩, hholds.length, ?_, ?_, fun _ => ?_, h.live, h.blocks, h.null,
      h.held, h.dead⟩
    · refine hholds.valid.congr (fun e => ?_) fun _ _ => rfl
      rw [hperm.mem_iff, h.mem_occupied]
    · exact hholds.count.trans (hperm.length_eq.trans hcount)
    · dsimp only
      omega

/-- The search for an object ends at its entry, or at a free slot where it may be put. -/
theorem findFrom_spec (h : Represents t m) (hcap : t.cap ≠ 0) (hobj : obj ≠ 0) :
    ∃ k < t.cap,
      findFrom t.entries t.cap obj t.cap (weakSlotFor obj t.cap) =
        some ((weakSlotFor obj t.cap + k) % t.cap) ∧
      (∀ c, m.map obj = some c →
        slotAt t.entries ((weakSlotFor obj t.cap + k) % t.cap) = .full ⟨obj, some c⟩) ∧
      (m.map obj = none →
        slotAt t.entries ((weakSlotFor obj t.cap + k) % t.cap) = .empty ∧
        ∀ j < k, slotAt t.entries ((weakSlotFor obj t.cap + j) % t.cap) ≠ .empty) := by
  obtain ⟨-, b, hb⟩ := h.size.resolve_left hcap
  obtain ⟨free, hfree, hempty⟩ := exists_free h.length (by rw [h.count]; exact h.room hcap)
  have hstart := weakSlotFor_lt obj (Nat.pos_of_ne_zero hcap)
  obtain ⟨k, hk, hprobe, hstop, hpassed⟩ :=
    probe_round (fun i => decide ((t.entries.getD i .null).obj = 0 ∨
      (t.entries.getD i .null).obj = obj)) hstart hfree
      (decide_eq_true (.inl (slotOf_eq_empty.mp hempty)))
  have hlt : (weakSlotFor obj t.cap + k) % t.cap < t.cap := Nat.mod_lt _ (by omega)
  have hstands : slotAt t.entries ((weakSlotFor obj t.cap + k) % t.cap) = .empty ∨
      ∃ e, slotAt t.entries ((weakSlotFor obj t.cap + k) % t.cap) = .full e ∧ e.obj = obj := by
    rcases of_decide_eq_true hstop with hzero | hsame
    · exact .inl (slotOf_eq_empty.mpr hzero)
    · have hne : (t.entries.getD ((weakSlotFor obj t.cap + k) % t.cap) .null).obj ≠ 0 := by
        rw [hsame]
        exact hobj
      exact .inr ⟨_, slotOf_full hne, hsame⟩
  refine ⟨k, hk, findFrom_of_probe hb h.length hstart hprobe, fun c hc => ?_, fun hnone => ?_⟩
  · refine @Valid.stops_at _ _ _ _ _ h.valid (fun e => e.obj = obj) ⟨obj, some c⟩ k hk
      ⟨hc, Option.some_ne_none c⟩ ?_ hstands ?_
    · rintro ⟨obj', ctrl⟩ ⟨hmap, -⟩ hsame
      change obj' = obj at hsame
      change m.map obj' = ctrl at hmap
      rw [← hmap, hsame, hc]
    · intro j hj hfull
      refine of_decide_eq_false (hpassed j hj) (.inr ?_)
      obtain ⟨hget, -⟩ := slotOf_eq_full.mp hfull
      exact congrArg Entry.obj hget
  · refine ⟨?_, fun j hj hnone' => ?_⟩
    · rcases hstands with hempty | ⟨e, hfull, rfl⟩
      · exact hempty
      · obtain ⟨hmap, hctrl⟩ := h.valid.live_of_full _ hlt e hfull
        exact absurd (hmap.symm.trans hnone) hctrl
    · exact of_decide_eq_false (hpassed j hj) (.inl (slotOf_eq_empty.mp hnone'))

theorem getD_of_slotAt {i : ℕ} (h : slotAt entries i = .full e) :
    entries.getD i .null = e :=
  (slotOf_eq_full.mp h).1

theorem stored_update_some (hnone : m.map obj = none) (c : ℕ) (blocks : List Block)
    (y : Entry) :
    Stored ⟨Function.update m.map obj (some c), blocks⟩ y ↔ Stored m y ∨ y = ⟨obj, some c⟩ := by
  obtain ⟨obj', ctrl⟩ := y
  by_cases hobj : obj' = obj
  · subst hobj
    simp only [Stored, Function.update_self, hnone, Entry.mk.injEq, true_and]
    refine ⟨fun h => .inr h.1.symm, fun h => ?_⟩
    rcases h with ⟨h, hne⟩ | h
    · exact absurd h.symm hne
    · rw [h]
      exact ⟨rfl, Option.some_ne_none c⟩
  · simp only [Stored, Function.update_of_ne hobj, Entry.mk.injEq, hobj, false_and, or_false]

theorem stored_update_none (hsome : m.map obj = some c) (blocks : List Block) (y : Entry) :
    Stored ⟨Function.update m.map obj none, blocks⟩ y ↔ Stored m y ∧ y ≠ ⟨obj, some c⟩ := by
  obtain ⟨obj', ctrl⟩ := y
  by_cases hobj : obj' = obj
  · subst hobj
    simp only [Stored, Function.update_self, hsome, ne_eq, Entry.mk.injEq, true_and]
    refine iff_of_false (fun h => h.2 h.1.symm) fun h => h.2 h.1.1.symm
  · simp only [Stored, Function.update_of_ne hobj, ne_eq, Entry.mk.injEq, hobj, false_and,
      not_false_eq_true, and_true]

/-- An object keeps its block, and one without a block gets a new one. -/
theorem weakCtrlIn_spec (h : Represents t m) (hcap : t.cap ≠ 0) (hload : t.len * 4 < t.cap * 3)
    (hobj : obj ≠ 0) :
    ∃ t', weakCtrlIn t obj = some ((m.ctrlFor obj).1, t') ∧
      Represents t' (m.ctrlFor obj).2 := by
  obtain ⟨k, hk, hfind, hsome, hnone⟩ := findFrom_spec h hcap hobj
  have hlt : (weakSlotFor obj t.cap + k) % t.cap < t.cap := Nat.mod_lt _ (by omega)
  have hlength := h.length
  rw [weakCtrlIn, hfind, Option.bind_some, getElem?_eq_getD (by omega), Option.bind_some,
    Handles.ctrlFor]
  cases hmap : m.map obj with
  | some c =>
    rw [getD_of_slotAt (hsome c hmap), if_pos hobj]
    exact ⟨t, rfl, h⟩
  | none =>
    obtain ⟨hempty, hbefore⟩ := hnone hmap
    obtain ⟨hsize, b, hb⟩ := h.size.resolve_left hcap
    rw [if_neg (not_not.mpr (slotOf_eq_empty.mp hempty)), h.blocks]
    refine ⟨_, rfl, .inr ⟨hsize, b, hb⟩, ?_, ?_, ?_, fun _ => ?_, ?_, rfl, ?_, ?_, ?_⟩
    · exact List.length_set.trans hlength
    · dsimp only
      rw [slotAt_set (by omega), slotOf_full hobj]
      refine (@Valid.place _ _ _ _ _ h.valid ⟨obj, some m.blocks.length⟩ k hk (fun y hy => ?_)
        hbefore fun hstored => ?_).congr (stored_update_some hmap _ _) fun _ _ => rfl
      · exact absurd (hempty.symm.trans hy) (by simp)
      · exact absurd (hmap.symm.trans hstored.1) (by simp)
    · dsimp only
      rw [occupied_set hlength hlt hempty hobj, h.count]
    · dsimp only
      omega
    · exact (decide_eq_true (Nat.succ_ne_zero t.len)).symm
    · exact (Function.update_of_ne (Ne.symm hobj) _ _).trans h.null
    · intro obj' c hc
      by_cases hsame : obj' = obj
      · subst hsame
        dsimp only at hc ⊢
        rw [Function.update_self] at hc
        rw [← Option.some.inj hc, List.getElem?_concat_length]
      · dsimp only at hc ⊢
        rw [Function.update_of_ne hsame] at hc
        have hheld := h.held obj' c hc
        rw [List.getElem?_append_left (List.getElem?_eq_some_iff.mp hheld).1, hheld]
    · intro c block hc hfree
      dsimp only at hc hfree
      have hne : c ≠ m.blocks.length := by
        rintro rfl
        exact hfree obj (Function.update_self _ _ _)
      have hin : c < m.blocks.length := by
        have := (List.getElem?_eq_some_iff.mp hc).1
        rw [List.length_append, List.length_singleton] at this
        omega
      rw [List.getElem?_append_left hin] at hc
      refine h.dead c block hc fun obj' hobj' => ?_
      by_cases hsame : obj' = obj
      · rw [hsame, hmap] at hobj'
        cases hobj'
      · exact hfree obj' ((Function.update_of_ne hsame _ _).trans hobj')

theorem weakCtrlFor_spec (h : Represents t m) (hobj : obj ≠ 0) :
    ∃ t', weakCtrlFor t obj = some ((m.ctrlFor obj).1, t') ∧
      Represents t' (m.ctrlFor obj).2 := by
  rw [weakCtrlFor]
  by_cases hgrow : t.cap = 0 ∨ t.len * 4 ≥ t.cap * 3
  · obtain ⟨grown, hgrown, hrep, hcap, hload⟩ := weakTableGrow_spec h
    rw [if_pos hgrow, hgrown]
    exact weakCtrlIn_spec hrep hcap hload hobj
  · rw [not_or] at hgrow
    rw [if_neg (by rw [not_or]; exact hgrow)]
    exact weakCtrlIn_spec h hgrow.1 (not_le.mp hgrow.2) hobj

/-- An object without entries has no block. -/
theorem map_eq_none (h : Represents t m) (hlen : t.len = 0) (obj : UInt64) :
    m.map obj = none := by
  cases hmap : m.map obj with
  | none => rfl
  | some c =>
    have hmem : (⟨obj, some c⟩ : Entry) ∈ occupied t.entries :=
      h.mem_occupied.mpr ⟨hmap, Option.some_ne_none c⟩
    rw [List.length_eq_zero_iff.mp (h.count.trans hlen)] at hmem
    cases hmem

/-- The table without the slot represents the map without the object. -/
theorem weakTableRemove_spec (h : Represents t m) (hcap : t.cap ≠ 0) (hmap : m.map obj = some c)
    (hslot : slot < t.cap) (hat : slotAt t.entries slot = .full ⟨obj, some c⟩) :
    ∃ t', weakTableRemove { t with blocks := t.blocks.modify c Block.die } slot = some t' ∧
      Represents t' (m.invalidate obj) := by
  obtain ⟨hsize, b, hb⟩ := h.size.resolve_left hcap
  have hlength := h.length
  have hclear := slotAt_clear_lt hlength hslot
  obtain ⟨free, hfree, hempty⟩ := exists_free hlength (by rw [h.count]; exact h.room hcap)
  obtain ⟨last, hlast, hoffset⟩ := exists_offset hslot hfree
  have hne : free ≠ slot := by
    rintro rfl
    rw [hat] at hempty
    cases hempty
  have hpos : last ≠ 0 := by
    rintro rfl
    rw [Nat.add_zero, Nat.mod_eq_of_lt hslot] at hoffset
    exact hne hoffset.symm
  have hgapped := h.valid.gap hslot hat
  rw [← hclear] at hgapped
  obtain ⟨entries', hclose, hlength', hvalid, hcount⟩ :=
    @closeFrom_spec _ _ _ hb _ slot 1 last t.cap (by rw [List.length_set, hlength]) hgapped
      (by omega) hlast
      (by rw [hoffset, hclear, Function.update_of_ne hne]; exact hempty) (by omega)
  have hoccupied := occupied_clear hlength hslot hat
  rw [← hcount, h.count] at hoccupied
  rw [weakTableRemove, Handles.invalidate, hmap]
  dsimp only
  rw [next_eq hb, hclose]
  refine ⟨_, rfl, .inr ⟨hsize, b, hb⟩, hlength', ?_, ?_, fun _ => ?_, rfl, ?_, ?_, ?_, ?_⟩
  · exact hvalid.congr (stored_update_none hmap _) fun _ _ => rfl
  · dsimp only
    omega
  · have := h.room hcap
    dsimp only
    omega
  · rw [h.blocks]
  · dsimp only
    by_cases hzero : (0 : UInt64) = obj
    · rw [← hzero, Function.update_self]
    · rw [Function.update_of_ne hzero]
      exact h.null
  · intro obj' c' hc'
    dsimp only at hc' ⊢
    have hsame : obj' ≠ obj := by
      rintro rfl
      rw [Function.update_self] at hc'
      cases hc'
    rw [Function.update_of_ne hsame] at hc'
    have hother : c ≠ c' := by
      rintro rfl
      have hheld := (h.held obj' c hc').symm.trans (h.held obj c hmap)
      exact hsame (congrArg Block.value (Option.some.inj hheld))
    rw [List.getElem?_modify_ne _ _ hother, h.held obj' c' hc']
  · intro c' block hc' hnone
    dsimp only at hc' hnone
    by_cases hsame : c = c'
    · subst hsame
      rw [List.getElem?_modify_eq, h.held obj c hmap] at hc'
      exact (Option.some.inj hc').symm
    · rw [List.getElem?_modify_ne _ _ hsame] at hc'
      refine h.dead c' block hc' fun obj' hobj' => ?_
      by_cases hobj : obj' = obj
      · rw [hobj, hmap] at hobj'
        exact hsame (Option.some.inj hobj')
      · exact hnone obj' ((Function.update_of_ne hobj _ _).trans hobj')

theorem rtWeakInvalidate_spec (h : Represents t m) (hobj : obj ≠ 0) :
    ∃ t', rtWeakInvalidate t obj = some t' ∧ Represents t' (m.invalidate obj) := by
  have hnothing : m.map obj = none → Represents t (m.invalidate obj) := by
    intro hnone
    rw [Handles.invalidate, hnone]
    exact h
  rw [rtWeakInvalidate]
  by_cases hlive : t.live = false
  · rw [h.live, decide_eq_false_iff_not, not_not] at hlive
    rw [if_pos (by rw [h.live, hlive]; rfl)]
    exact ⟨t, rfl, hnothing (map_eq_none h hlive obj)⟩
  rw [if_neg hlive]
  by_cases hcap : t.cap = 0
  · have hlen : t.len = 0 := by
      rw [← h.count, List.length_eq_zero_iff.mp (h.length.trans hcap)]
      rfl
    rw [if_pos hcap]
    exact ⟨t, rfl, hnothing (map_eq_none h hlen obj)⟩
  obtain ⟨k, hk, hfind, hsome, hnone⟩ := findFrom_spec h hcap hobj
  have hlt : (weakSlotFor obj t.cap + k) % t.cap < t.cap := Nat.mod_lt _ (by omega)
  have hlength := h.length
  rw [if_neg hcap, hfind, Option.bind_some, getElem?_eq_getD (by omega), Option.bind_some]
  cases hmap : m.map obj with
  | some c =>
    rw [getD_of_slotAt (hsome c hmap), if_pos hobj, Option.bind_some]
    exact weakTableRemove_spec h hcap hmap hlt (hsome c hmap)
  | none =>
    rw [if_neg (not_not.mpr (slotOf_eq_empty.mp (hnone hmap).1))]
    exact ⟨t, rfl, hnothing hmap⟩

/-- The address of an object, which is not null. -/
abbrev Address := { obj : UInt64 // obj ≠ 0 }

inductive Call where
  | ctrlFor (obj : Address)
  | invalidate (obj : Address)
deriving DecidableEq

def Table.call (t : Table) : Call → Option (Option ℕ × Table)
  | .ctrlFor obj => (weakCtrlFor t obj).map fun r => (some r.1, r.2)
  | .invalidate obj => (rtWeakInvalidate t obj).map fun t' => (none, t')

def Table.run (t : Table) : List Call → Option (List (Option ℕ) × Table)
  | [] => some ([], t)
  | call :: calls => (t.call call).bind fun r => (r.2.run calls).map fun s => (r.1 :: s.1, s.2)

def Handles.call (m : Handles) : Call → Option ℕ × Handles
  | .ctrlFor obj => (some (m.ctrlFor obj).1, (m.ctrlFor obj).2)
  | .invalidate obj => (none, m.invalidate obj)

def Handles.run (m : Handles) : List Call → List (Option ℕ) × Handles
  | [] => ([], m)
  | call :: calls => ((m.call call).1 :: ((m.call call).2.run calls).1, ((m.call call).2.run calls).2)

theorem call_spec (h : Represents t m) (call : Call) :
    ∃ t', t.call call = some ((m.call call).1, t') ∧ Represents t' (m.call call).2 := by
  cases call with
  | ctrlFor obj =>
    obtain ⟨t', hcall, hrep⟩ := weakCtrlFor_spec h obj.property
    exact ⟨t', by rw [Table.call, hcall]; rfl, hrep⟩
  | invalidate obj =>
    obtain ⟨t', hcall, hrep⟩ := rtWeakInvalidate_spec h obj.property
    exact ⟨t', by rw [Table.call, hcall]; rfl, hrep⟩

theorem run_spec (h : Represents t m) (calls : List Call) :
    ∃ t', t.run calls = some ((m.run calls).1, t') ∧ Represents t' (m.run calls).2 := by
  induction calls generalizing t m with
  | nil => exact ⟨t, rfl, h⟩
  | cons call calls ih =>
    obtain ⟨t', hcall, hrep⟩ := call_spec h call
    obtain ⟨t'', hrun, hrep'⟩ := ih hrep
    refine ⟨t'', ?_, hrep'⟩
    rw [Table.run, hcall, Option.bind_some, hrun]
    rfl

theorem run_append (m : Handles) (calls calls' : List Call) :
    (m.run (calls ++ calls')).2 = ((m.run calls).2.run calls').2 := by
  induction calls generalizing m with
  | nil => rfl
  | cons call calls ih => exact ih (m.call call).2

/-- Other objects keep their blocks, and no block is forgotten. -/
theorem map_call (hmap : m.map obj = some c) {call : Call}
    (hcall : ∀ h, call ≠ .invalidate ⟨obj, h⟩) :
    (m.call call).2.map obj = some c := by
  cases call with
  | ctrlFor other =>
    rw [Handles.call, Handles.ctrlFor]
    cases hother : m.map other with
    | some c' => exact hmap
    | none =>
      have hne : obj ≠ other.val := by
        intro heq
        rw [← heq, hmap] at hother
        cases hother
      exact (Function.update_of_ne hne _ _).trans hmap
  | invalidate other =>
    rw [Handles.call, Handles.invalidate]
    cases hother : m.map other with
    | none => exact hmap
    | some c' =>
      have hne : obj ≠ other.val := by
        rintro rfl
        exact hcall other.property rfl
      exact (Function.update_of_ne hne _ _).trans hmap

variable {calls : List Call}

theorem map_run {obj : Address} (hmap : m.map obj = some c) (hcalls : .invalidate obj ∉ calls) :
    (m.run calls).2.map obj = some c := by
  induction calls generalizing m with
  | nil => exact hmap
  | cons call calls ih =>
    rw [List.mem_cons, not_or] at hcalls
    exact ih (map_call hmap fun _ heq => hcalls.1 heq.symm) hcalls.2

/-- Every block of an object was allocated after the first `n`. -/
structure After (n : ℕ) (m : Handles) (obj : UInt64) : Prop where
  length : n ≤ m.blocks.length
  map : ∀ c, m.map obj = some c → n ≤ c

theorem after_call (h : After n m obj) (call : Call) :
    After n (m.call call).2 obj := by
  obtain ⟨hlength, hmap⟩ := h
  cases call with
  | ctrlFor other =>
    rw [Handles.call, Handles.ctrlFor]
    cases m.map other with
    | some c' => exact ⟨hlength, hmap⟩
    | none =>
      refine ⟨?_, fun c hc => ?_⟩
      · exact hlength.trans (by simp)
      · by_cases hsame : obj = other.val
        · rw [hsame] at hc
          have hnew := (Function.update_self _ _ _).symm.trans hc
          rw [← Option.some.inj hnew]
          exact hlength
        · exact hmap c ((Function.update_of_ne hsame _ _).symm.trans hc)
  | invalidate other =>
    rw [Handles.call, Handles.invalidate]
    cases m.map other with
    | none => exact ⟨hlength, hmap⟩
    | some c' =>
      refine ⟨hlength.trans (by simp), fun c hc => ?_⟩
      by_cases hsame : obj = other.val
      · rw [hsame] at hc
        exact absurd ((Function.update_self _ _ _).symm.trans hc) (by simp)
      · exact hmap c ((Function.update_of_ne hsame _ _).symm.trans hc)

theorem after_run (h : After n m obj) (calls : List Call) :
    After n (m.run calls).2 obj := by
  induction calls generalizing m with
  | nil => exact h
  | cons call calls ih => exact ih (after_call h call)

/-- Blocks that are answered are allocated. -/
theorem answers_lt (h : Represents t m) (hc : some c ∈ (m.run calls).1) :
    c < (m.run calls).2.blocks.length := by
  induction calls generalizing t m with
  | nil => cases hc
  | cons call calls ih =>
    obtain ⟨t', -, hrep⟩ := call_spec h call
    rw [Handles.run, List.mem_cons] at hc
    rcases hc with hfirst | hlater
    · refine lt_of_lt_of_le ?_
        (after_run ⟨le_rfl, fun c' hc' => ?_⟩ calls : After _ _ (0 : UInt64)).length
      · cases call with
        | invalidate obj => cases hfirst
        | ctrlFor obj =>
          rw [Option.some.inj hfirst]
          have hheld : ((m.ctrlFor obj).2).map obj = some (m.ctrlFor obj).1 := by
            rw [Handles.ctrlFor]
            cases hmap : m.map obj with
            | some c' => exact hmap
            | none => exact Function.update_self _ _ _
          exact (List.getElem?_eq_some_iff.mp (hrep.held _ _ hheld)).1
      · rw [hrep.null] at hc'
        cases hc'
    · exact ih hrep hlater

/-- What the slots of the table say. -/
structure Refines (t : Table) (m : Handles) : Prop where
  length : t.entries.length = t.cap
  blocks : t.blocks = m.blocks
  len_eq : t.len = (occupied t.entries).length
  map_iff : ∀ obj c, m.map obj = some c ↔ ⟨obj, some c⟩ ∈ occupied t.entries
  one_slot : ∀ i < t.cap, ∀ j < t.cap, (t.entries.getD i .null).obj ≠ 0 →
    (t.entries.getD i .null).obj = (t.entries.getD j .null).obj → i = j
  reach : ∀ i < t.cap, (t.entries.getD i .null).obj ≠ 0 →
    ∃ k < t.cap, (weakSlotFor (t.entries.getD i .null).obj t.cap + k) % t.cap = i ∧
      ∀ j < k, (t.entries.getD
        ((weakSlotFor (t.entries.getD i .null).obj t.cap + j) % t.cap) .null).obj ≠ 0
  held : ∀ obj c, m.map obj = some c → m.blocks[c]? = some ⟨obj, 1, false⟩
  dead : ∀ c block, m.blocks[c]? = some block → (∀ obj, m.map obj ≠ some c) →
    block = ⟨0, 0, true⟩

theorem Represents.refines (h : Represents t m) :
    Refines t m where
  length := h.length
  blocks := h.blocks
  len_eq := h.count.symm
  map_iff obj c := by
    rw [h.mem_occupied, Stored]
    exact ⟨fun hmap => ⟨hmap, Option.some_ne_none c⟩, And.left⟩
  one_slot i hi j hj hne hsame := by
    have hslot : slotAt t.entries i = .full (t.entries.getD i .null) := slotOf_full hne
    have hslot' : slotAt t.entries j = .full (t.entries.getD j .null) := slotOf_full (hsame ▸ hne)
    have hmap := (h.valid.live_of_full i hi _ hslot).1
    have hmap' := (h.valid.live_of_full j hj _ hslot').1
    have hentry : t.entries.getD i .null = t.entries.getD j .null := by
      rw [hsame, hmap'] at hmap
      generalize t.entries.getD i .null = a at hsame hmap ⊢
      generalize t.entries.getD j .null = a' at hsame hmap ⊢
      obtain ⟨obj, ctrl⟩ := a
      obtain ⟨obj', ctrl'⟩ := a'
      rw [Entry.mk.injEq]
      exact ⟨hsame, hmap.symm⟩
    rw [← hentry] at hslot'
    exact h.valid.unique i hi j hj _ hslot hslot'
  reach i hi hne := by
    have hslot : slotAt t.entries i = .full (t.entries.getD i .null) := slotOf_full hne
    have hstored := h.valid.live_of_full i hi _ hslot
    obtain ⟨k, hk, hfull, hbefore⟩ := h.valid.reach _ hstored
    refine ⟨k, hk, ?_, fun j hj hzero => ?_⟩
    · exact h.valid.unique _ (Nat.mod_lt _ (by omega)) i hi _ hfull hslot
    · exact hbefore j hj (slotOf_eq_empty.mpr hzero)
  held := h.held
  dead := h.dead

/-- What an object's block is after some calls. -/
def blockAfter (calls : List Call) (obj : Address) : Option ℕ :=
  (Table.empty.run calls).bind fun s => (weakCtrlFor s.2 obj).map Prod.fst

theorem blockAfter_eq (calls : List Call) (obj : Address) :
    blockAfter calls obj = some ((Handles.empty.run calls).2.ctrlFor obj).1 := by
  obtain ⟨t, hrun, hrep⟩ := run_spec represents_empty calls
  obtain ⟨t', hcall, -⟩ := weakCtrlFor_spec hrep obj.property
  rw [blockAfter, hrun, Option.bind_some, hcall]
  rfl

theorem ctrlFor_of_map (h : m.map obj = some c) :
    (m.ctrlFor obj).1 = c := by
  rw [Handles.ctrlFor, h]

theorem map_ctrlFor (m : Handles) (obj : UInt64) :
    (m.ctrlFor obj).2.map obj = some (m.ctrlFor obj).1 := by
  rw [Handles.ctrlFor]
  cases hmap : m.map obj with
  | some c => exact hmap
  | none => exact Function.update_self _ _ _

/-- Every run ends, answers what the map answers and leaves its blocks.  An object keeps one
block until it is invalidated, and afterwards has none that was answered before. -/
theorem weak_table_refines :
    (∀ calls, ∃ t, Table.empty.run calls = some ((Handles.empty.run calls).1, t) ∧
      Refines t (Handles.empty.run calls).2) ∧
    (∀ before between obj, .invalidate obj ∉ between →
      blockAfter (before ++ .ctrlFor obj :: between) obj = blockAfter before obj) ∧
    ∀ before between obj c, some c ∈ (Handles.empty.run before).1 →
      blockAfter (before ++ .invalidate obj :: between) obj ≠ some c := by
  refine ⟨fun calls => ?_, fun before between obj hbetween => ?_,
    fun before between obj c hc => ?_⟩
  · obtain ⟨t, hrun, hrep⟩ := run_spec represents_empty calls
    exact ⟨t, hrun, hrep.refines⟩
  · have hkeep := map_run (map_ctrlFor (Handles.empty.run before).2 obj) hbetween
    rw [blockAfter_eq, blockAfter_eq, run_append]
    exact congrArg some (ctrlFor_of_map hkeep)
  · obtain ⟨t, -, hrep⟩ := run_spec represents_empty before
    have hlt := answers_lt represents_empty hc
    have hgone : After (Handles.empty.run before).2.blocks.length
        ((Handles.empty.run before).2.invalidate obj) obj := by
      rw [Handles.invalidate]
      cases hmap : (Handles.empty.run before).2.map obj with
      | none =>
        refine ⟨le_rfl, fun c hc => ?_⟩
        rw [hmap] at hc
        cases hc
      | some c' =>
        refine ⟨by simp, fun c hc => ?_⟩
        exact absurd ((Function.update_self _ _ _).symm.trans hc) (by simp)
    have hafter := after_call (after_run hgone between) (.ctrlFor obj)
    have hge := hafter.map _ (map_ctrlFor _ obj)
    rw [blockAfter_eq, run_append]
    intro heq
    have hsame : (((((Handles.empty.run before).2.invalidate obj).run between).2).ctrlFor obj).1 =
        c := Option.some.inj heq
    omega

end Weak
end Beans
