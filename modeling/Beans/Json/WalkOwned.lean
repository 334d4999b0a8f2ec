import Beans.Json.WalkLoop

/-!
# Ownership during the walk

At every point of the walk, the storage reached so far owns each allocation
exactly once, and releasing the record by its schema reaches all of them.  A
refused document therefore leaves nothing behind.
-/

namespace Beans
namespace Json

variable {schema : Schema Kind} {loop loop' : Loop} {maximum depth : ℕ}
  {name : Text} {value : Value} {kind : Kind} {boxed : Bool} {bits : UInt64}
  {ids ids' : List ℕ} {start middle stop : ℕ}

/-- The list names every allocation made between two counts, once. -/
structure Accounts (ids : List ℕ) (start stop : ℕ) : Prop where
  le : start ≤ stop
  perm : ids.Perm (List.range' start (stop - start))

theorem Accounts.nil : Accounts [] start start where
  le := le_rfl
  perm := by simp

theorem Accounts.one : Accounts [start] start (start + 1) where
  le := Nat.le_succ start
  perm := by simp

theorem Accounts.append (h : Accounts ids start middle) (h' : Accounts ids' middle stop) :
    Accounts (ids ++ ids') start stop where
  le := h.le.trans h'.le
  perm := by
    have hle := h.le
    have hle' := h'.le
    have hsplit : List.range' start (middle - start) ++
        List.range' middle (stop - middle) = List.range' start (stop - start) := by
      have hmiddle : middle = start + (middle - start) := by omega
      have hlength : stop - start = (middle - start) + (stop - middle) := by omega
      rw [hlength, ← List.range'_append_1, ← hmiddle]
    rw [← hsplit]
    exact h.perm.append h'.perm

theorem Accounts.congr (h : Accounts ids start stop) (hperm : ids'.Perm ids) :
    Accounts ids' start stop :=
  ⟨h.le, hperm.trans h.perm⟩

/-- A counted list releases each allocation exactly once. -/
theorem Accounts.released (h : Accounts ids 0 stop) : ids.Perm (List.range stop) := by
  rw [List.range_eq_range']
  exact h.perm

theorem owned_record (cells : List (Cell Stored)) : owned (.record cells) = cellsOwned cells :=
  rfl

theorem cellsOwned_cons (cell : Cell Stored) (cells : List (Cell Stored)) :
    cellsOwned (cell :: cells) = owned cell.value ++ cellsOwned cells :=
  rfl

theorem releaseField_record (schema : Schema Kind) (cells : List (Cell Stored)) :
    releaseField false (.struct schema) (.record cells) = releaseRecord schema.fields cells :=
  rfl

theorem releaseRecord_cons (field : TypedField Kind) (fields : List (TypedField Kind))
    (cell : Cell Stored) (cells : List (Cell Stored)) :
    releaseRecord (field :: fields) (cell :: cells) =
      releaseField field.boxedOption field.kind cell.value ++ releaseRecord fields cells :=
  rfl

/-- The storage of a field owns what was allocated for it, and its release
reaches all of it. -/
structure Owns (boxed : Bool) (kind : Kind) (start stop : ℕ) (stored : Stored) :
    Prop where
  accounts : Accounts (owned stored) start stop
  releases : releaseField boxed kind stored = owned stored

theorem Owns.word : Owns boxed kind start start (.word bits) where
  accounts := Accounts.nil
  releases := by
    cases boxed
    · cases kind <;> rfl
    · cases kind <;> rfl

theorem Owns.text (bytes : Text) :
    Owns false .string start (start + 1) (.text start bytes) where
  accounts := Accounts.one
  releases := rfl

theorem Owns.box {content : Stored} (kind : Kind)
    (h : Owns false kind (start + 1) stop content) :
    Owns true kind start stop (.box start content) where
  accounts := Accounts.one.append h.accounts
  releases := by cases kind <;> rfl

/-- The cells of a record own what was allocated for them. -/
structure CellsOwn (schema : Schema Kind) (start stop : ℕ)
    (cells : List (Cell Stored)) : Prop where
  accounts : Accounts (cellsOwned cells) start stop
  releases : ∀ (index : ℕ) field cell, schema.fields[index]? = some field →
    cells[index]? = some cell →
      releaseField field.boxedOption field.kind cell.value = owned cell.value

/-- Field by field, the release of a record reaches what its cells own. -/
theorem releaseRecord_eq (fields : List (TypedField Kind)) (cells : List (Cell Stored))
    (hlength : cells.length = fields.length)
    (h : ∀ (index : ℕ) field cell, fields[index]? = some field →
      cells[index]? = some cell →
        releaseField field.boxedOption field.kind cell.value = owned cell.value) :
    releaseRecord fields cells = cellsOwned cells := by
  induction fields generalizing cells with
  | nil =>
    rw [List.length_eq_zero_iff.mp hlength]
    rfl
  | cons field fields ih =>
    cases cells with
    | nil => exact absurd hlength (by simp)
    | cons cell cells =>
      have hcell := h 0 field cell rfl rfl
      have hrest := ih cells (by simpa using hlength)
        fun index f c hf hc => h (index + 1) f c hf hc
      rw [releaseRecord_cons, cellsOwned_cons, hcell, hrest]

theorem CellsOwn.record {cells : List (Cell Stored)}
    (h : CellsOwn schema start stop cells)
    (hlength : cells.length = schema.fields.length) :
    Owns false (.struct schema) start stop (.record cells) where
  accounts := by
    rw [owned_record]
    exact h.accounts
  releases := by
    rw [releaseField_record, owned_record]
    exact releaseRecord_eq schema.fields cells hlength h.releases

variable {cell : Cell Stored} {index : ℕ}

theorem initRecord_getElem? (h : (initRecord schema)[index]? = some cell) :
    ∃ bits, cell.value = .word bits := by
  unfold initRecord at h
  rw [List.getElem?_map, Option.map_eq_some_iff] at h
  obtain ⟨field, -, rfl⟩ := h
  exact ⟨_, rfl⟩

theorem cellsOwned_eq_nil (cells : List (Cell Stored))
    (h : ∀ cell ∈ cells, ∃ bits, cell.value = .word bits) :
    cellsOwned cells = [] := by
  induction cells with
  | nil => rfl
  | cons cell cells ih =>
    obtain ⟨bits, hbits⟩ := h cell List.mem_cons_self
    have hword : owned cell.value = [] := by
      rw [hbits]
      rfl
    rw [cellsOwned_cons, hword, ih fun c hc => h c (List.mem_cons_of_mem _ hc),
      List.append_nil]

theorem CellsOwn.init : CellsOwn schema start start (initRecord schema) where
  accounts := by
    rw [cellsOwned_eq_nil _ fun cell hcell => ?_]
    · exact Accounts.nil
    · obtain ⟨index, hindex⟩ := List.getElem?_of_mem hcell
      exact initRecord_getElem? hindex
  releases := by
    intro index field cell _ hcell
    obtain ⟨bits, hbits⟩ := initRecord_getElem? hcell
    rw [hbits]
    exact (Owns.word : Owns _ _ 0 0 _).releases

/-- Storing into a cell that owned nothing adds what the new value owns. -/
theorem cellsOwned_set (cells : List (Cell Stored))
    (cell' : Cell Stored)
    (hcell : cells[index]? = some cell)
    (hfree : owned cell.value = []) :
    (cellsOwned (cells.set index cell')).Perm
      (cellsOwned cells ++ owned cell'.value) := by
  induction cells generalizing index with
  | nil => exact absurd hcell (by simp)
  | cons first cells ih =>
    cases index with
    | zero =>
      rw [List.getElem?_cons_zero, Option.some.injEq] at hcell
      subst hcell
      rw [List.set_cons_zero, cellsOwned_cons, cellsOwned_cons, hfree, List.nil_append]
      exact List.perm_append_comm
    | succ index =>
      have hrest := ih (by simpa using hcell)
      rw [List.set_cons_succ, cellsOwned_cons, cellsOwned_cons, List.append_assoc]
      exact hrest.append_left _

theorem CellsOwn.set {cells : List (Cell Stored)} {index : ℕ} {cell cell' : Cell Stored}
    {field : TypedField Kind}
    (h : CellsOwn schema start middle cells)
    (hcell : cells[index]? = some cell)
    (hfree : owned cell.value = [])
    (hfield : schema.fields[index]? = some field)
    (h' : Owns field.boxedOption field.kind middle stop cell'.value) :
    CellsOwn schema start stop (cells.set index cell') where
  accounts := (h.accounts.append h'.accounts).congr (cellsOwned_set cells cell' hcell hfree)
  releases := by
    intro i f c hf hc
    rw [List.getElem?_set] at hc
    by_cases hi : index = i
    · subst hi
      rw [hfield, Option.some.injEq] at hf
      subst hf
      have hindex : index < cells.length := (List.getElem?_eq_some_iff.mp hcell).1
      rw [if_pos rfl, if_pos hindex, Option.some.injEq] at hc
      rw [← hc]
      exact h'.releases
    · rw [if_neg hi] at hc
      exact h.releases i f c hf hc

theorem scalarDirect_owns (kind : Kind) (value : Value) (bits : UInt64)
    (progress : Progress) :
    Owns false kind progress.allocated
      (scalarDirect kind value (.word bits) progress).2.2.allocated
      (scalarDirect kind value (.word bits) progress).2.1 := by
  cases kind with
  | bool => cases value <;> exact Owns.word
  | sint width =>
    rw [scalarDirect]
    split <;> exact Owns.word
  | uint width =>
    rw [scalarDirect]
    split <;> exact Owns.word
  | f32 =>
    rw [scalarDirect]
    split
    · exact Owns.word
    · split_ifs <;> exact Owns.word
  | f64 =>
    rw [scalarDirect]
    split <;> exact Owns.word
  | string =>
    cases value with
    | str text => exact Owns.text text
    | _ => exact Owns.word
  | struct _ => exact Owns.word
  | list _ => exact Owns.word
  | unsupported => exact Owns.word

theorem storeDirect_owns (field : TypedField Kind) (value : Value)
    (progress : Progress) (run : Stored → Progress → Outcome × Stored × Progress)
    (hcell : cell.value = .word bits)
    (hrun : ∀ bits progress, Owns false field.kind progress.allocated
      (run (.word bits) progress).2.2.allocated (run (.word bits) progress).2.1) :
    Owns field.boxedOption field.kind progress.allocated
      (storeDirect field value cell progress run).2.2.allocated
      (storeDirect field value cell progress run).2.1.value := by
  have hword : Owns field.boxedOption field.kind progress.allocated
      progress.allocated cell.value := by
    rw [hcell]
    exact Owns.word
  rw [storeDirect]
  by_cases hnull : value.isNull = true
  · rw [if_pos hnull]
    split_ifs <;> exact hword
  · rw [if_neg hnull]
    cases hboxed : field.boxedOption with
    | true =>
      have hbox := (hrun 0 { progress with allocated := progress.allocated + 1 }).box
      dsimp only
      split
      · cases field.hasPresence <;> exact hbox
      · exact hbox
    | false =>
      have hplain := hrun bits progress
      rw [← hcell] at hplain
      dsimp only
      split
      · cases field.hasPresence <;> exact hplain
      · exact hplain

/-- A key leaves the loop as it was, its field taken. -/
theorem LoopInv.turned (h : LoopInv schema loop)
    (hturned : Turned schema name loop loop' none) :
    LoopInv schema loop' where
  cells := by rw [hturned.cells, h.cells]
  bitmap := hturned.bitmap
  free := by
    intro index hindex htaken
    have hold := hturned.taken index hindex
    rw [htaken] at hold
    rw [hturned.cells]
    exact h.free index hindex (by simpa using hold.symm)

theorem LoopInv.store (h : LoopInv schema loop)
    (hturned : Turned schema name loop loop' (some index))
    (cell : Cell Stored) (progress : Progress) :
    LoopInv schema
      { loop' with cells := loop'.cells.set index cell, progress := progress } where
  cells := by rw [List.length_set, hturned.cells, h.cells]
  bitmap := hturned.bitmap
  free := by
    intro i hi htaken
    have hold := hturned.taken i hi
    rw [show loop'.taken i = false from htaken, eq_comm, Bool.or_eq_false_iff] at hold
    have hne : index ≠ i := by simpa using hold.1
    rw [List.getElem?_set_ne hne, hturned.cells]
    exact h.free i hi hold.2

/-- The end of an object keeps its cells and makes no allocation. -/
theorem finishObject_keeps (schema : Schema Kind) (walked : Status × Loop) :
    (finishObject schema walked).2.1 = walked.2.cells ∧
      (finishObject schema walked).2.2.allocated = walked.2.progress.allocated := by
  obtain ⟨status, loop⟩ := walked
  cases status with
  | ok =>
    rw [finishObject]
    split <;> exact ⟨rfl, rfl⟩
  | _ => exact ⟨rfl, rfl⟩

mutual

/-- What a stored value owns was allocated since its walk began. -/
theorem valueDirect_owns (maximum : ℕ) (kind : Kind) :
    ∀ (value : Value) (bits : UInt64) (depth : ℕ) (progress : Progress),
      Owns false kind progress.allocated
        (valueDirect maximum kind value (.word bits) depth progress).2.2.allocated
        (valueDirect maximum kind value (.word bits) depth progress).2.1
  | .obj members, bits, depth, progress => by
      unfold valueDirect
      split_ifs
      · exact Owns.word
      cases kind with
      | struct schema =>
        have hmembers := membersDirect_owns maximum schema members depth
          (Loop.init schema progress) progress.allocated (loopInv_init progress)
          CellsOwn.init
        have hkeeps := finishObject_keeps schema
          (membersDirect maximum schema members depth (Loop.init schema progress))
        dsimp only
        rw [hkeeps.1, hkeeps.2]
        exact hmembers.2.record hmembers.1
      | _ => exact scalarDirect_owns _ _ bits progress
  | .arr items, bits, depth, progress => by
      unfold valueDirect
      split_ifs
      · exact Owns.word
      cases kind with
      | struct schema => exact CellsOwn.init.record (by simp [initRecord])
      | list element =>
        dsimp only
        split_ifs
        · exact Owns.word
        · have hitems := itemsDirect_owns maximum element items (depth + 1)
            { progress with allocated := progress.allocated + 1 }
          exact ⟨Accounts.one.append hitems, by simp [releaseField]⟩
      | _ => exact scalarDirect_owns _ _ bits progress
  | .null, bits, depth, progress | .bool _, bits, depth, progress
  | .sint _, bits, depth, progress | .uint _, bits, depth, progress
  | .real _, bits, depth, progress | .str _, bits, depth, progress => by
      unfold valueDirect
      split_ifs
      · exact Owns.word
      cases kind with
      | struct schema => exact CellsOwn.init.record (by simp [initRecord])
      | _ => exact scalarDirect_owns _ _ bits progress

theorem itemsDirect_owns (maximum : ℕ) (element : Kind) :
    ∀ (items : List Value) (depth : ℕ) (progress : Progress),
      Accounts (itemsOwned (itemsDirect maximum element items depth progress).2.1)
        progress.allocated
        (itemsDirect maximum element items depth progress).2.2.allocated
  | [], depth, progress => Accounts.nil
  | item :: rest, depth, progress => by
      have hitem := valueDirect_owns maximum element item 0 depth progress
      rw [itemsDirect]
      generalize valueDirect maximum element item (.word 0) depth progress = result at hitem
      obtain ⟨outcome, stored, progress'⟩ := result
      cases outcome with
      | done => exact hitem.accounts.append (itemsDirect_owns maximum element rest depth progress')
      | _ =>
        simp only [itemsOwned, List.append_nil]
        exact hitem.accounts

/-- What the cells of a record own was allocated for them, each once. -/
theorem membersDirect_owns (maximum : ℕ) (schema : Schema Kind) :
    ∀ (members : List (Text × Value)) (depth : ℕ) (loop : Loop) (start : ℕ),
      LoopInv schema loop →
      CellsOwn schema start loop.progress.allocated loop.cells →
      (membersDirect maximum schema members depth loop).2.cells.length =
          schema.fields.length ∧
        CellsOwn schema start
          (membersDirect maximum schema members depth loop).2.progress.allocated
          (membersDirect maximum schema members depth loop).2.cells
  | [], depth, loop, start, hinv, howns => ⟨hinv.cells, howns⟩
  | (name, value) :: rest, depth, loop, start, hinv, howns => by
      have hstep := @keyStep_spec schema loop maximum depth name value hinv
      rw [membersDirect]
      cases hplace : placeKey schema name loop.turn with
      | none =>
        simp only [hplace] at hstep
        split_ifs at hstep
        · obtain ⟨loop', hkey, hturned⟩ := hstep
          rw [hkey]
          refine membersDirect_owns maximum schema rest depth loop' start
            (hinv.turned hturned) ?_
          rw [hturned.cells, hturned.progress]
          exact howns
        · obtain ⟨loop', hkey, hcells, hallocated⟩ := hstep
          rw [hkey]
          dsimp only
          rw [hcells, hallocated]
          exact ⟨hinv.cells, howns⟩
      | some index =>
        simp only [hplace] at hstep
        split_ifs at hstep with htaken
        · obtain ⟨loop', hkey, hcells, hallocated⟩ := hstep
          rw [hkey]
          dsimp only
          rw [hcells, hallocated]
          exact ⟨hinv.cells, howns⟩
        · obtain ⟨loop', hkey, hturned⟩ := hstep
          have howns' : CellsOwn schema start loop'.progress.allocated loop'.cells := by
            rw [hturned.cells, hturned.progress]
            exact howns
          rw [hkey]
          dsimp only
          cases hfield : schema.fields[index]? with
          | none => exact ⟨by rw [hturned.cells, hinv.cells], howns'⟩
          | some field =>
            have hindex : index < schema.fields.length :=
              (List.getElem?_eq_some_iff.mp hfield).1
            have hfree : loop.taken index = false := by
              simpa [hindex] using htaken
            cases hcell : loop'.cells[index]? with
            | none => exact ⟨by rw [hturned.cells, hinv.cells], howns'⟩
            | some cell =>
              have hinit : (initRecord schema)[index]? = some cell := by
                rw [← hinv.free index hindex hfree, ← hturned.cells, hcell]
              obtain ⟨bits, hbits⟩ := initRecord_getElem? hinit
              have hnothing : owned cell.value = [] := by
                rw [hbits]
                rfl
              have hstored := storeDirect_owns field value
                { loop'.progress with field := some index }
                (fun target progress =>
                  valueDirect maximum field.kind value target (depth + 1) progress)
                hbits
                fun bits progress =>
                  valueDirect_owns maximum field.kind value bits (depth + 1) progress
              dsimp only at hstored ⊢
              generalize storeDirect field value cell
                { loop'.progress with field := some index }
                (fun target progress =>
                  valueDirect maximum field.kind value target (depth + 1) progress)
                = result at hstored
              obtain ⟨outcome, cell', progress'⟩ := result
              have hset := howns'.set hcell hnothing hfield hstored
              have hnext := hinv.store hturned cell' progress'
              cases outcome with
              | done =>
                exact membersDirect_owns maximum schema rest depth _ start hnext hset
              | code error => exact ⟨hnext.cells, hset⟩
              | status status => exact ⟨hnext.cells, hset⟩

end

end Json
end Beans
