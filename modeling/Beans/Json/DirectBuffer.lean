import Beans.Runtime.Bytes
import Beans.Json.Value

/-!
# The buffer of the direct writer

The writer puts its text into a buffer of its own, or straight into the bytes of
the caller, which grow and move under it.  Every step either adds its text or stops,
and leaves what was written before it alone.
-/

namespace Beans
namespace Json

/-- How a step of the writer ended. -/
inductive Wrote where
  | written
  | memory
  | invalid
  /-- A shape that has no document either. -/
  | shape
  | panic
deriving DecidableEq, Repr

/-- The buffer: what is allocated, and how much of it is written. -/
structure Direct where
  store : Bytes
  len : ℕ
  /-- The buffer belongs to a caller, whose own length is `held`. -/
  append : Bool
  held : ℕ
deriving DecidableEq, Repr

abbrev Writer : Type := Direct → Wrote × Direct

/-- The most bytes a caller's buffer may be asked to hold. -/
def reserveLimit : ℕ := 2 ^ 58

/-- Doubles a capacity until it is enough. -/
def doubledCap (need : ℕ) : ℕ → ℕ → ℕ
  | 0, cap => cap
  | rounds + 1, cap => if cap < need then doubledCap need rounds (cap * 2) else cap

/-- `bytes_grow`. -/
def bytesGrow (store : Bytes) (need : ℕ) : Bytes :=
  if need ≤ store.length then store
  else store ++ List.replicate (doubledCap need need store.length - store.length) 0

/-- Doubles a capacity, unless it leaves the range of sizes. -/
def shiftedCap (need : ℕ) : ℕ → ℕ → Option ℕ
  | 0, cap => some cap
  | rounds + 1, cap =>
    if cap < need then
      if (2 ^ 64 - 1) / 2 < cap then none else shiftedCap need rounds (cap * 2)
    else some cap

namespace Direct

def bytes (out : Direct) : Bytes :=
  out.store.take out.len

/-- What the caller's buffer holds. -/
def caller (out : Direct) : Bytes :=
  out.store.take out.held

/-- Sets the length of the caller's buffer and makes room in it. -/
def reserve (out : Direct) (len minCap : ℕ) : Wrote × Direct :=
  if reserveLimit < minCap then (.panic, out)
  else (.written, { out with store := bytesGrow out.store minCap, held := len })

/-- Doubles a buffer of the writer's own. -/
def enlarge (out : Direct) (need : ℕ) : Wrote × Direct :=
  let cap := if out.store.length = 0 then 1024 else out.store.length
  match shiftedCap need 64 cap with
  | none => (.memory, out)
  | some cap =>
    (.written, { out with store := out.store ++ List.replicate (cap - out.store.length) 0 })

def grow (out : Direct) (extra : ℕ) : Wrote × Direct :=
  let need := out.len + extra
  if 2 ^ 64 ≤ need then (.memory, out)
  else if need ≤ out.store.length then (.written, out)
  else if out.append then out.reserve out.len need
  else out.enlarge need

/-- One step after the other, as long as they write. -/
def andThen (first next : Writer) : Writer := fun out =>
  match first out with
  | (.written, out) => next out
  | stopped => stopped

def done : Writer := fun out => (.written, out)

def stop (wrote : Wrote) : Writer := fun out => (wrote, out)

/-- Copies a text to the end. -/
def raw (text : Text) : Writer :=
  andThen (fun out => out.grow text.length) fun out =>
    (.written,
      { out with
        store := out.store.take out.len ++ text ++ out.store.drop (out.len + text.length)
        len := out.len + text.length })

def char (c : UInt8) : Writer :=
  andThen (fun out => out.grow 1) fun out =>
    (.written, { out with store := out.store.set out.len c, len := out.len + 1 })

/-- A buffer a run can have: a caller's one is never without room. -/
structure Valid (out : Direct) : Prop where
  written : out.len ≤ out.store.length
  room : out.append = true → 0 < out.store.length

theorem doubledCap_enough {need rounds cap : ℕ} (hcap : 0 < cap) (h : need ≤ cap + rounds) :
    need ≤ doubledCap need rounds cap ∧ cap ≤ doubledCap need rounds cap := by
  induction rounds generalizing cap with
  | zero => exact ⟨h, le_rfl⟩
  | succ rounds ih =>
    rw [doubledCap]
    split_ifs with hsmall
    · obtain ⟨hneed, hgrown⟩ := @ih (cap * 2) (by omega) (by omega)
      exact ⟨hneed, by omega⟩
    · exact ⟨not_lt.mp hsmall, le_rfl⟩

theorem bytesGrow_spec {store : Bytes} (h : 0 < store.length) (need : ℕ) :
    need ≤ (bytesGrow store need).length ∧ ∃ fresh, bytesGrow store need = store ++ fresh := by
  rw [bytesGrow]
  split_ifs with henough
  · exact ⟨henough, [], (List.append_nil _).symm⟩
  · obtain ⟨hneed, hgrown⟩ := @doubledCap_enough need need store.length h (by omega)
    refine ⟨?_, _, rfl⟩
    rw [List.length_append, List.length_replicate]
    omega

theorem shiftedCap_spec {need rounds cap : ℕ}
    (hcap : 0 < cap)
    (h : need ≤ cap * 2 ^ rounds) :
    (shiftedCap need rounds cap = none ∧ 2 ^ 63 < need) ∨
      ∃ grown, shiftedCap need rounds cap = some grown ∧ need ≤ grown ∧ cap ≤ grown := by
  induction rounds generalizing cap with
  | zero => exact Or.inr ⟨cap, rfl, by simpa using h, le_rfl⟩
  | succ rounds ih =>
    rw [shiftedCap]
    split_ifs with hsmall hlarge
    · exact Or.inl ⟨rfl, by omega⟩
    · rw [pow_succ'] at h
      rcases @ih (cap * 2) (by omega) (by rwa [mul_assoc]) with
        ⟨hnone, hneed⟩ | ⟨grown, hsome, hneed, hgrown⟩
      · exact Or.inl ⟨hnone, hneed⟩
      · exact Or.inr ⟨grown, hsome, hneed, by omega⟩
    · exact Or.inr ⟨cap, rfl, not_lt.mp hsmall, le_rfl⟩

end Direct

/-- The writer ran out of room. -/
def Wrote.isFull : Wrote → Bool
  | memory => true
  | panic => true
  | _ => false

namespace Direct

/-- A step that made room, or stopped for want of it. -/
def MakesRoom (out : Direct) (need : ℕ) (r : Wrote × Direct) : Prop :=
  (r.1 = .written ∧ ∃ fresh held,
      r.2 = { out with store := out.store ++ fresh, held := held } ∧
        need ≤ (out.store ++ fresh).length) ∨
    (r.1.isFull = true ∧ r.2 = out ∧ reserveLimit < need)

variable {out : Direct} {first next : Writer} {wrote : Wrote}

theorem reserve_spec (hroom : 0 < out.store.length) (len need : ℕ) :
    out.MakesRoom need (out.reserve len need) := by
  rw [reserve]
  split_ifs with hlarge
  · exact Or.inr ⟨rfl, rfl, hlarge⟩
  · obtain ⟨hneed, fresh, hfresh⟩ := bytesGrow_spec hroom need
    exact Or.inl ⟨rfl, fresh, len, by rw [hfresh], hfresh ▸ hneed⟩

theorem enlarge_spec (out : Direct) {need : ℕ} (h : need < 2 ^ 64) :
    out.MakesRoom need (out.enlarge need) := by
  have hlimit : reserveLimit = 2 ^ 58 := rfl
  rw [enlarge]
  have hcap : 0 < if out.store.length = 0 then 1024 else out.store.length := by
    split_ifs <;> omega
  have hstore : out.store.length ≤ if out.store.length = 0 then 1024 else out.store.length := by
    split_ifs <;> omega
  generalize (if out.store.length = 0 then 1024 else out.store.length) = cap at hcap hstore ⊢
  have hneed : need ≤ cap * 2 ^ 64 := h.le.trans (Nat.le_mul_of_pos_left _ hcap)
  rcases shiftedCap_spec hcap hneed with ⟨hnone, hlarge⟩ | ⟨grown, hsome, henough, hgrown⟩
  · simp only [hnone]
    exact Or.inr ⟨rfl, rfl, by omega⟩
  · simp only [hsome]
    refine Or.inl ⟨rfl, _, out.held, rfl, ?_⟩
    rw [List.length_append, List.length_replicate]
    omega

/-- Growing makes room and keeps what is there, unless the limit is passed. -/
theorem grow_spec (hout : out.Valid) (extra : ℕ) :
    out.MakesRoom (out.len + extra) (out.grow extra) := by
  have hlimit : reserveLimit = 2 ^ 58 := rfl
  unfold grow
  simp only
  split_ifs with hwrap henough hcaller
  · exact Or.inr ⟨rfl, rfl, by omega⟩
  · exact Or.inl ⟨rfl, [], out.held, by rw [List.append_nil], by rwa [List.append_nil]⟩
  · exact reserve_spec (hout.room hcaller) _ _
  · exact out.enlarge_spec (not_le.mp hwrap)

/-- The buffer after more was written. -/
structure Extends (after before : Direct) (tail : Text) : Prop where
  valid : after.Valid
  bytes : after.bytes = before.bytes ++ tail
  append : after.append = before.append

/-- What a writer does: it adds the text, or runs out of room; and where there is no
text, it stops. -/
def Writes (w : Writer) : Option Text → Prop
  | some text => ∀ out : Direct, out.Valid → ∃ tail, (w out).2.Extends out tail ∧
      ((w out).1 = .written ∧ tail = text ∨
        (w out).1.isFull = true ∧ reserveLimit < out.len + text.length)
  | none => ∀ out : Direct, out.Valid → ∃ tail, (w out).2.Extends out tail ∧
      (w out).1 ≠ .written

theorem Valid.length_bytes (h : out.Valid) : out.bytes.length = out.len := by
  rw [bytes, List.length_take, Nat.min_eq_left h.written]

theorem Valid.extends_self (h : out.Valid) : out.Extends out [] :=
  ⟨h, (List.append_nil _).symm, rfl⟩

theorem Extends.trans {a b c : Direct} {text text' : Text}
    (h : b.Extends a text)
    (h' : c.Extends b text') :
    c.Extends a (text ++ text') :=
  ⟨h'.valid, by rw [h'.bytes, h.bytes, List.append_assoc], h'.append.trans h.append⟩

/-- A text put at the end of a buffer with room for it. -/
theorem Valid.extends_write (h : out.Valid) {fresh store : Bytes} {held : ℕ}
    {text : Text}
    (hroom : out.len + text.length ≤ (out.store ++ fresh).length)
    (hstore : store = (out.store ++ fresh).take out.len ++ text ++
      (out.store ++ fresh).drop (out.len + text.length)) :
    Extends { out with store := store, len := out.len + text.length, held := held } out
      text := by
  have hkept : (out.store ++ fresh).take out.len = out.bytes :=
    List.take_append_of_le_length h.written
  have hlength := h.length_bytes
  have htotal : store.length = (out.store ++ fresh).length := by
    rw [hstore, hkept, List.length_append, List.length_append, List.length_drop, hlength]
    omega
  refine ⟨⟨by simp only [htotal]; exact hroom, fun happend => ?_⟩, ?_, rfl⟩
  · have := h.room happend
    simp only [htotal, List.length_append]
    omega
  · rw [bytes, hstore, hkept]
    exact List.take_left' (by rw [List.length_append, hlength])

theorem andThen_written (h : (first out).1 = .written) :
    andThen first next out = next (first out).2 := by
  rw [andThen, show first out = (.written, (first out).2) from Prod.ext h rfl]

theorem andThen_stopped (h : (first out).1 ≠ .written) :
    andThen first next out = first out := by
  rw [andThen]
  generalize first out = result at h ⊢
  obtain ⟨wrote, out⟩ := result
  cases wrote <;> first | rfl | exact absurd rfl h

theorem isFull_ne_written (h : wrote.isFull = true) : wrote ≠ .written := by
  rintro rfl
  exact absurd h (by simp [Wrote.isFull])

/-- Growing and then putting a text there. -/
theorem writes_put {text : Text} {put : Writer}
    (hput : ∀ out : Direct, out.len + text.length ≤ out.store.length →
      put out = (.written,
        { out with
          store := out.store.take out.len ++ text ++ out.store.drop (out.len + text.length)
          len := out.len + text.length })) :
    Writes (andThen (fun out => out.grow text.length) put) (some text) := by
  intro out hout
  rcases grow_spec hout text.length with
    ⟨hwritten, fresh, held, hgrown, hroom⟩ | ⟨hfull, hsame, hlarge⟩
  · rw [andThen_written hwritten, hgrown, hput _ hroom]
    exact ⟨text, hout.extends_write hroom rfl, Or.inl ⟨rfl, rfl⟩⟩
  · rw [andThen_stopped (isFull_ne_written hfull), hsame]
    exact ⟨[], hout.extends_self, Or.inr ⟨hfull, hlarge⟩⟩

theorem writes_raw (text : Text) : Writes (raw text) (some text) :=
  writes_put fun _ _ => rfl

theorem writes_char (c : UInt8) : Writes (char c) (some [c]) := by
  refine @writes_put [c] _ fun out hroom => ?_
  rw [List.length_singleton] at hroom ⊢
  rw [List.set_eq_take_append_cons_drop, if_pos (by omega)]
  simp

theorem writes_done : Writes done (some []) :=
  fun _ hout => ⟨[], hout.extends_self, Or.inl ⟨rfl, rfl⟩⟩

theorem writes_stop (h : wrote ≠ .written) : Writes (stop wrote) none :=
  fun _ hout => ⟨[], hout.extends_self, h⟩

theorem Writes.andThen {first next : Writer} {text text' : Option Text}
    (h : Writes first text)
    (h' : Writes next text') :
    Writes (andThen first next) (text.bind fun a => text'.map fun b => a ++ b) := by
  cases text with
  | none =>
    intro out hout
    obtain ⟨tail, htail, hstop⟩ := h out hout
    rw [andThen_stopped hstop]
    exact ⟨tail, htail, hstop⟩
  | some text =>
    cases text' with
    | none =>
      intro out hout
      obtain ⟨tail, htail, ⟨hwritten, -⟩ | ⟨hfull, -⟩⟩ := h out hout
      · obtain ⟨tail', htail', hstop⟩ := h' _ htail.valid
        rw [andThen_written hwritten]
        exact ⟨tail ++ tail', htail.trans htail', hstop⟩
      · rw [andThen_stopped (isFull_ne_written hfull)]
        exact ⟨tail, htail, isFull_ne_written hfull⟩
    | some text' =>
      intro out hout
      obtain ⟨tail, htail, ⟨hwritten, rfl⟩ | ⟨hfull, hlarge⟩⟩ := h out hout
      · have hlength : (first out).2.len = out.len + tail.length := by
          rw [← htail.valid.length_bytes, htail.bytes, List.length_append,
            hout.length_bytes]
        obtain ⟨tail', htail', hrest⟩ := h' _ htail.valid
        rw [andThen_written hwritten]
        refine ⟨tail ++ tail', htail.trans htail', ?_⟩
        rcases hrest with ⟨hdone, rfl⟩ | ⟨hfull, hlarge⟩
        · exact Or.inl ⟨hdone, rfl⟩
        · refine Or.inr ⟨hfull, ?_⟩
          rw [List.length_append]
          omega
      · rw [andThen_stopped (isFull_ne_written hfull)]
        refine ⟨tail, htail, Or.inr ⟨hfull, ?_⟩⟩
        rw [List.length_append]
        omega

end Direct

end Json
end Beans
