import Beans.Bindgen.JsonBounds
import Beans.Foundation.JsonGrammar

/-!
# The JSON reader on JSON texts

On a valid text the reader ends right behind the value, with the flag set.  It
does not decode a code unit: every `\uXXXX` is read as one question mark.
-/

namespace Beans
namespace Bindgen

open JsonGrammar

variable {source : Text}

/-- The bytes from the index on. -/
def At (source : Text) (index : ℕ) (rest : Text) : Prop :=
  index ≤ source.length ∧ source.drop index = rest

namespace At

variable {i : ℕ} {b : UInt8} {xs rest : Text}

theorem length_eq (h : At source i rest) : i + rest.length = source.length := by
  obtain ⟨hle, rfl⟩ := h
  rw [List.length_drop]
  omega

theorem lt (h : At source i (b :: rest)) : i < source.length := by
  have := h.length_eq
  rw [List.length_cons] at this
  omega

theorem getElem? (h : At source i (b :: rest)) : source[i]? = some b := by
  have hget : source[i]? = (b :: rest)[0]? := by
    rw [← h.2, List.getElem?_drop, Nat.add_zero]
  exact hget

theorem getD (h : At source i (b :: rest)) : source.getD i 0 = b := by
  rw [List.getD_eq_getElem?_getD, h.getElem?]
  rfl

theorem append (h : At source i (xs ++ rest)) : At source (i + xs.length) rest := by
  have hlength := h.length_eq
  rw [List.length_append] at hlength
  refine ⟨by omega, ?_⟩
  rw [← List.drop_drop, h.2, List.drop_left]

theorem next (h : At source i (b :: rest)) : At source (i + 1) rest :=
  @append source i [b] rest h

theorem span_eq (h : At source i (xs ++ rest)) : span source i (i + xs.length) = xs := by
  rw [span, h.2, Nat.add_sub_cancel_left, List.take_left]

theorem peek_eq {ok : Bool} (h : At source i (b :: rest)) : peek source ⟨i, ok⟩ = b := by
  rw [peek, if_neg (not_le.mpr h.lt)]
  exact h.getD

end At

/-- The next byte is none of a kind. -/
def Stops (P : UInt8 → Prop) (rest : Text) : Prop := ∀ b ∈ rest.head?, ¬ P b

theorem stops_cons {P : UInt8 → Prop} {b : UInt8} {rest : Text} (h : ¬ P b) :
    Stops P (b :: rest) := by
  intro b' hb
  obtain rfl := Option.mem_some_iff.mp hb
  exact h

theorem stops_nil {P : UInt8 → Prop} : Stops P [] := fun _ hb => absurd hb (Option.not_mem_none _)

/-- A loop over the bytes of one kind stops behind them. -/
theorem run_over {step : ℕ → Option ℕ} {P : UInt8 → Prop}
    (hgo : ∀ i, i < source.length → P (source.getD i 0) → step i = some (i + 1))
    (hstop : ∀ i, (i < source.length → ¬ P (source.getD i 0)) → step i = none) {xs rest : Text}
    {i n : ℕ} (hat : At source i (xs ++ rest)) (hxs : ∀ b ∈ xs, P b) (hrest : Stops P rest)
    (hn : xs.length ≤ n) :
    Loop.run step n i = i + xs.length := by
  induction xs generalizing i n with
  | nil =>
    refine Loop.run_none (hstop i fun hlt => ?_) n
    cases rest with
    | nil =>
      have := hat.length_eq
      simp only [List.nil_append, List.length_nil] at this
      omega
    | cons b rest =>
      rw [List.nil_append] at hat
      rw [hat.getD]
      exact hrest b rfl
  | cons b xs ih =>
    obtain ⟨n, rfl⟩ : ∃ k, n = k + 1 := ⟨n - 1, by rw [List.length_cons] at hn; omega⟩
    rw [List.cons_append] at hat
    have hb := hxs b List.mem_cons_self
    rw [← hat.getD] at hb
    rw [Loop.run_some (hgo i hat.lt hb),
      ih hat.next (fun c hc => hxs c (List.mem_cons_of_mem b hc))
        (by rw [List.length_cons] at hn; omega), List.length_cons]
    omega

theorem whitespace_eq {i : ℕ} {ok : Bool} {space rest : Text}
    (hat : At source i (space ++ rest)) (hspace : Spaces space) (hrest : Stops IsSpace rest) :
    whitespace source ⟨i, ok⟩ = ⟨i + space.length, ok⟩ := by
  have hlength := hat.length_eq
  rw [List.length_append] at hlength
  have hrun := @run_over source (whitespaceStep source) IsSpace
    (fun i hlt hb => by
      rw [whitespaceStep, if_pos hlt]
      refine if_neg fun hnot => ?_
      obtain ⟨h1, h2, h3, h4⟩ := hnot
      rcases hb with hb | hb | hb | hb
      · exact h1 hb
      · exact h2 hb
      · exact h3 hb
      · exact h4 hb)
    (fun i hnot => by
      rw [whitespaceStep]
      by_cases hlt : i < source.length
      · rw [if_pos hlt]
        have := hnot hlt
        simp only [IsSpace, not_or] at this
        exact if_pos this
      · exact if_neg hlt)
    space rest i source.length hat hspace hrest (by omega)
  rw [whitespace, hrun]

theorem numberStep_run {i : ℕ} {bytes rest : Text} (hat : At source i (bytes ++ rest))
    (hbytes : ∀ b ∈ bytes, InNumber b) (hrest : Stops InNumber rest) :
    Loop.run (numberStep source) source.length i = i + bytes.length := by
  have hlength := hat.length_eq
  rw [List.length_append] at hlength
  have hkind : ∀ b : UInt8, ((48 ≤ b ∧ b ≤ 57) ∨ b = 45 ∨ b = 43 ∨ b = 46 ∨ b = 101 ∨ b = 69) ↔
      InNumber b := fun b => by
    rw [InNumber, IsDigit, UInt8.le_iff_toNat_le, UInt8.le_iff_toNat_le]
    rfl
  refine @run_over source (numberStep source) InNumber (fun i hlt hb => ?_) (fun i hnot => ?_)
    bytes rest i source.length hat hbytes hrest (by omega)
  · rw [numberStep, if_pos hlt]
    exact if_neg (not_not.mpr ((hkind _).mpr hb))
  · rw [numberStep]
    by_cases hlt : i < source.length
    · rw [if_pos hlt]
      exact if_pos (fun h => hnot hlt ((hkind _).mp h))
    · exact if_neg hlt

/-- The escapes whose letters the reader knows. -/
def Known : Part → Prop
  | .escape .backspace => False
  | .escape .formFeed => False
  | _ => True

/-- The character a part is read as. -/
def readPart : Part → Char
  | .plain c _ => c
  | .escape e => e.char
  | .unicode _ => '?'

def readParts (parts : List Part) : Text := Utf8.encode (parts.map readPart)

/-- What the scan has taken so far, the run it is in included. -/
def StringScan.taken (source : Text) (scan : StringScan) : Text :=
  scan.pieces.flatten ++ span source scan.run scan.index

/-- Where the loop ends from here. -/
def scanEnd (source : Text) (scan : StringScan) : StringScan :=
  Loop.run (stringStep source) (source.length - scan.index) scan

theorem scanEnd_step {scan scan' : StringScan} (h : stringStep source scan = some scan') :
    scanEnd source scan = scanEnd source scan' :=
  @Loop.run_step _ (stringStep source) (fun s => source.length - s.index) (fun s s' hs => by
    obtain ⟨hlt, hle⟩ := stringStep_index hs
    omega) _ _ h

theorem scanEnd_done {scan : StringScan} (h : stringStep source scan = none) :
    scanEnd source scan = scan :=
  Loop.run_none h _

/-- The scan inside a string, in front of `rest`. -/
structure Scanning (source : Text) (scan : StringScan) (taken rest : Text) : Prop where
  running : scan.result = none
  run_le : scan.run ≤ scan.index
  place : At source scan.index rest
  taken_eq : scan.taken source = taken

theorem span_self (i : ℕ) : span source i i = [] := by
  rw [span, Nat.sub_self, List.take_zero]

theorem span_snoc {run i : ℕ} {b : UInt8} {rest : Text} (hat : At source i (b :: rest))
    (hle : run ≤ i) :
    span source run (i + 1) = span source run i ++ [b] := by
  have hsplit : i + 1 - run = (i - run) + 1 := by omega
  have hget : (source.drop run)[i - run]? = some b := by
    rw [List.getElem?_drop, Nat.add_sub_cancel' hle, hat.getElem?]
  rw [span, span, hsplit, List.take_add_one, hget]
  rfl

theorem Scanning.plain {scan : StringScan} {taken rest : Text} {b : UInt8}
    (h : Scanning source scan taken (b :: rest)) (hb : b ≠ 34 ∧ b ≠ 92) :
    ∃ scan', scanEnd source scan = scanEnd source scan' ∧
      Scanning source scan' (taken ++ [b]) rest := by
  have hlt := h.place.lt
  refine ⟨{ scan with index := scan.index + 1 }, scanEnd_step ?_, h.running, by
    dsimp only; have := h.run_le; omega, h.place.next, ?_⟩
  · rw [stringStep, if_neg (by rw [h.running]; simp; omega), h.place.getD]
    exact if_pos hb
  · rw [← h.taken_eq, StringScan.taken, StringScan.taken, span_snoc h.place h.run_le,
      List.append_assoc]

theorem Scanning.plains {scan : StringScan} {taken bytes rest : Text}
    (h : Scanning source scan taken (bytes ++ rest)) (hbytes : ∀ b ∈ bytes, b ≠ 34 ∧ b ≠ 92) :
    ∃ scan', scanEnd source scan = scanEnd source scan' ∧
      Scanning source scan' (taken ++ bytes) rest := by
  induction bytes generalizing scan taken with
  | nil =>
    rw [List.append_nil]
    exact ⟨scan, rfl, h⟩
  | cons b bytes ih =>
    obtain ⟨scan₁, hend, h₁⟩ := h.plain (hbytes b List.mem_cons_self)
    obtain ⟨scan₂, hend', h₂⟩ := ih h₁ fun c hc => hbytes c (List.mem_cons_of_mem b hc)
    refine ⟨scan₂, hend.trans hend', ?_⟩
    rw [List.append_assoc] at h₂
    exact h₂

/-- A backslash and the letter behind it. -/
theorem Scanning.escaped {scan : StringScan} {taken rest : Text} {letter : UInt8}
    (h : Scanning source scan taken (92 :: letter :: rest)) {piece : Text} {index : ℕ}
    (hpiece : escapedPiece source letter (scan.index + 2) = (piece, index)) {rest' : Text}
    (hat : At source index rest') :
    ∃ scan', scanEnd source scan = scanEnd source scan' ∧
      Scanning source scan' (taken ++ piece) rest' := by
  have hlt := h.place.lt
  have hnext := h.place.next
  refine ⟨⟨scan.pieces ++ [span source scan.run scan.index] ++ [piece], index, index, none⟩,
    scanEnd_step ?_, rfl, le_refl _, hat, ?_⟩
  · rw [stringStep, if_neg (by rw [h.running]; simp; omega), h.place.getD]
    dsimp only
    rw [if_neg (by decide), if_neg (by decide), if_neg (not_le.mpr hnext.lt), hnext.getD,
      hpiece]
  · rw [← h.taken_eq, StringScan.taken, StringScan.taken, span_self]
    simp

theorem Scanning.closed {scan : StringScan} {taken rest : Text}
    (h : Scanning source scan taken (34 :: rest)) :
    (scanEnd source scan).result = some taken ∧
      (scanEnd source scan).index = scan.index + 1 := by
  have hlt := h.place.lt
  have hstep : stringStep source scan =
      some ⟨scan.pieces ++ [span source scan.run scan.index], scan.run, scan.index + 1,
        some (scan.pieces ++ [span source scan.run scan.index]).flatten⟩ := by
    rw [stringStep, if_neg (by rw [h.running]; simp; omega), h.place.getD]
    dsimp only
    rw [if_neg (by decide), if_pos rfl]
  rw [scanEnd_step hstep, scanEnd_done (by rw [stringStep]; exact if_pos (Or.inl rfl)),
    ← h.taken_eq, StringScan.taken, List.flatten_append, List.flatten_singleton]
  exact ⟨rfl, rfl⟩

/-- One part of a string is read as its character. -/
theorem Scanning.part {scan : StringScan} {taken rest : Text} {part : Part}
    (h : Scanning source scan taken (part.bytes ++ rest)) (hknown : Known part) :
    ∃ scan', scanEnd source scan = scanEnd source scan' ∧
      Scanning source scan' (taken ++ String.utf8EncodeChar (readPart part)) rest := by
  cases part with
  | plain c hc =>
    refine h.plains fun b hb => ?_
    by_cases hascii : c.val.toNat ≤ 0x7F
    · rw [Part.bytes, Utf8.encode_of_le hascii, List.mem_singleton] at hb
      subst hb
      obtain ⟨-, hquote, hbackslash⟩ := hc
      constructor
      · intro heq
        refine hquote (Char.ext (UInt32.toNat_inj.mp ?_))
        have := congrArg UInt8.toNat heq
        rw [UInt8.toNat_ofNat'] at this
        change c.val.toNat = 34
        change c.val.toNat % 256 = 34 at this
        omega
      · intro heq
        refine hbackslash (Char.ext (UInt32.toNat_inj.mp ?_))
        have := congrArg UInt8.toNat heq
        rw [UInt8.toNat_ofNat'] at this
        change c.val.toNat = 92
        change c.val.toNat % 256 = 92 at this
        omega
    · have hhigh := Utf8.le_of_mem_encode (not_le.mp hascii) hb
      constructor
      · rintro rfl
        exact absurd hhigh (by decide)
      · rintro rfl
        exact absurd hhigh (by decide)
  | escape e =>
    have hat : At source (scan.index + 2) rest := h.place.next.next
    cases e with
    | quote => exact h.escaped rfl hat
    | backslash => exact h.escaped rfl hat
    | slash => exact h.escaped rfl hat
    | backspace => exact hknown.elim
    | formFeed => exact hknown.elim
    | newline => exact h.escaped rfl hat
    | carriageReturn => exact h.escaped rfl hat
    | tab => exact h.escaped rfl hat
  | unicode digits =>
    have hdigits : At source (scan.index + 2) (digits.bytes ++ rest) := h.place.next.next
    have hat := hdigits.append
    rw [digits.length_eq] at hat
    have hfit : scan.index + 2 + 4 ≤ source.length := hat.1
    have hpiece : escapedPiece source 117 (scan.index + 2) = ([63], scan.index + 2 + 4) := by
      rw [escapedPiece]
      simp [hfit]
    exact h.escaped hpiece hat

theorem Scanning.parts {scan : StringScan} {taken rest : Text} {parts : List Part}
    (h : Scanning source scan taken (parts.flatMap Part.bytes ++ rest))
    (hknown : ∀ part ∈ parts, Known part) :
    ∃ scan', scanEnd source scan = scanEnd source scan' ∧
      Scanning source scan' (taken ++ readParts parts) rest := by
  induction parts generalizing scan taken with
  | nil =>
    refine ⟨scan, rfl, ?_⟩
    rw [readParts, List.map_nil, Utf8.encode, List.flatMap_nil, List.append_nil]
    exact h
  | cons part parts ih =>
    rw [List.flatMap_cons, List.append_assoc] at h
    obtain ⟨scan₁, hend, h₁⟩ := h.part (hknown part List.mem_cons_self)
    obtain ⟨scan₂, hend', h₂⟩ := ih h₁ fun p hp => hknown p (List.mem_cons_of_mem part hp)
    refine ⟨scan₂, hend.trans hend', ?_⟩
    rw [List.append_assoc] at h₂
    exact h₂

/-- A string ends behind its closing quote. -/
theorem stringValue_eq {i : ℕ} {ok : Bool} {parts : List Part} {rest : Text}
    (hat : At source i (stringBytes parts ++ rest)) (hknown : ∀ part ∈ parts, Known part) :
    stringValue source ⟨i, ok⟩ =
      (readParts parts, ⟨i + (stringBytes parts).length, ok⟩) := by
  have hlength := hat.length_eq
  rw [stringBytes, List.cons_append, List.append_assoc, List.singleton_append] at hat
  have hstart : Scanning source ⟨[], i + 1, i + 1, none⟩ []
      (parts.flatMap Part.bytes ++ 34 :: rest) :=
    ⟨rfl, le_refl _, hat.next, by rw [StringScan.taken, span_self]; rfl⟩
  obtain ⟨scan, hend, hscan⟩ := hstart.parts hknown
  obtain ⟨hresult, hindex⟩ := hscan.closed
  have hplace := hscan.place.length_eq
  have hall : Loop.run (stringStep source) (source.length + 1) ⟨[], i + 1, i + 1, none⟩ =
      scanEnd source scan := by
    rw [← hend]
    refine @Loop.run_enough _ (stringStep source) (fun s => source.length - s.index)
      (fun s s' hs => ?_) _ _ _ (by omega) (le_refl _)
    obtain ⟨hlt, hle⟩ := stringStep_index hs
    omega
  rw [stringValue]
  dsimp only
  rw [hall, hresult, List.nil_append]
  dsimp only
  rw [hindex]
  rw [List.length_append] at hlength
  rw [List.length_cons] at hplace
  have : scan.index + 1 = i + (stringBytes parts).length := by omega
  rw [this]

/-- The last value under a name. -/
def lastValue {α : Type*} (name : Text) (members : List (Text × α)) : Option α :=
  (members.reverse.find? fun member => member.1 = name).map Prod.snd

/-- Every name once, where it first stands, with its last value. -/
def lastMembers {α : Type*} (members : List (Text × α)) : List (Text × α) :=
  (members.map Prod.fst).eraseDups.filterMap fun name =>
    (lastValue name members).map fun value => (name, value)

mutual

/-- What a text denotes, when every `\uXXXX` stands for a question mark. -/
def readTree : Tree → BindgenJson
  | .null => .null
  | .bool flag => .bool flag
  | .number bytes => .number bytes
  | .string parts => .string (readParts parts)
  | .array items => .array (readTrees items)
  | .object members => .object (lastMembers (readMembers members))

def readTrees : List Tree → List BindgenJson
  | [] => []
  | tree :: trees => readTree tree :: readTrees trees

def readMembers : List (List Part × Tree) → List (Text × BindgenJson)
  | [] => []
  | (parts, tree) :: members => (readParts parts, readTree tree) :: readMembers members

end

section LastMembers

variable {α : Type*} {members : List (Text × α)} {name : Text} {value : α}

theorem lastValue_append (other : Text) :
    lastValue other (members ++ [(name, value)]) =
      if name = other then some value else lastValue other members := by
  rw [lastValue, List.reverse_append, List.reverse_singleton, List.singleton_append,
    List.find?_cons]
  by_cases h : name = other
  · rw [if_pos h, decide_eq_true h]
    rfl
  · rw [if_neg h, decide_eq_false h]
    rfl

theorem lastValue_isSome (h : name ∈ members.map Prod.fst) :
    ∃ value, lastValue name members = some value := by
  obtain ⟨member, hmember, rfl⟩ := List.mem_map.mp h
  cases hfound : members.reverse.find? fun other => other.1 = member.1 with
  | none =>
    have := List.find?_eq_none.mp hfound member (List.mem_reverse.mpr hmember)
    exact absurd (decide_eq_true rfl) this
  | some found =>
    rw [lastValue, hfound]
    exact ⟨_, rfl⟩

theorem mem_lastMembers {field : Text × α} (h : field ∈ lastMembers members) :
    field.1 ∈ members.map Prod.fst := by
  obtain ⟨other, hother, hvalue⟩ := List.mem_filterMap.mp h
  obtain ⟨v, -, rfl⟩ := Option.map_eq_some_iff.mp hvalue
  exact List.mem_eraseDups.mp hother

theorem lastMembers_append :
    lastMembers (members ++ [(name, value)]) =
      ((members.map Prod.fst ++ [name]).eraseDups).filterMap fun other =>
        (if name = other then some value else lastValue other members).map fun value =>
          (other, value) := by
  rw [lastMembers, List.map_append, List.map_singleton]
  refine List.filterMap_congr fun other _ => ?_
  rw [lastValue_append]

/-- Assigning under a name is adding a last member. -/
theorem setField_lastMembers :
    setField (lastMembers members) name value = lastMembers (members ++ [(name, value)]) := by
  rw [lastMembers_append, List.eraseDups_append]
  by_cases hold : name ∈ members.map Prod.fst
  · have hnone : List.removeAll [name] (members.map Prod.fst) = [] := by
      simp only [List.removeAll, List.filter_cons, List.elem_eq_mem, hold, decide_true,
        Bool.not_true, Bool.false_eq_true, if_false, List.filter_nil]
    have hany : (lastMembers members).any (fun field => field.1 = name) = true := by
      obtain ⟨w, hw⟩ := lastValue_isSome hold
      refine List.any_eq_true.mpr ⟨(name, w), ?_, decide_eq_true rfl⟩
      refine List.mem_filterMap.mpr ⟨name, List.mem_eraseDups.mpr hold, ?_⟩
      rw [hw]
      rfl
    rw [setField, if_pos hany, hnone, List.eraseDups_nil, List.append_nil, lastMembers,
      List.map_filterMap]
    refine List.filterMap_congr fun other hother => ?_
    obtain ⟨w, hw⟩ := lastValue_isSome (List.mem_eraseDups.mp hother)
    rw [hw]
    by_cases h : name = other
    · subst h
      simp
    · simp [h, Ne.symm h]
  · have hone : List.removeAll [name] (members.map Prod.fst) = [name] := by
      simp only [List.removeAll, List.filter_cons, List.elem_eq_mem, hold, decide_false,
        Bool.not_false, if_true, List.filter_nil]
    have hany : ¬ (lastMembers members).any (fun field => field.1 = name) = true := by
      intro h
      obtain ⟨field, hfield, hname⟩ := List.any_eq_true.mp h
      have := mem_lastMembers hfield
      rw [of_decide_eq_true hname] at this
      exact hold this
    have hsingle : ([name] : List Text).eraseDups = [name] := by
      rw [List.eraseDups_cons, List.filter_nil, List.eraseDups_nil]
    rw [setField, if_neg hany, hone, hsingle, List.filterMap_append, List.filterMap_cons,
      if_pos rfl]
    congr 1
    rw [lastMembers]
    refine List.filterMap_congr fun other hother => ?_
    have hne : name ≠ other := by
      rintro rfl
      exact hold (List.mem_eraseDups.mp hother)
    rw [if_neg hne]

theorem foldl_setField (more : List (Text × α)) :
    more.foldl (fun fields member => setField fields member.1 member.2) (lastMembers members) =
      lastMembers (members ++ more) := by
  induction more generalizing members with
  | nil => rw [List.foldl_nil, List.append_nil]
  | cons member more ih =>
    rw [List.foldl_cons, setField_lastMembers, ih, List.append_assoc]
    rfl

end LastMembers

end Bindgen
end Beans
