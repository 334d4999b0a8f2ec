import Beans.Bindgen.JsonReads

/-!
# Every JSON text is read

By induction on how the text is spelled: a value is read up to its end, an
element with the comma or bracket behind it is one turn of the loop it stands
in, and a list of elements is the loop.
-/

namespace Beans
namespace Bindgen

open JsonGrammar

variable {source : Text}

variable {b : UInt8}

theorem not_space_of_opens (h : Opens b) : ¬ IsSpace b := by
  rintro (rfl | rfl | rfl | rfl)
  all_goals revert h
  all_goals simp [Opens, IsDigit]

variable {fuel i n : ℕ} {bytes left more rest space : Text}

theorem window_eq_take {width : ℕ} (hat : At source i rest) :
    window source i width = rest.take width := by
  have hlength := hat.length_eq
  rw [window]
  by_cases hfit : i + width ≤ source.length
  · rw [if_pos hfit, span, hat.2, Nat.add_sub_cancel_left]
  · rw [if_neg hfit, span, hat.2, ← hlength, Nat.add_sub_cancel_left,
      List.take_of_length_le (le_refl _), List.take_of_length_le (by omega)]

theorem take_cons_ne {a : UInt8} {xs ys : Text} (h : a ≠ b) :
    (a :: xs).take (n + 1) ≠ b :: ys :=
  fun heq => h (List.cons.inj heq).1

theorem ascii_true : ascii "true" = [116, 114, 117, 101] := rfl

theorem ascii_false : ascii "false" = [102, 97, 108, 115, 101] := rfl

theorem ascii_null : ascii "null" = [110, 117, 108, 108] := rfl

theorem value_succ (hat : At source i (b :: rest)) (hb : ¬ IsSpace b) :
    value source (fuel + 1) ⟨i, true⟩ =
      if b = 123 then object source (value source fuel) fuel ⟨i, true⟩
      else if b = 91 then array source (value source fuel) fuel ⟨i, true⟩
      else if b = 34 then
        some (.string (stringValue source ⟨i, true⟩).1, (stringValue source ⟨i, true⟩).2)
      else if (b :: rest).take 4 = [116, 114, 117, 101] then some (.bool true, ⟨i + 4, true⟩)
      else if (b :: rest).take 5 = [102, 97, 108, 115, 101] then
        some (.bool false, ⟨i + 5, true⟩)
      else if (b :: rest).take 4 = [110, 117, 108, 108] then some (.null, ⟨i + 4, true⟩)
      else some (numberValue source ⟨i, true⟩) := by
  have hspace : whitespace source ⟨i, true⟩ = ⟨i, true⟩ :=
    @whitespace_eq source i true [] (b :: rest) hat (fun _ h => absurd h List.not_mem_nil)
      (stops_cons hb)
  rw [value]
  dsimp only
  rw [hspace, hat.peek_eq, window_eq_take hat, window_eq_take hat, ascii_true, ascii_false,
    ascii_null]
  exact if_neg (not_le.mpr hat.lt)

/-- Whitespace in front of a value is skipped. -/
theorem value_skip {ok : Bool} (hat : At source i (left ++ rest)) (hleft : Spaces left)
    (hrest : Stops IsSpace rest) :
    value source fuel ⟨i, ok⟩ = value source fuel ⟨i + left.length, ok⟩ := by
  cases fuel with
  | zero => rfl
  | succ fuel =>
    have hfirst := @whitespace_eq source i ok left rest hat hleft hrest
    have hsecond := @whitespace_eq source (i + left.length) ok [] rest hat.append
      (fun _ h => absurd h List.not_mem_nil) hrest
    rw [value, value, hfirst, hsecond]
    rfl

theorem afterElement_eq {j k : ℕ} {close : UInt8}
    (hspace : whitespace source ⟨j, true⟩ = ⟨k, true⟩) (hat : At source k (b :: rest))
    (hb : b = 44 ∨ b = close ∧ close ≠ 44) :
    afterElement source close ⟨j, true⟩ = (⟨k + 1, true⟩, decide (b = 44)) := by
  rw [afterElement, hspace]
  dsimp only
  rw [hat.peek_eq]
  rcases hb with rfl | ⟨rfl, hne⟩
  · rw [if_pos rfl, decide_eq_true rfl]
  · rw [if_neg hne, if_pos rfl, decide_eq_false hne]

/-- One turn of a loop, and the loop goes on or ends. -/
theorem forOk_turn {σ : Type}
    {turn : σ → BindgenJsonParser → Option (σ × BindgenJsonParser × Bool)} {state next : σ}
    {parser parser' : BindgenJsonParser} {goes : Bool} (hok : parser.ok = true)
    (h : turn state parser = some (next, parser', goes)) :
    forOk turn (n + 1) state parser =
      if goes then forOk turn n next parser' else some (next, parser') := by
  rw [forOk_succ (by rw [hok]; decide), h, Option.bind_some]

/-- How the reader reads a phrase wherever it stands in the source. -/
def Reads (source : Text) : Phrase → Text → Prop
  | .value tree, bytes =>
    ∀ i rest fuel, At source i (bytes ++ rest) → Stops InNumber rest →
      source.length - i + 1 ≤ fuel →
      value source fuel ⟨i, true⟩ = some (readTree tree, ⟨i + bytes.length, true⟩)
  | .item tree, bytes =>
    ∀ i b rest fuel, At source i (bytes ++ b :: rest) → ¬ IsSpace b → ¬ InNumber b →
      source.length - i + 1 ≤ fuel →
      ∃ j, value source fuel ⟨i, true⟩ = some (readTree tree, ⟨j, true⟩) ∧
        whitespace source ⟨j, true⟩ = ⟨i + bytes.length, true⟩
  | .items trees, bytes =>
    ∀ i rest fuel n items, At source i (bytes ++ 93 :: rest) →
      source.length - i + 1 ≤ fuel → source.length - i + 1 ≤ n →
      forOk (arrayTurn source (value source fuel)) n items ⟨i, true⟩ =
        some (items ++ readTrees trees, ⟨i + bytes.length + 1, true⟩)
  | .member parts tree, bytes =>
    ∀ i b rest fuel fields, At source i (bytes ++ b :: rest) → b = 44 ∨ b = 125 →
      source.length - i + 1 ≤ fuel →
      objectTurn source (value source fuel) fields ⟨i, true⟩ =
        some (setField fields (readParts parts) (readTree tree),
          ⟨i + bytes.length + 1, true⟩, decide (b = 44))
  | .members members, bytes =>
    ∀ i rest fuel n fields, At source i (bytes ++ 125 :: rest) →
      source.length - i + 1 ≤ fuel → source.length - i + 1 ≤ n →
      forOk (objectTurn source (value source fuel)) n fields ⟨i, true⟩ =
        some ((readMembers members).foldl
            (fun fields member => setField fields member.1 member.2) fields,
          ⟨i + bytes.length + 1, true⟩)

theorem reads_number (h : IsNumber bytes) :
    Reads source (.value (.number bytes)) bytes := by
  intro i rest fuel hat hrest hfuel
  obtain ⟨fuel, rfl⟩ : ∃ k, fuel = k + 1 := ⟨fuel - 1, by omega⟩
  have hrun := numberStep_run hat h.all hrest
  obtain ⟨b, tail, hhead, hb⟩ := h.head
  have hopens : Opens b := by
    simp only [Opens]
    tauto
  have hword : ∀ c : UInt8, c = 123 ∨ c = 91 ∨ c = 34 ∨ c = 116 ∨ c = 102 ∨ c = 110 →
      b ≠ c := by
    rintro c hc rfl
    rcases hb with rfl | hb
    · revert hc
      decide
    · rcases hc with rfl | rfl | rfl | rfl | rfl | rfl
      all_goals revert hb
      all_goals simp [IsDigit]
  have hspan := hat.span_eq
  have hat' : At source i (b :: (tail ++ rest)) := by
    rw [hhead] at hat
    exact hat
  have hlong : i + bytes.length ≠ i := by
    rw [hhead, List.length_cons]
    omega
  rw [value_succ hat' (not_space_of_opens hopens), if_neg (hword 123 (by decide)),
    if_neg (hword 91 (by decide)), if_neg (hword 34 (by decide)),
    if_neg (take_cons_ne (hword 116 (by decide))), if_neg (take_cons_ne (hword 102 (by decide))),
    if_neg (take_cons_ne (hword 110 (by decide))), numberValue]
  dsimp only
  rw [hrun, if_neg hlong, hspan]
  rfl

variable {parts : List Part}

theorem reads_string (h : ∀ part ∈ parts, Known part) :
    Reads source (.value (.string parts)) (stringBytes parts) := by
  intro i rest fuel hat _ hfuel
  obtain ⟨fuel, rfl⟩ : ∃ k, fuel = k + 1 := ⟨fuel - 1, by omega⟩
  have hstring := @stringValue_eq source i true parts rest hat h
  have hat' : At source i (34 :: (parts.flatMap Part.bytes ++ [34] ++ rest)) := hat
  rw [value_succ hat' (by decide), if_neg (by decide), if_neg (by decide), if_pos rfl, hstring]
  rfl

variable {tree : Tree}

theorem reads_word
    (h : tree = .null ∧ bytes = [110, 117, 108, 108] ∨
      tree = .bool true ∧ bytes = [116, 114, 117, 101] ∨
      tree = .bool false ∧ bytes = [102, 97, 108, 115, 101]) :
    Reads source (.value tree) bytes := by
  intro i rest fuel hat _ hfuel
  obtain ⟨fuel, rfl⟩ : ∃ k, fuel = k + 1 := ⟨fuel - 1, by omega⟩
  rcases h with ⟨rfl, rfl⟩ | ⟨rfl, rfl⟩ | ⟨rfl, rfl⟩
  · rw [List.cons_append] at hat
    rw [value_succ hat (by decide), if_neg (by decide), if_neg (by decide), if_neg (by decide),
      if_neg (take_cons_ne (by decide)), if_neg (take_cons_ne (by decide))]
    exact if_pos rfl
  · rw [List.cons_append] at hat
    rw [value_succ hat (by decide), if_neg (by decide), if_neg (by decide), if_neg (by decide)]
    exact if_pos rfl
  · rw [List.cons_append] at hat
    rw [value_succ hat (by decide), if_neg (by decide), if_neg (by decide), if_neg (by decide),
      if_neg (take_cons_ne (by decide))]
    exact if_pos rfl

theorem spaces_nil : Spaces [] := fun _ h => absurd h List.not_mem_nil

theorem not_inNumber_of_space (h : IsSpace b) : ¬ InNumber b := by
  rcases h with rfl | rfl | rfl | rfl
  all_goals simp [InNumber, IsDigit]

theorem reads_item {right : Text} (hleft : Spaces left)
    (hvalue : Spells Known (.value tree) bytes) (hright : Spaces right)
    (ih : Reads source (.value tree) bytes) :
    Reads source (.item tree) (left ++ (bytes ++ right)) := by
  intro i b rest fuel hat hspace hnumber hfuel
  rw [List.append_assoc, List.append_assoc] at hat
  obtain ⟨c, tail, hhead, hopens⟩ := hvalue.head
  have hstart : Stops IsSpace (bytes ++ (right ++ b :: rest)) := by
    rw [hhead, List.cons_append]
    exact stops_cons (not_space_of_opens hopens)
  have hbehind : Stops InNumber (right ++ b :: rest) := by
    cases right with
    | nil => exact stops_cons hnumber
    | cons d right => exact stops_cons (not_inNumber_of_space (hright d List.mem_cons_self))
  refine ⟨i + left.length + bytes.length, ?_, ?_⟩
  · rw [value_skip hat hleft hstart]
    exact ih _ _ _ hat.append hbehind (by omega)
  · rw [whitespace_eq hat.append.append hright (stops_cons hspace), List.length_append,
      List.length_append]
    congr 1
    omega

theorem arrayTurn_eq (h : Reads source (.item tree) bytes) {items : List BindgenJson}
    (hat : At source i (bytes ++ b :: rest)) (hb : b = 44 ∨ b = 93)
    (hfuel : source.length - i + 1 ≤ fuel) :
    arrayTurn source (value source fuel) items ⟨i, true⟩ =
      some (items ++ [readTree tree], ⟨i + bytes.length + 1, true⟩, decide (b = 44)) := by
  have hspace : ¬ IsSpace b := by
    rcases hb with rfl | rfl
    all_goals decide
  have hnumber : ¬ InNumber b := by
    rcases hb with rfl | rfl
    all_goals simp [InNumber, IsDigit]
  obtain ⟨j, hvalue, hnext⟩ := h i b rest fuel hat hspace hnumber hfuel
  rw [arrayTurn, hvalue, Option.map_some,
    afterElement_eq hnext hat.append (hb.imp_right fun h => ⟨h, by decide⟩)]

theorem reads_lastItem (ih : Reads source (.item tree) bytes) :
    Reads source (.items [tree]) bytes := by
  intro i rest fuel n items hat hfuel hn
  obtain ⟨n, rfl⟩ : ∃ k, n = k + 1 := ⟨n - 1, by omega⟩
  rw [forOk_turn rfl (arrayTurn_eq ih hat (Or.inr rfl) hfuel)]
  rfl

variable {trees : List Tree}

theorem reads_moreItems (ih : Reads source (.item tree) bytes)
    (ih' : Reads source (.items trees) more) :
    Reads source (.items (tree :: trees)) (bytes ++ 44 :: more) := by
  intro i rest fuel n items hat hfuel hn
  obtain ⟨n, rfl⟩ : ∃ k, n = k + 1 := ⟨n - 1, by omega⟩
  rw [List.append_assoc, List.cons_append] at hat
  have hlength := hat.length_eq
  rw [List.length_append, List.length_cons] at hlength
  have hindex : i + bytes.length + 1 + more.length + 1 =
      i + (bytes.length + (more.length + 1)) + 1 := by omega
  rw [forOk_turn rfl (arrayTurn_eq ih hat (Or.inl rfl) hfuel), decide_eq_true rfl, if_pos rfl,
    ih' _ _ _ _ _ hat.append.next (by omega) (by omega), List.append_assoc, List.length_append,
    List.length_cons, hindex]
  rfl

theorem reads_member {middle : Text} (hleft : Spaces left) (hparts : ∀ part ∈ parts, Known part)
    (hmiddle : Spaces middle) (ih : Reads source (.item tree) bytes) :
    Reads source (.member parts tree)
      (left ++ (stringBytes parts ++ (middle ++ 58 :: bytes))) := by
  intro i b rest fuel fields hat hb hfuel
  simp only [List.append_assoc, List.cons_append] at hat
  have hspace : ¬ IsSpace b := by
    rcases hb with rfl | rfl
    all_goals decide
  have hnumber : ¬ InNumber b := by
    rcases hb with rfl | rfl
    all_goals simp [InNumber, IsDigit]
  have hkey := hat.append
  have hcolon := hkey.append.append
  obtain ⟨j, hvalue, hnext⟩ := ih _ b rest fuel hcolon.next hspace hnumber (by omega)
  have hquote : peek source ⟨i + left.length, true⟩ = 34 := At.peek_eq (hat.append)
  have hbefore : whitespace source ⟨i, true⟩ = ⟨i + left.length, true⟩ :=
    whitespace_eq hat hleft (stops_cons (by decide))
  have hbetween := @whitespace_eq source _ true middle _ hkey.append hmiddle
    (stops_cons (by decide))
  rw [objectTurn, hbefore]
  dsimp only
  rw [hquote, if_neg (not_not.mpr rfl), stringValue_eq hkey hparts]
  dsimp only
  rw [hbetween, hcolon.peek_eq, if_neg (not_not.mpr rfl)]
  dsimp only
  rw [hvalue, Option.map_some]
  dsimp only
  rw [afterElement_eq hnext hcolon.next.append (hb.imp_right fun h => ⟨h, by decide⟩)]
  congr 4
  simp only [List.length_append, List.length_cons]
  omega

theorem reads_lastMember (ih : Reads source (.member parts tree) bytes) :
    Reads source (.members [(parts, tree)]) bytes := by
  intro i rest fuel n fields hat hfuel hn
  obtain ⟨n, rfl⟩ : ∃ k, n = k + 1 := ⟨n - 1, by omega⟩
  rw [forOk_turn rfl (ih i 125 rest fuel fields hat (Or.inr rfl) hfuel)]
  rfl

variable {members : List (List Part × Tree)}

theorem reads_moreMembers (ih : Reads source (.member parts tree) bytes)
    (ih' : Reads source (.members members) more) :
    Reads source (.members ((parts, tree) :: members)) (bytes ++ 44 :: more) := by
  intro i rest fuel n fields hat hfuel hn
  obtain ⟨n, rfl⟩ : ∃ k, n = k + 1 := ⟨n - 1, by omega⟩
  rw [List.append_assoc, List.cons_append] at hat
  have hlength := hat.length_eq
  rw [List.length_append, List.length_cons] at hlength
  have hindex : i + bytes.length + 1 + more.length + 1 =
      i + (bytes.length + (more.length + 1)) + 1 := by omega
  rw [forOk_turn rfl (ih i 44 _ fuel fields hat (Or.inl rfl) hfuel), decide_eq_true rfl,
    if_pos rfl, ih' _ _ _ _ _ hat.append.next (by omega) (by omega), List.length_append,
    List.length_cons, readMembers, List.foldl_cons, hindex]

theorem forOk_congr {σ : Type}
    {turn : σ → BindgenJsonParser → Option (σ × BindgenJsonParser × Bool)} {n : ℕ} {state : σ}
    {i j : ℕ} (h : turn state ⟨i, true⟩ = turn state ⟨j, true⟩) :
    forOk turn n state ⟨i, true⟩ = forOk turn n state ⟨j, true⟩ := by
  cases n with
  | zero => rfl
  | succ n =>
    rw [forOk_succ (by simp), forOk_succ (by simp), h]

/-- The first byte of an element behind an opening bracket. -/
theorem items_head (h : Spells Known (.items trees) bytes) :
    ∃ left b rest, Spaces left ∧ bytes = left ++ b :: rest ∧ Opens b := by
  have hitem : ∀ {tree bytes}, Spells Known (.item tree) bytes →
      ∃ left b rest, Spaces left ∧ bytes = left ++ b :: rest ∧ Opens b := by
    intro tree bytes h
    cases h with
    | item hleft hvalue hright =>
      obtain ⟨b, rest, rfl, hb⟩ := hvalue.head
      exact ⟨_, b, _, hleft, rfl, hb⟩
  cases h with
  | lastItem h => exact hitem h
  | moreItems h _ =>
    obtain ⟨left, b, rest, hleft, rfl, hb⟩ := hitem h
    exact ⟨left, b, _, hleft, by rw [List.append_assoc]; rfl, hb⟩

theorem members_head (h : Spells Known (.members members) bytes) :
    ∃ left rest, Spaces left ∧ bytes = left ++ 34 :: rest := by
  have hmember : ∀ {parts tree bytes}, Spells Known (.member parts tree) bytes →
      ∃ left rest, Spaces left ∧ bytes = left ++ 34 :: rest := by
    intro parts tree bytes h
    cases h with
    | member hleft _ _ _ => exact ⟨_, _, hleft, rfl⟩
  cases h with
  | lastMember h => exact hmember h
  | moreMembers h _ =>
    obtain ⟨left, rest, hleft, rfl⟩ := hmember h
    exact ⟨left, _, hleft, by rw [List.append_assoc]; rfl⟩

theorem reads_emptyArray (hspace : Spaces space) :
    Reads source (.value (.array [])) (91 :: (space ++ [93])) := by
  intro i rest fuel hat _ hfuel
  obtain ⟨fuel, rfl⟩ : ∃ k, fuel = k + 1 := ⟨fuel - 1, by omega⟩
  simp only [List.append_assoc, List.cons_append, List.nil_append] at hat
  have hskip := @whitespace_eq source _ true space _ hat.next hspace (stops_cons (by decide))
  rw [value_succ hat (by decide), if_neg (by decide), if_pos rfl, array]
  dsimp only
  rw [hskip, hat.next.append.peek_eq, if_pos rfl, List.length_cons, List.length_append]
  dsimp only
  congr 3
  rw [List.length_singleton]
  omega

theorem reads_array (h : Spells Known (.items trees) bytes)
    (ih : Reads source (.items trees) bytes) :
    Reads source (.value (.array trees)) (91 :: (bytes ++ [93])) := by
  intro i rest fuel hat _ hfuel
  obtain ⟨fuel, rfl⟩ : ∃ k, fuel = k + 1 := ⟨fuel - 1, by omega⟩
  simp only [List.append_assoc, List.cons_append, List.nil_append] at hat
  have hlt := hat.lt
  have hread := ih (i + 1) rest fuel fuel [] hat.next (by omega) (by omega)
  obtain ⟨left, b, tail, hleft, hhead, hopens⟩ := items_head h
  have hinside := hat.next
  rw [hhead, List.append_assoc, List.cons_append] at hinside
  have hskip := @whitespace_eq source _ true left _ hinside hleft
    (stops_cons (not_space_of_opens hopens))
  have hopen : b ≠ 93 := by
    rintro rfl
    revert hopens
    simp [Opens, IsDigit]
  have hsame := @forOk_congr _ (arrayTurn source (value source fuel)) fuel [] (i + 1)
    (i + 1 + left.length) (by
      rw [arrayTurn, arrayTurn,
        value_skip hinside hleft (stops_cons (not_space_of_opens hopens))])
  rw [value_succ hat (by decide), if_neg (by decide), if_pos rfl, array]
  dsimp only
  rw [hskip, hinside.append.peek_eq, if_neg hopen, ← hsame, hread, List.nil_append,
    Option.map_some, List.length_cons, List.length_append, List.length_singleton]
  dsimp only
  congr 3
  omega

theorem reads_emptyObject (hspace : Spaces space) :
    Reads source (.value (.object [])) (123 :: (space ++ [125])) := by
  intro i rest fuel hat _ hfuel
  obtain ⟨fuel, rfl⟩ : ∃ k, fuel = k + 1 := ⟨fuel - 1, by omega⟩
  simp only [List.append_assoc, List.cons_append, List.nil_append] at hat
  have hskip := @whitespace_eq source _ true space _ hat.next hspace (stops_cons (by decide))
  rw [value_succ hat (by decide), if_pos rfl, object]
  dsimp only
  rw [hskip, hat.next.append.peek_eq, if_pos rfl, List.length_cons, List.length_append]
  dsimp only
  congr 3
  rw [List.length_singleton]
  omega

theorem reads_object (h : Spells Known (.members members) bytes)
    (ih : Reads source (.members members) bytes) :
    Reads source (.value (.object members)) (123 :: (bytes ++ [125])) := by
  intro i rest fuel hat _ hfuel
  obtain ⟨fuel, rfl⟩ : ∃ k, fuel = k + 1 := ⟨fuel - 1, by omega⟩
  simp only [List.append_assoc, List.cons_append, List.nil_append] at hat
  have hlt := hat.lt
  have hread := ih (i + 1) rest fuel fuel [] hat.next (by omega) (by omega)
  obtain ⟨left, tail, hleft, hhead⟩ := members_head h
  have hinside := hat.next
  rw [hhead, List.append_assoc, List.cons_append] at hinside
  have hskip := @whitespace_eq source _ true left _ hinside hleft (stops_cons (by decide))
  have hagain := @whitespace_eq source _ true [] _ hinside.append spaces_nil
    (stops_cons (by decide))
  have hsame := @forOk_congr _ (objectTurn source (value source fuel)) fuel [] (i + 1)
    (i + 1 + left.length) (by
      rw [objectTurn, objectTurn, hskip, hagain]
      rfl)
  have hfold := @foldl_setField _ [] (readMembers members)
  rw [value_succ hat (by decide), if_pos rfl, object]
  dsimp only
  rw [hskip, hinside.append.peek_eq, if_neg (by decide), ← hsame, hread, Option.map_some,
    List.length_cons, List.length_append, List.length_singleton]
  dsimp only
  rw [show ([] : List (Text × BindgenJson)) = lastMembers [] from rfl, hfold, List.nil_append,
    readTree]
  congr 3
  omega

/-- Every phrase is read as it is spelled. -/
theorem spells_reads {phrase : Phrase} (h : Spells Known phrase bytes) :
    Reads source phrase bytes := by
  induction h with
  | null => exact reads_word (Or.inl ⟨rfl, rfl⟩)
  | trueWord => exact reads_word (Or.inr (Or.inl ⟨rfl, rfl⟩))
  | falseWord => exact reads_word (Or.inr (Or.inr ⟨rfl, rfl⟩))
  | number h => exact reads_number h
  | string h => exact reads_string h
  | emptyArray h => exact reads_emptyArray h
  | array h ih => exact reads_array h ih
  | emptyObject h => exact reads_emptyObject h
  | object h ih => exact reads_object h ih
  | item hleft hvalue hright ih => exact reads_item hleft hvalue hright ih
  | lastItem _ ih => exact reads_lastItem ih
  | moreItems _ _ ih ih' => exact reads_moreItems ih ih'
  | member hleft hparts hmiddle _ ih => exact reads_member hleft hparts hmiddle ih
  | lastMember _ ih => exact reads_lastMember ih
  | moreMembers _ _ ih ih' => exact reads_moreMembers ih ih'

/-- A whole text is read from its first byte up to the end of its value. -/
theorem text_reads {text : Text} (h : IsText Known tree text) :
    ∃ left bytes right, text = left ++ (bytes ++ right) ∧ Spaces left ∧ Spaces right ∧
      Spells Known (.value tree) bytes ∧
      ∀ fuel, text.length + 1 ≤ fuel →
        value text fuel ⟨0, true⟩ = some (readTree tree, ⟨left.length + bytes.length, true⟩) := by
  cases h with
  | @item _ left bytes right hleft hvalue hright =>
    refine ⟨left, bytes, right, rfl, hleft, hright, hvalue, fun fuel hfuel => ?_⟩
    have hat : At (left ++ (bytes ++ right)) 0 (left ++ (bytes ++ right)) :=
      ⟨Nat.zero_le _, rfl⟩
    obtain ⟨c, tail, hhead, hopens⟩ := hvalue.head
    have hstart : Stops IsSpace (bytes ++ right) := by
      rw [hhead, List.cons_append]
      exact stops_cons (not_space_of_opens hopens)
    have hbehind : Stops InNumber right := by
      cases right with
      | nil => exact stops_nil
      | cons d right => exact stops_cons (not_inNumber_of_space (hright d List.mem_cons_self))
    rw [value_skip hat hleft hstart,
      spells_reads hvalue _ _ _ hat.append hbehind (by omega), Nat.zero_add]

end Bindgen
end Beans
