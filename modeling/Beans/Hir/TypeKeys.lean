import Beans.Foundation.SelfDelimiting
import Beans.Hir.Types

/-!
# One key for one type

What a type means is its shape: no aliases, every result and every error written
out.  A key spells the shape, a shape can be read back from its key, and the
comparison without keys compares shapes.
-/

namespace Beans
namespace Hir

open SelfDelimiting

/-- What a type means. -/
inductive Shape where
  | array (element : Shape) (length : ℤ)
  | fn (sendable : Bool) (params : List Shape) (result : Shape)
  | named (name : Text) (args : List Shape)

namespace Shape

def unit : Shape :=
  named (ascii "unit") []

def error : Shape :=
  named (ascii "Error") []

mutual

/-- The spelling of a shape. -/
def key : Shape → Text
  | array element length =>
    ascii "[" ++ (element.key ++ (ascii ";" ++ (Text.ofInt length ++ ascii "]")))
  | fn sendable params result =>
    (if sendable then ascii "send " else []) ++ (ascii "fn(" ++
      (paramsKey params ++ (ascii ")->" ++ result.key)))
  | named name args => name ++ argsKey args

/-- Spellings with commas in between. -/
def paramsKey : List Shape → Text
  | [] => []
  | shape :: rest => shape.key ++ restKey rest

def argsKey : List Shape → Text
  | [] => []
  | shape :: rest => ascii "<" ++ (shape.key ++ (restKey rest ++ ascii ">"))

def restKey : List Shape → Text
  | [] => []
  | shape :: rest => ascii "," ++ (shape.key ++ restKey rest)

end

end Shape

mutual

/-- The shape a type means. -/
def HirType.shape : HirType → Shape
  | .mk name args arrayLength fnParameterCount fnSendable =>
    if name = ascii "array" then .array ((shapes args).headD .unit) arrayLength
    else if name = ascii "fn" then
      .fn fnSendable ((shapes args).take fnParameterCount.toNat)
        (if fnParameterCount < args.length then
          (shapes args).getD fnParameterCount.toNat .unit
        else .unit)
    else
      .named (canonicalHirName name)
        (if canonicalHirName name = ascii "Result" ∧ args.length = 1 then
          shapes args ++ [.error]
        else shapes args)

def shapes : List HirType → List Shape
  | [] => []
  | type :: rest => type.shape :: shapes rest

end

theorem shapes_eq (args : List HirType) : shapes args = args.map HirType.shape := by
  induction args with
  | nil => rfl
  | cons type rest ih => rw [shapes, ih, List.map_cons]

theorem argumentKeys_eq (args : List HirType) :
    argumentKeys args = args.map appendHirTypeKey := by
  induction args with
  | nil => rfl
  | cons type rest ih => rw [argumentKeys, ih, List.map_cons]

/-- The bytes that hold a spelling together. -/
def isNameByte (b : UInt8) : Bool :=
  !(ascii "<>,;[]() ").contains b

/-- A name a declaration or a builtin can have. -/
def IsTypeName (name : Text) : Prop :=
  name ≠ [] ∧ name ≠ ascii "array" ∧ name ≠ ascii "fn" ∧ ∀ b ∈ name, isNameByte b = true

mutual

/-- A type as the checker builds it: an array has an element, and a function its
parameters and at most one result. -/
def HirType.WellFormed : HirType → Prop
  | .mk name args _ fnParameterCount _ =>
    (if name = ascii "array" then args.length = 1
    else if name = ascii "fn" then
      0 ≤ fnParameterCount ∧
        (args.length = fnParameterCount ∨ args.length = fnParameterCount + 1)
    else IsTypeName name) ∧ AllWellFormed args

def AllWellFormed : List HirType → Prop
  | [] => True
  | type :: rest => type.WellFormed ∧ AllWellFormed rest

end

theorem allWellFormed_iff {args : List HirType} :
    AllWellFormed args ↔ ∀ arg ∈ args, arg.WellFormed := by
  induction args with
  | nil => simp [AllWellFormed]
  | cons type rest ih => rw [AllWellFormed, List.forall_mem_cons, ih]

/-- Induction through the arguments. -/
theorem HirType.induction {P : HirType → Prop}
    (h : ∀ type : HirType, (∀ arg ∈ type.args, P arg) → P type) :
    ∀ type, P type
  | .mk _ args _ _ _ => h _ (ofArgs args)
where
  ofArgs : ∀ args : List HirType, ∀ arg ∈ args, P arg
    | [] => fun _ hmem => absurd hmem List.not_mem_nil
    | type :: rest => List.forall_mem_cons.mpr ⟨HirType.induction h type, ofArgs rest⟩

theorem separated_cons (pieces : List Text) (rest : List (List Text)) :
    separated (pieces :: rest) = pieces ++ rest.flatMap fun pieces => ascii "," :: pieces := by
  induction rest generalizing pieces with
  | nil => simp [separated, List.intercalate]
  | cons next rest ih =>
    rw [List.flatMap_cons, List.cons_append, ← ih]
    simp [separated, List.intercalate, List.intersperse]

theorem restKey_eq {types : List HirType}
    (h : ∀ type ∈ types, (appendHirTypeKey type).flatten = type.shape.key) :
    ((types.map appendHirTypeKey).flatMap fun pieces => ascii "," :: pieces).flatten =
      Shape.restKey (types.map HirType.shape) := by
  induction types with
  | nil => rfl
  | cons type rest ih =>
    rw [List.forall_mem_cons] at h
    rw [List.map_cons, List.flatMap_cons, List.flatten_append, ih h.2, List.flatten_cons, h.1,
      List.map_cons, Shape.restKey, List.append_assoc]

theorem separated_eq {types : List HirType}
    (h : ∀ type ∈ types, (appendHirTypeKey type).flatten = type.shape.key) :
    (separated (types.map appendHirTypeKey)).flatten =
      Shape.paramsKey (types.map HirType.shape) := by
  cases types with
  | nil => rfl
  | cons type rest =>
    rw [List.forall_mem_cons] at h
    rw [List.map_cons, separated_cons, List.flatten_append, restKey_eq h.2, h.1, List.map_cons,
      Shape.paramsKey]

/-- The key of a type spells its shape. -/
theorem hirTypeKey_eq {type : HirType} (h : type.WellFormed) :
    hirTypeKey type = type.shape.key := by
  induction type using HirType.induction with
  | h type ih =>
  obtain ⟨name, args, arrayLength, fnParameterCount, fnSendable⟩ := type
  rw [HirType.WellFormed, allWellFormed_iff] at h
  obtain ⟨hshape, hargs⟩ := h
  have hkeys : ∀ arg ∈ args, (appendHirTypeKey arg).flatten = arg.shape.key :=
    fun arg hmem => ih arg hmem (hargs arg hmem)
  rw [hirTypeKey, appendHirTypeKey, HirType.shape, shapes_eq, argumentKeys_eq]
  by_cases harray : name = ascii "array"
  · rw [if_pos harray] at hshape ⊢
    rw [if_pos harray]
    obtain ⟨element, rfl⟩ := List.length_eq_one_iff.mp hshape
    have helement := hkeys element List.mem_cons_self
    simp [Shape.key, helement]
  rw [if_neg harray] at hshape ⊢
  rw [if_neg harray]
  by_cases hfn : name = ascii "fn"
  · rw [if_pos hfn] at hshape ⊢
    rw [if_pos hfn, Shape.key]
    have hparams := @separated_eq (args.take fnParameterCount.toNat)
      fun arg hmem => hkeys arg (List.mem_of_mem_take hmem)
    rw [List.map_take, List.map_take] at hparams
    have hresult : (if fnParameterCount < args.length then
          (args.map appendHirTypeKey).getD fnParameterCount.toNat []
        else [ascii "unit"]).flatten =
        (if fnParameterCount < args.length then
          (args.map HirType.shape).getD fnParameterCount.toNat .unit
        else .unit).key := by
      split_ifs with hwritten
      · have hlt : fnParameterCount.toNat < args.length := by omega
        simp [hlt, hkeys]
      · rfl
    simp only [List.flatten_append, hparams, hresult]
    cases fnSendable <;> simp
  · rw [if_neg hfn, if_neg hfn, Shape.key]
    cases args with
    | nil => simp [Shape.argsKey]
    | cons arg rest =>
      have hargsKey := separated_eq hkeys
      rw [if_neg (by simp)]
      simp only [List.flatten_append, hargsKey]
      cases rest with
      | nil =>
        by_cases herror : canonicalHirName name = ascii "Result"
        · simp [herror, Shape.argsKey, Shape.paramsKey, Shape.restKey, Shape.error, Shape.key]
          rfl
        · simp [herror, Shape.argsKey, Shape.paramsKey, Shape.restKey]
      | cons next rest => simp [Shape.argsKey, Shape.paramsKey]

mutual

/-- The names of a shape are names. -/
def Shape.Ok : Shape → Prop
  | .array element _ => element.Ok
  | .fn _ params result => AllOk params ∧ result.Ok
  | .named name args => IsTypeName name ∧ AllOk args

def AllOk : List Shape → Prop
  | [] => True
  | shape :: rest => shape.Ok ∧ AllOk rest

end

/-- What may follow a spelling inside another one. -/
def Ends (rest : Text) : Prop :=
  ∀ b ∈ rest.head?, b ∈ ascii ",>;)"

/-- The name a spelling starts with. -/
def Shape.lead : Shape → Text
  | .array _ _ => []
  | .fn sendable _ _ => if sendable then ascii "send" else ascii "fn"
  | .named name _ => name

/-- What follows the name. -/
def Shape.body : Shape → Text
  | .array element length =>
    ascii "[" ++ (element.key ++ (ascii ";" ++ (Text.ofInt length ++ ascii "]")))
  | .fn sendable params result =>
    (if sendable then ascii " fn(" else ascii "(") ++
      (paramsKey params ++ (ascii ")->" ++ result.key))
  | .named _ args => argsKey args

theorem Shape.key_eq (shape : Shape) : shape.key = shape.lead ++ shape.body := by
  cases shape with
  | array element length => rw [Shape.key, Shape.lead, Shape.body, List.nil_append]
  | fn sendable params result =>
    rw [Shape.key, Shape.lead, Shape.body]
    cases sendable <;> rfl
  | named name args => rw [Shape.key, Shape.lead, Shape.body]

variable {name q r rest : Text} {s shape t : Shape} {l : List Shape}

theorem Ends.notName (h : Ends rest) :
    ∀ b ∈ rest.head?, ¬ isNameByte b = true := by
  have hall : ∀ b : UInt8, b ∈ ascii ",>;)" → ¬ isNameByte b = true := by decide +kernel
  exact fun b hb => hall b (h b hb)

theorem Shape.lead_name (h : shape.Ok) :
    ∀ b ∈ shape.lead, isNameByte b = true := by
  cases shape with
  | array element length => simp [Shape.lead]
  | fn sendable params result =>
    have hsend : (ascii "send").all isNameByte = true := by decide
    have hfn : (ascii "fn").all isNameByte = true := by decide
    cases sendable with
    | false => exact List.all_eq_true.mp hfn
    | true => exact List.all_eq_true.mp hsend
  | named name args => exact h.1.2.2.2

theorem Shape.body_notName (h : Ends rest) :
    ∀ b ∈ (shape.body ++ rest).head?, ¬ isNameByte b = true := by
  cases shape with
  | array element length =>
    intro b hb
    obtain rfl : 0x5B = b := by simpa [Shape.body, ascii] using hb
    decide
  | fn sendable params result =>
    intro b hb
    cases sendable with
    | true =>
      obtain rfl : 0x20 = b := by simpa [Shape.body, ascii] using hb
      decide
    | false =>
      obtain rfl : 0x28 = b := by simpa [Shape.body, ascii] using hb
      decide
  | named name args =>
    cases args with
    | nil => exact h.notName
    | cons first args =>
      intro b hb
      obtain rfl : 0x3C = b := by simpa [Shape.body, Shape.argsKey, ascii] using hb
      decide

/-- The name in front is read first. -/
theorem Shape.lead_inj (hs : s.Ok) (ht : t.Ok) (hr : Ends r) (hq : Ends q)
    (h : s.key ++ r = t.key ++ q) :
    s.lead = t.lead ∧ s.body ++ r = t.body ++ q := by
  rw [s.key_eq, t.key_eq, List.append_assoc, List.append_assoc] at h
  exact @split_at_run _ (fun b => isNameByte b = true) _ _ _ _ (lead_name hs) (lead_name ht)
    (body_notName hr) (body_notName hq) h

theorem ends_of_mem {b : UInt8} {rest : Text} (h : b ∈ ascii ",>;)") : Ends (b :: rest) := by
  intro c hc
  obtain rfl : b = c := Option.some.inj hc
  exact h

theorem ends_semicolon (rest : Text) : Ends (ascii ";" ++ rest) :=
  @ends_of_mem 0x3B rest (by decide)

/-- No name is followed by what follows the name in front of a function. -/
theorem Shape.fn_ne_named {sendable : Bool} {params args : List Shape} {result : Shape}
    (hname : IsTypeName name)
    (hq : Ends q)
    (hlead : (fn sendable params result).lead = name)
    (hbody : (fn sendable params result).body ++ r = (named name args).body ++ q) :
    False := by
  cases sendable with
  | false => exact hname.2.2.1 hlead.symm
  | true =>
    have hhead := congrArg List.head? hbody
    cases args with
    | nil =>
      have hspace : q.head? = some 0x20 := by
        simpa [Shape.body, Shape.argsKey, ascii] using hhead.symm
      exact absurd (hq 0x20 hspace) (by decide)
    | cons first args => simp [Shape.body, Shape.argsKey, ascii] at hhead

/-- Arrays, functions and names are told apart. -/
theorem Shape.same_kind (hs : s.Ok) (ht : t.Ok) (hr : Ends r) (hq : Ends q)
    (h : s.key ++ r = t.key ++ q) :
    (∃ element length element' length', s = .array element length ∧
      t = .array element' length') ∨
    (∃ sendable params result params' result', s = .fn sendable params result ∧
      t = .fn sendable params' result') ∨
    ∃ name args args', s = .named name args ∧ t = .named name args' := by
  obtain ⟨hlead, hbody⟩ := lead_inj hs ht hr hq h
  cases s with
  | array element length =>
    cases t with
    | array element' length' => exact Or.inl ⟨_, _, _, _, rfl, rfl⟩
    | fn sendable params result =>
      rw [Shape.lead, Shape.lead] at hlead
      cases sendable <;> exact absurd hlead (by decide)
    | named name args => exact absurd hlead.symm ht.1.1
  | fn sendable params result =>
    cases t with
    | array element length =>
      rw [Shape.lead, Shape.lead] at hlead
      cases sendable <;> exact absurd hlead (by decide)
    | fn sendable' params' result' =>
      rw [Shape.lead, Shape.lead] at hlead
      cases sendable <;> cases sendable' <;> first
        | exact absurd hlead (by decide)
        | exact Or.inr (Or.inl ⟨_, _, _, _, _, rfl, rfl⟩)
    | named name args => exact (fn_ne_named ht.1 hq hlead hbody).elim
  | named name args =>
    cases t with
    | array element length => exact absurd hlead hs.1.1
    | fn sendable params result => exact (fn_ne_named hs.1 hr hlead.symm hbody.symm).elim
    | named name' args' =>
      obtain rfl : name = name' := hlead
      exact Or.inr (Or.inr ⟨_, _, _, rfl, rfl⟩)

theorem Text.bracket_not_mem_ofInt (n : ℤ) : (0x5D : UInt8) ∉ Text.ofInt n := by
  intro hmem
  rw [Text.ofInt] at hmem
  split_ifs at hmem
  · rcases List.mem_cons.mp hmem with h | h
    · exact absurd h (by decide)
    · exact absurd (Text.mem_ofNat h) (by decide)
  · exact absurd (Text.mem_ofNat hmem) (by decide)

/-- What follows a spelling in a list of them. -/
theorem ends_rest (l : List Shape) {c : UInt8} (hc : c ∈ ascii ">)") (r : Text) :
    Ends (Shape.restKey l ++ c :: r) := by
  cases l with
  | nil =>
    refine ends_of_mem ?_
    have hall : ∀ b : UInt8, b ∈ ascii ">)" → b ∈ ascii ",>;)" := by decide +kernel
    exact hall c hc
  | cons s l => exact @ends_of_mem 0x2C _ (by decide)

/-- A spelling does not start with what may follow one. -/
theorem Shape.not_ends (hs : s.Ok) (rest : Text) : ¬ Ends (s.key ++ rest) := by
  intro hends
  cases s with
  | array element length => exact absurd (hends 0x5B rfl) (by decide)
  | fn sendable params result =>
    cases sendable with
    | false => exact absurd (hends 0x66 rfl) (by decide)
    | true => exact absurd (hends 0x73 rfl) (by decide)
  | named name args =>
    obtain ⟨b, name, rfl⟩ := List.exists_cons_of_ne_nil hs.1.1
    have hb := hs.1.2.2.2 b List.mem_cons_self
    exact (hends.notName b rfl) hb

theorem Shape.params_ne_nil {s : Shape} {l : List Shape} {r q : Text}
    (hs : s.Ok)
    (h : paramsKey (s :: l) ++ (ascii ")->" ++ r) = paramsKey [] ++ (ascii ")->" ++ q)) :
    False := by
  simp only [paramsKey, List.append_assoc, List.nil_append] at h
  refine not_ends hs (restKey l ++ (ascii ")->" ++ r)) ?_
  rw [h]
  exact @ends_of_mem 0x29 _ (by decide)

theorem Shape.args_ne_nil (hq : Ends q) (h : argsKey (s :: l) ++ r = argsKey [] ++ q) :
    False := by
  have hhead : q.head? = some 0x3C := by
    rw [argsKey, argsKey, List.nil_append] at h
    rw [← h]
    rfl
  exact absurd (hq 0x3C hhead) (by decide)

theorem Shape.rest_ne_nil {c : UInt8}
    (hc : c ∈ ascii ">)")
    (h : restKey (s :: l) ++ r = restKey [] ++ c :: q) :
    False := by
  have hhead : (0x2C : UInt8) = c := by
    rw [restKey, restKey, List.nil_append] at h
    exact (List.cons.inj h).1
  rw [← hhead] at hc
  exact absurd hc (by decide)

mutual

/-- A shape is read back from its spelling, whatever follows. -/
theorem Shape.key_append_inj : ∀ (s : Shape), s.Ok → ∀ t : Shape, t.Ok → ∀ r q, Ends r → Ends q →
    s.key ++ r = t.key ++ q → s = t ∧ r = q
  | .array element length, hs, t, ht, r, q, hr, hq, h => by
      rcases Shape.same_kind hs ht hr hq h with ⟨_, _, element', length', hs', rfl⟩ |
        ⟨_, _, _, _, _, hs', -⟩ | ⟨_, _, _, hs', -⟩
      · cases hs'
        have hbody := (Shape.lead_inj hs ht hr hq h).2
        simp only [Shape.body, List.append_assoc] at hbody
        obtain ⟨rfl, hrest⟩ := element.key_append_inj hs element' ht
          (ascii ";" ++ (Text.ofInt length ++ (ascii "]" ++ r)))
          (ascii ";" ++ (Text.ofInt length' ++ (ascii "]" ++ q)))
          (ends_semicolon _) (ends_semicolon _) (List.append_cancel_left hbody)
        have hlengths : Text.ofInt length ++ 0x5D :: r = Text.ofInt length' ++ 0x5D :: q :=
          List.append_cancel_left hrest
        obtain ⟨hlength, hend⟩ := split_at_mark (Text.bracket_not_mem_ofInt length)
          (Text.bracket_not_mem_ofInt length') hlengths
        rw [Text.ofInt_injective hlength]
        exact ⟨rfl, hend⟩
      · cases hs'
      · cases hs'
  | .fn sendable params result, hs, t, ht, r, q, hr, hq, h => by
      rcases Shape.same_kind hs ht hr hq h with ⟨_, _, _, _, hs', -⟩ |
        ⟨_, _, _, params', result', hs', rfl⟩ | ⟨_, _, _, hs', -⟩
      · cases hs'
      · cases hs'
        have hbody := (Shape.lead_inj hs ht hr hq h).2
        simp only [Shape.body, List.append_assoc] at hbody
        obtain ⟨rfl, hrest⟩ := paramsKey_append_inj params hs.1 params' ht.1 _ _
          (List.append_cancel_left hbody)
        obtain ⟨rfl, hend⟩ := result.key_append_inj hs.2 result' ht.2 r q hr hq hrest
        exact ⟨rfl, hend⟩
      · cases hs'
  | .named name args, hs, t, ht, r, q, hr, hq, h => by
      rcases Shape.same_kind hs ht hr hq h with ⟨_, _, _, _, hs', -⟩ |
        ⟨_, _, _, _, _, hs', -⟩ | ⟨_, _, args', hs', rfl⟩
      · cases hs'
      · cases hs'
      · cases hs'
        obtain ⟨rfl, hend⟩ := argsKey_append_inj args hs.2 args' ht.2 r q hr hq
          (Shape.lead_inj hs ht hr hq h).2
        exact ⟨rfl, hend⟩

theorem paramsKey_append_inj : ∀ (l : List Shape), AllOk l → ∀ m : List Shape, AllOk m →
    ∀ r q, Shape.paramsKey l ++ (ascii ")->" ++ r) = Shape.paramsKey m ++ (ascii ")->" ++ q) →
      l = m ∧ r = q
  | [], _, [], _, r, q, h => ⟨rfl, List.append_cancel_left h⟩
  | [], _, t :: m, hm, r, q, h => (Shape.params_ne_nil hm.1 h.symm).elim
  | s :: l, hl, [], _, r, q, h => (Shape.params_ne_nil hl.1 h).elim
  | s :: l, hl, t :: m, hm, r, q, h => by
      rw [Shape.paramsKey, Shape.paramsKey, List.append_assoc, List.append_assoc] at h
      obtain ⟨rfl, hrest⟩ := s.key_append_inj hl.1 t hm.1 _ _ (ends_rest l (by decide) _)
        (ends_rest m (by decide) _) h
      obtain ⟨rfl, hend⟩ := restKey_append_inj l hl.2 m hm.2 0x29 (by decide) _ _ hrest
      exact ⟨rfl, List.append_cancel_left hend⟩

theorem argsKey_append_inj : ∀ (l : List Shape), AllOk l → ∀ m : List Shape, AllOk m →
    ∀ r q, Ends r → Ends q → Shape.argsKey l ++ r = Shape.argsKey m ++ q → l = m ∧ r = q
  | [], _, [], _, r, q, _, _, h => ⟨rfl, h⟩
  | [], _, _ :: _, _, _, _, hr, _, h => (Shape.args_ne_nil hr h.symm).elim
  | _ :: _, _, [], _, _, _, _, hq, h => (Shape.args_ne_nil hq h).elim
  | s :: l, hl, t :: m, hm, r, q, _, _, h => by
      simp only [Shape.argsKey, List.append_assoc] at h
      obtain ⟨rfl, hrest⟩ := s.key_append_inj hl.1 t hm.1 _ _
        (@ends_rest l 0x3E (by decide) r) (@ends_rest m 0x3E (by decide) q)
        (List.append_cancel_left h)
      obtain ⟨rfl, hend⟩ := restKey_append_inj l hl.2 m hm.2 0x3E (by decide) r q hrest
      exact ⟨rfl, hend⟩

theorem restKey_append_inj : ∀ (l : List Shape), AllOk l → ∀ m : List Shape, AllOk m →
    ∀ c, c ∈ ascii ">)" → ∀ r q, Shape.restKey l ++ c :: r = Shape.restKey m ++ c :: q →
      l = m ∧ r = q
  | [], _, [], _, _, _, _, _, h => ⟨rfl, (List.cons.inj h).2⟩
  | [], _, _ :: _, _, _, hc, _, _, h => (Shape.rest_ne_nil hc h.symm).elim
  | _ :: _, _, [], _, _, hc, _, _, h => (Shape.rest_ne_nil hc h).elim
  | s :: l, hl, t :: m, hm, c, hc, r, q, h => by
      simp only [Shape.restKey, List.append_assoc] at h
      obtain ⟨rfl, hrest⟩ := s.key_append_inj hl.1 t hm.1 _ _ (ends_rest l hc r)
        (ends_rest m hc q) (List.append_cancel_left h)
      obtain ⟨rfl, hend⟩ := restKey_append_inj l hl.2 m hm.2 c hc r q hrest
      exact ⟨rfl, hend⟩

end

/-- The name a shape goes by. -/
def Shape.head : Shape → Text
  | .array _ _ => ascii "array"
  | .fn _ _ _ => ascii "fn"
  | .named name _ => name

theorem canonicalHirName_eq {keyword : Text}
    (h : canonicalHirName name = keyword)
    (hkeyword : keyword ≠ ascii "int" ∧ keyword ≠ ascii "u8" ∧ keyword ≠ ascii "float") :
    name = keyword := by
  rw [canonicalHirName] at h
  split_ifs at h
  · exact absurd h.symm hkeyword.1
  · exact absurd h.symm hkeyword.2.1
  · exact absurd h.symm hkeyword.2.2
  · exact h

theorem canonicalHirName_array :
    canonicalHirName name = ascii "array" ↔ name = ascii "array" :=
  ⟨fun h => canonicalHirName_eq h (by decide), fun h => by rw [h]; decide⟩

theorem canonicalHirName_fn :
    canonicalHirName name = ascii "fn" ↔ name = ascii "fn" :=
  ⟨fun h => canonicalHirName_eq h (by decide), fun h => by rw [h]; decide⟩

theorem isTypeName_canonical (h : IsTypeName name) :
    IsTypeName (canonicalHirName name) := by
  have hbuiltin : ∀ name ∈ [ascii "int", ascii "u8", ascii "float"], name ≠ [] ∧
      name ≠ ascii "array" ∧ name ≠ ascii "fn" ∧ name.all isNameByte = true := by decide
  rw [canonicalHirName]
  split_ifs
  · obtain ⟨hne, harray, hfn, hbytes⟩ := hbuiltin (ascii "int") (by simp)
    exact ⟨hne, harray, hfn, List.all_eq_true.mp hbytes⟩
  · obtain ⟨hne, harray, hfn, hbytes⟩ := hbuiltin (ascii "u8") (by simp)
    exact ⟨hne, harray, hfn, List.all_eq_true.mp hbytes⟩
  · obtain ⟨hne, harray, hfn, hbytes⟩ := hbuiltin (ascii "float") (by simp)
    exact ⟨hne, harray, hfn, List.all_eq_true.mp hbytes⟩
  · exact h

theorem HirType.head_shape (type : HirType) :
    type.shape.head = canonicalHirName type.name := by
  obtain ⟨name, args, arrayLength, fnParameterCount, fnSendable⟩ := type
  rw [HirType.shape, HirType.name]
  by_cases harray : name = ascii "array"
  · rw [if_pos harray, canonicalHirName_array.mpr harray]
    rfl
  by_cases hfn : name = ascii "fn"
  · rw [if_neg harray, if_pos hfn, canonicalHirName_fn.mpr hfn]
    rfl
  · rw [if_neg harray, if_neg hfn]
    rfl

theorem allOk_iff : AllOk l ↔ ∀ shape ∈ l, shape.Ok := by
  induction l with
  | nil => simp [AllOk]
  | cons shape rest ih => rw [AllOk, List.forall_mem_cons, ih]

theorem Shape.error_ok : Shape.error.Ok := by
  refine ⟨⟨by decide, by decide, by decide, ?_⟩, trivial⟩
  have hbytes : (ascii "Error").all isNameByte = true := by decide
  exact List.all_eq_true.mp hbytes

theorem Shape.unit_ok : Shape.unit.Ok := by
  refine ⟨⟨by decide, by decide, by decide, ?_⟩, trivial⟩
  have hbytes : (ascii "unit").all isNameByte = true := by decide
  exact List.all_eq_true.mp hbytes

theorem HirType.shape_ok {type : HirType} (h : type.WellFormed) : type.shape.Ok := by
  induction type using HirType.induction with
  | h type ih =>
  obtain ⟨name, args, arrayLength, fnParameterCount, fnSendable⟩ := type
  rw [HirType.WellFormed, allWellFormed_iff] at h
  obtain ⟨hshape, hargs⟩ := h
  have hok : ∀ shape ∈ args.map HirType.shape, shape.Ok := by
    intro shape hmem
    obtain ⟨arg, harg, rfl⟩ := List.mem_map.mp hmem
    exact ih arg harg (hargs arg harg)
  have hget : ∀ (default : Shape) (i : ℕ), default.Ok →
      ((args.map HirType.shape).getD i default).Ok := by
    intro default i hdefault
    rw [List.getD_eq_getElem?_getD]
    cases hget : (args.map HirType.shape)[i]? with
    | none => exact hdefault
    | some shape => exact hok shape (List.mem_of_getElem? hget)
  rw [HirType.shape, shapes_eq]
  by_cases harray : name = ascii "array"
  · rw [if_pos harray]
    have hfirst := hget .unit 0 Shape.unit_ok
    rwa [List.getD_eq_getElem?_getD, ← List.head?_eq_getElem?, ← List.headD_eq_head?_getD]
      at hfirst
  rw [if_neg harray] at hshape ⊢
  by_cases hfn : name = ascii "fn"
  · rw [if_pos hfn]
    refine ⟨allOk_iff.mpr fun shape hmem => hok shape (List.mem_of_mem_take hmem), ?_⟩
    split_ifs
    · exact hget .unit _ Shape.unit_ok
    · exact Shape.unit_ok
  · rw [if_neg hfn] at hshape ⊢
    refine ⟨isTypeName_canonical hshape, allOk_iff.mpr ?_⟩
    split_ifs
    · intro shape hmem
      rcases List.mem_append.mp hmem with hmem | hmem
      · exact hok shape hmem
      · rw [List.mem_singleton.mp hmem]
        exact Shape.error_ok
    · exact hok

end Hir
end Beans
