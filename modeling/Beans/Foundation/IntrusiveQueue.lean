import Mathlib

/-!
# Intrusive queues

A singly linked queue whose links live in its elements: one `next` field per
element, a head and a tail pointer per queue.  Several queues share the field,
an element being in at most one of them.  `Linked` says which list a queue
stands for; pushing, popping and unlinking from the middle are the list
operations, and none of them disturbs another queue.
-/

namespace Beans
namespace IntrusiveQueue

/-- The head and tail pointers of a queue. -/
structure Line (α : Type*) where
  head : Option α
  tail : Option α
deriving DecidableEq, Repr

variable {α : Type*}

def Line.empty : Line α := ⟨none, none⟩

/-- The elements reached from a pointer are those of the list. -/
def Chain (next : α → Option α) : Option α → List α → Prop
  | h, [] => h = none
  | h, x :: xs => h = some x ∧ Chain next (next x) xs

/-- A queue that stands for the list `l`. -/
structure Linked (next : α → Option α) (q : Line α) (l : List α) : Prop where
  chain : Chain next q.head l
  tail_eq : q.tail = l.getLast?
  nodup : l.Nodup

theorem Linked.empty (next : α → Option α) : Linked next Line.empty [] :=
  ⟨rfl, rfl, List.nodup_nil⟩

/-- A chain depends on the links of its own elements only. -/
theorem Chain.congr {next next' : α → Option α} :
    ∀ {l : List α} {h : Option α}, Chain next h l →
      (∀ x ∈ l, next' x = next x) → Chain next' h l
  | [], _, hc, _ => hc
  | x :: xs, _, hc, hsame => by
      refine ⟨hc.1, ?_⟩
      rw [hsame x List.mem_cons_self]
      exact hc.2.congr fun y hy => hsame y (List.mem_cons_of_mem x hy)

theorem Linked.congr {next next' : α → Option α} {q : Line α} {l : List α}
    (h : Linked next q l) (hsame : ∀ x ∈ l, next' x = next x) :
    Linked next' q l :=
  ⟨h.chain.congr hsame, h.tail_eq, h.nodup⟩

variable {k l : List α} {next : α → Option α} {q r : Line α} {x : α}

theorem Linked.head_eq
    (h : Linked next q l) : q.head = l.head? := by
  cases l with
  | nil => exact h.chain
  | cons x xs => exact h.chain.1

variable [DecidableEq α]

/-- The links after `x` is pushed on `q`. -/
def pushNext (next : α → Option α) (q : Line α) (x : α) : α → Option α :=
  match q.tail with
  | none => Function.update next x none
  | some t => Function.update (Function.update next x none) t (some x)

/-- The pointers after `x` is pushed on `q`. -/
def pushLine (q : Line α) (x : α) : Line α :=
  match q.tail with
  | none => ⟨some x, some x⟩
  | some _ => ⟨q.head, some x⟩

theorem Chain.snoc {next : α → Option α} {x t : α} :
    ∀ {l : List α} {h : Option α}, Chain next h l → x ∉ l → l.Nodup →
      l.getLast? = some t →
      Chain (Function.update (Function.update next x none) t (some x)) h
        (l ++ [x])
  | [], _, _, _, _, ht => by cases ht
  | [y], _, hc, hx, _, ht => by
      obtain rfl : y = t := Option.some_inj.mp ht
      have hne : x ≠ y := fun h => hx (by rw [h]; exact List.mem_cons_self)
      refine ⟨hc.1, ?_, ?_⟩
      · rw [Function.update_self]
      · rw [Chain, Function.update_of_ne hne, Function.update_self]
  | y :: z :: zs, _, hc, hx, hnd, ht => by
      obtain ⟨hy, hzs⟩ := List.nodup_cons.mp hnd
      have htl : (z :: zs).getLast? = some t := by
        rw [List.getLast?_cons_cons] at ht
        exact ht
      have hyt : y ≠ t := fun h =>
        hy (by rw [h]; exact List.mem_of_getLast? htl)
      have hyx : y ≠ x := fun h =>
        hx (by rw [← h]; exact List.mem_cons_self)
      refine ⟨hc.1, ?_⟩
      rw [Function.update_of_ne hyt, Function.update_of_ne hyx]
      exact hc.2.snoc (fun h => hx (List.mem_cons_of_mem y h)) hzs htl

theorem Linked.push (h : Linked next q l) (hx : x ∉ l) :
    Linked (pushNext next q x) (pushLine q x) (l ++ [x]) := by
  have hnodup : (l ++ [x]).Nodup := by
    rw [List.nodup_append]
    refine ⟨h.nodup, List.nodup_singleton x, ?_⟩
    intro a ha b hb hab
    rw [List.mem_singleton.mp hb] at hab
    exact hx (hab ▸ ha)
  have htail := h.tail_eq
  unfold pushNext pushLine
  cases ht : q.tail with
  | none =>
    rw [ht] at htail
    have hl : l = [] := List.getLast?_eq_none_iff.mp htail.symm
    subst hl
    exact ⟨⟨rfl, Function.update_self x _ _⟩, rfl, hnodup⟩
  | some t =>
    rw [ht] at htail
    refine ⟨?_, (List.getLast?_concat).symm, hnodup⟩
    exact h.chain.snoc hx h.nodup htail.symm

/-- A push changes the links of its own elements only. -/
theorem pushNext_of_notMem (h : Linked next q l) {y : α} (hy : y ∉ l) (hyx : y ≠ x) :
    pushNext next q x y = next y := by
  have htail := h.tail_eq
  unfold pushNext
  cases ht : q.tail with
  | none => exact Function.update_of_ne hyx _ _
  | some t =>
    rw [ht] at htail
    have hyt : y ≠ t := fun hyt =>
      hy (by rw [hyt]; exact List.mem_of_getLast? htail.symm)
    dsimp only
    rw [Function.update_of_ne hyt, Function.update_of_ne hyx]

/-- Another queue does not see a push. -/
theorem Linked.push_other (h : Linked next q l) (hr : Linked next r k)
    (hdis : l.Disjoint k) (hx : x ∉ k) :
    Linked (pushNext next q x) r k :=
  hr.congr fun _ hy => pushNext_of_notMem h (fun hyl => hdis hyl hy)
    (ne_of_mem_of_not_mem hy hx)

/-- The pointers after the head `x` is popped. -/
def popLine (next : α → Option α) (q : Line α) (x : α) : Line α :=
  ⟨next x, if next x = none then none else q.tail⟩

theorem Linked.pop {xs : List α}
    (h : Linked next q (x :: xs)) :
    Linked (Function.update next x none) (popLine next q x) xs := by
  obtain ⟨hx, hxs⟩ := List.nodup_cons.mp h.nodup
  have htail := h.tail_eq
  have hrest : Chain (Function.update next x none) (next x) xs :=
    h.chain.2.congr fun _ hy =>
      Function.update_of_ne (ne_of_mem_of_not_mem hy hx) _ _
  refine ⟨hrest, ?_, hxs⟩
  unfold popLine
  cases xs with
  | nil =>
    have hnone : next x = none := h.chain.2
    rw [hnone]
    rfl
  | cons y ys =>
    have hsome : next x = some y := h.chain.2.1
    rw [List.getLast?_cons_cons] at htail
    rw [hsome]
    exact htail

/-- Another queue does not see a pop. -/
theorem Linked.update_other (hr : Linked next r k) (hx : x ∉ k) (v : Option α) :
    Linked (Function.update next x v) r k :=
  hr.congr fun _ hy =>
    Function.update_of_ne (ne_of_mem_of_not_mem hy hx) _ _

theorem Chain.update_other {h : Option α}
    (hr : Chain next h k) (hx : x ∉ k) (v : Option α) :
    Chain (Function.update next x v) h k :=
  hr.congr fun _ hy =>
    Function.update_of_ne (ne_of_mem_of_not_mem hy hx) _ _

/-- The walk from a pointer to `x`, with the element before it; there is no answer when the
turns run out. -/
def seek (next : α → Option α) (x : α) :
    ℕ → Option α → Option α → Option (Option α × Option α)
  | 0, _, _ => none
  | _ + 1, previous, none => some (previous, none)
  | n + 1, previous, some y =>
    if y = x then some (previous, some y) else seek next x n (some y) (next y)

/-- The links after `x` is taken out behind `previous`. -/
def unlinkNext (next : α → Option α) (previous : Option α) (x : α) : α → Option α :=
  match previous with
  | none => Function.update next x none
  | some p => Function.update (Function.update next p (next x)) x none

/-- The pointers after `x` is taken out behind `previous`. -/
def unlinkLine (next : α → Option α) (q : Line α) (previous : Option α) (x : α) : Line α where
  head := if previous = none then next x else q.head
  tail := if q.tail = some x then previous else q.tail

/-- The walk finds an element of the queue and what stands before it. -/
theorem Chain.seek_eq {next : α → Option α} {x : α} {after : List α} :
    ∀ {before : List α} {h previous : Option α} {n : ℕ},
      Chain next h (before ++ x :: after) → x ∉ before → before.length < n →
      seek next x n previous h = some (before.getLast?.or previous, some x)
  | [], _, _, n + 1, hc, _, _ => by
      obtain ⟨rfl, -⟩ := hc
      simp [seek]
  | y :: ys, _, previous, n + 1, hc, hx, hn => by
      obtain ⟨rfl, hrest⟩ := hc
      obtain ⟨hne, hys⟩ := not_or.mp (mt List.mem_cons.mpr hx)
      have ih : seek next x n (some y) (next y) = _ :=
        Chain.seek_eq hrest hys (Nat.lt_of_succ_lt_succ hn)
      simp only [seek, if_neg (Ne.symm hne), ih]
      cases hlast : ys.getLast? with
      | none => simp [List.getLast?_eq_none_iff.mp hlast]
      | some z => simp [List.getLast?_cons, hlast]

theorem Chain.unlink {next : α → Option α} {x p : α} {after : List α} :
    ∀ {before : List α} {h : Option α}, Chain next h (before ++ x :: after) →
      (before ++ x :: after).Nodup → before.getLast? = some p →
      Chain (unlinkNext next (some p) x) h (before ++ after)
  | [], _, _, _, hp => by cases hp
  | [y], _, hc, hnd, hp => by
      obtain rfl : y = p := Option.some_inj.mp hp
      simp only [List.cons_append, List.nil_append, List.nodup_cons, List.mem_cons,
        not_or] at hnd
      obtain ⟨⟨hyx, hy⟩, hx, -⟩ := hnd
      refine ⟨hc.1, ?_⟩
      simp only [unlinkNext, Function.update_of_ne hyx, Function.update_self]
      exact (hc.2.2.update_other hy _).update_other hx _
  | y :: z :: zs, _, hc, hnd, hp => by
      obtain ⟨hy, hrest⟩ := List.nodup_cons.mp hnd
      have hpl : (z :: zs).getLast? = some p := by
        rw [← hp, List.getLast?_cons_cons]
      have hyx : y ≠ x := by
        rintro rfl
        exact hy (by simp)
      have hyp : y ≠ p := by
        rintro rfl
        exact hy (List.mem_append_left _ (List.mem_of_getLast? hpl))
      refine ⟨hc.1, ?_⟩
      simp only [unlinkNext, Function.update_of_ne hyx, Function.update_of_ne hyp]
      exact Chain.unlink hc.2 hrest hpl

theorem Linked.unlink {next : α → Option α} {q : Line α} {x : α} {before after : List α}
    (h : Linked next q (before ++ x :: after)) :
    Linked (unlinkNext next before.getLast? x) (unlinkLine next q before.getLast? x)
      (before ++ after) := by
  have hnd := h.nodup
  have hkept : (before ++ after).Nodup :=
    hnd.sublist (List.Sublist.append_left (List.sublist_cons_self x after) before)
  have hx : x ∉ before ∧ x ∉ after := by
    have hmid := List.nodup_middle.mp hnd
    exact not_or.mp (mt List.mem_append.mpr (List.nodup_cons.mp hmid).1)
  have htail : (unlinkLine next q before.getLast? x).tail = (before ++ after).getLast? := by
    cases after with
    | nil => simp [unlinkLine, h.tail_eq]
    | cons z zs =>
      obtain ⟨last, hlast⟩ := Option.ne_none_iff_exists'.mp
        (mt List.getLast?_eq_none_iff.mp (List.cons_ne_nil z zs))
      have hne : last ≠ x := by
        rintro rfl
        exact hx.2 (List.mem_of_getLast? hlast)
      simp [unlinkLine, h.tail_eq, List.getLast?_append, hlast, hne]
  refine ⟨?_, htail, hkept⟩
  cases hlast : before.getLast? with
  | none =>
    obtain rfl := List.getLast?_eq_none_iff.mp hlast
    exact h.chain.2.update_other hx.2 _
  | some p => exact h.chain.unlink hnd hlast

/-- Another queue does not see an element taken out. -/
theorem Linked.unlink_other {previous : Option α} (hr : Linked next r k) (hx : x ∉ k)
    (hp : ∀ p, previous = some p → p ∉ k) :
    Linked (unlinkNext next previous x) r k := by
  cases previous with
  | none => exact hr.update_other hx _
  | some p => exact (hr.update_other (hp p rfl) _).update_other hx _

end IntrusiveQueue
end Beans
