import Beans.Foundation.BinaryHeap
import Beans.Foundation.StableQueue
import Beans.Collections.PriorityQueue

/-!
# The priority queue is a stable priority queue

The heap holds the entries pushed and not yet taken out, each with the number of
its push.  Written in push order without the numbers these entries are a stable
priority queue, and every operation on the heap is the operation on that list.
The two sifts keep the entries and end in a heap: the list with the held entry
written into the hole is rearranged by exchanges.

**Results.**
* `priorityQueue_stable`: as long as fewer than 2^63 entries are pushed, every read answers
  from the stable queue, and draining hands the entries out in its order.
-/

namespace Beans
namespace Collections

open BinaryHeap StableQueue

variable {P V : Type} [LinearOrder P]

/-- Priority first, then the push. -/
def Entry.key (e : Entry P V) : P ×ₗ ℤ := toLex (e.priority, e.sequence)

/-- `sorts_before` compares the keys. -/
theorem sortsBefore_iff (left right : Entry P V) :
    sortsBefore left right = true ↔ left.key < right.key := by
  unfold Entry.key
  rw [Prod.Lex.toLex_lt_toLex, sortsBefore]
  rcases lt_trichotomy left.priority right.priority with h | h | h
  · simp [h]
  · simp [h]
  · simp [h, not_lt.mpr h.le, h.ne']

theorem not_sortsBefore_iff (left right : Entry P V) :
    ¬ sortsBefore left right = true ↔ right.key ≤ left.key := by
  rw [sortsBefore_iff, not_lt]

/-- The held entry moved towards the root until it rests in a heap. -/
theorem siftUp_spec (entry : Entry P V) (hole : ℕ) :
    ∀ entries : List (Entry P V), hole < entries.length →
      UpOrdered Entry.key (entries.set hole entry) hole →
      ∃ entries' hole', siftUp entry entries hole = .ok (entries', hole') ∧
        hole' < entries'.length ∧ hole' ≤ hole ∧
        (hole' = hole → entries' = entries) ∧
        Ordered Entry.key (entries'.set hole' entry) ∧
        (entries'.set hole' entry).Perm (entries.set hole entry) := by
  induction hole using Nat.strong_induction_on with
  | _ hole ih =>
    intro entries hlt hup
    rcases Nat.eq_zero_or_pos hole with rfl | hpos
    · refine ⟨entries, 0, ?_, hlt, le_rfl, fun _ => rfl, hup.finish ?_,
        .refl _⟩
      · rw [siftUp]
        rfl
      · intro e p hpos
        omega
    · have hparent : (hole - 1) / 2 < entries.length := by omega
      have hne : hole ≠ (hole - 1) / 2 := by omega
      obtain ⟨above, habove⟩ :
          ∃ above, entries[(hole - 1) / 2]? = some above :=
        ⟨_, List.getElem?_eq_getElem hparent⟩
      have hheld : (entries.set hole entry)[hole]? = some entry := by
        simp [hlt]
      have habove' :
          (entries.set hole entry)[(hole - 1) / 2]? = some above := by
        rwa [List.getElem?_set_ne hne]
      by_cases hbefore : sortsBefore entry above = true
      · -- the parent goes down into the hole
        have hkey := (sortsBefore_iff entry above).mp hbefore
        have hmove := hup.move hpos hheld habove' hkey
        have hperm := exchange_perm hheld habove'
        rw [List.set_set] at hmove hperm
        obtain ⟨entries', hole', hsift, hlt', hle, -, hord, hperm'⟩ :=
          ih ((hole - 1) / 2) (by omega) (entries.set hole above)
            (by rwa [List.length_set]) hmove
        refine ⟨entries', hole', ?_, hlt', by omega, ?_, hord,
          hperm'.trans hperm⟩
        · rw [siftUp, if_pos hpos]
          simp only [listGet_ok _ rfl habove, ok_bind, hbefore, not_true,
            if_false, listSet_ok above _ rfl hlt, hsift]
        · intro heq
          omega
      · have hkey := (not_sortsBefore_iff entry above).mp hbefore
        refine ⟨entries, hole, ?_, hlt, le_rfl, fun _ => rfl,
          hup.finish ?_, .refl _⟩
        · rw [siftUp, if_pos hpos]
          simp only [listGet_ok _ rfl habove, ok_bind, hbefore]
          rfl
        · intro e p _ he hp
          rw [hheld] at he
          rw [habove'] at hp
          cases he
          cases hp
          exact hkey

/-- The smaller of the children there are. -/
theorem smallerChild_spec (entries : List (Entry P V)) (child : ℕ)
    (hlt : child < entries.length) :
    ∃ c hc e, smallerChild entries entries.length child = .ok ⟨c, hc⟩ ∧
      (c = child ∨ c = child + 1) ∧ entries[c]? = some e ∧
      ∀ i a, i = child ∨ i = child + 1 → entries[i]? = some a →
        e.key ≤ a.key := by
  obtain ⟨left, hleft⟩ : ∃ left, entries[child]? = some left :=
    ⟨_, List.getElem?_eq_getElem hlt⟩
  by_cases hright : child + 1 < entries.length
  · obtain ⟨right, hsecond⟩ : ∃ right, entries[child + 1]? = some right :=
      ⟨_, List.getElem?_eq_getElem hright⟩
    by_cases hbefore : sortsBefore right left = true
    · have hkey := (sortsBefore_iff right left).mp hbefore
      refine ⟨child + 1, by omega, right, ?_, .inr rfl, hsecond, ?_⟩
      · rw [smallerChild, if_pos hright]
        simp only [listGet_ok _ rfl hleft, listGet_ok _ rfl hsecond, ok_bind,
          hbefore, if_true]
        rfl
      · rintro i a (rfl | rfl) ha
        · rw [hleft] at ha
          cases ha
          exact hkey.le
        · rw [hsecond] at ha
          cases ha
          exact le_rfl
    · have hkey := (not_sortsBefore_iff right left).mp hbefore
      refine ⟨child, le_rfl, left, ?_, .inl rfl, hleft, ?_⟩
      · rw [smallerChild, if_pos hright]
        simp only [listGet_ok _ rfl hleft, listGet_ok _ rfl hsecond, ok_bind,
          hbefore]
        rfl
      · rintro i a (rfl | rfl) ha
        · rw [hleft] at ha
          cases ha
          exact le_rfl
        · rw [hsecond] at ha
          cases ha
          exact hkey
  · refine ⟨child, le_rfl, left, ?_, .inl rfl, hleft, ?_⟩
    · rw [smallerChild, if_neg hright]
    · rintro i a (rfl | rfl) ha
      · rw [hleft] at ha
        cases ha
        exact le_rfl
      · exact absurd (List.getElem?_eq_some_iff.mp ha).1 hright

/-- The held entry moved towards the leaves until it rests in a heap. -/
theorem siftDown_spec (last : Entry P V) (n : ℕ) :
    ∀ (entries : List (Entry P V)) (hole : ℕ), entries.length - hole = n →
      hole < entries.length →
      DownOrdered Entry.key (entries.set hole last) hole →
      ∃ entries' hole',
        siftDown last entries.length entries hole = .ok (entries', hole') ∧
        hole' < entries'.length ∧
        Ordered Entry.key (entries'.set hole' last) ∧
        (entries'.set hole' last).Perm (entries.set hole last) := by
  induction n using Nat.strong_induction_on with
  | _ n ih =>
    intro entries hole hn hlt hdown
    have hheld : (entries.set hole last)[hole]? = some last := by
      simp [hlt]
    by_cases hleaf : hole * 2 + 1 ≥ entries.length
    · refine ⟨entries, hole, ?_, hlt, hdown.finish hheld ?_, .refl _⟩
      · rw [siftDown, if_pos hleaf]
      · intro i a hpos hparent ha
        have hi := (List.getElem?_eq_some_iff.mp ha).1
        rw [List.length_set] at hi
        omega
    · obtain ⟨c, hc, e, hpick, hchild, he, hleast⟩ :=
        smallerChild_spec entries (hole * 2 + 1) (by omega)
      have hcount : c < entries.length :=
        (List.getElem?_eq_some_iff.mp he).1
      have he' : (entries.set hole last)[c]? = some e := by
        rwa [List.getElem?_set_ne (by omega)]
      have hleast' : ∀ i a, 0 < i → (i - 1) / 2 = hole →
          (entries.set hole last)[i]? = some a → e.key ≤ a.key := by
        intro i a hpos hparent ha
        rw [List.getElem?_set_ne (by omega)] at ha
        exact hleast i a (by omega) ha
      by_cases hbefore : sortsBefore e last = true
      · -- the child comes up into the hole
        have hkey := (sortsBefore_iff e last).mp hbefore
        have hmove := hdown.move hheld (by omega) (by omega) he' hkey
          hleast'
        have hperm := exchange_perm hheld he'
        rw [List.set_set] at hmove hperm
        have hlen : (entries.set hole e).length = entries.length :=
          List.length_set
        obtain ⟨entries', hole', hsift, hlt', hord, hperm'⟩ :=
          ih (entries.length - c) (by omega) (entries.set hole e) c
            (by rw [hlen]) (by rwa [hlen]) hmove
        rw [hlen] at hsift
        refine ⟨entries', hole', ?_, hlt', hord, hperm'.trans hperm⟩
        rw [siftDown, if_neg hleaf]
        simp only [hpick, ok_bind, listGet_ok _ rfl he, hbefore, not_true,
          if_false, listSet_ok e _ rfl hlt, hsift]
      · have hkey := (not_sortsBefore_iff e last).mp hbefore
        refine ⟨entries, hole, ?_, hlt, hdown.finish hheld ?_, .refl _⟩
        · rw [siftDown, if_neg hleaf]
          simp only [hpick, ok_bind, listGet_ok _ rfl he, hbefore]
          rfl
        · intro i a hpos hparent ha
          exact hkey.trans (hleast' i a hpos hparent ha)

/--
The heap holds the entries of `numbered`, which lists the pushes not yet taken
out in push order, and the view shows the settled heap.
-/
structure PqInv (q : PriorityQueue P V) (numbered : List (Entry P V)) :
    Prop where
  heap : Ordered Entry.key q.entries
  held : q.entries.Perm numbered
  ascending : numbered.Pairwise fun a b => a.sequence < b.sequence
  fresh : ∀ e ∈ numbered, e.sequence < q.nextSequence
  published : q.view = ⟨q.entries.length, q.entries.head?⟩

theorem PqInv.empty : PqInv (.empty : PriorityQueue P V) [] where
  heap := by
    intro i a b _ ha
    cases ha
  held := .refl _
  ascending := .nil
  fresh := by
    intro e he
    cases he
  published := rfl

omit [LinearOrder P] in
/-- The view of a settled heap. -/
theorem snapshot_spec (entries : List (Entry P V)) :
    snapshot entries = .ok ⟨entries.length, entries.head?⟩ := by
  cases entries with
  | nil => rfl
  | cons e entries =>
    have hpos : ((e :: entries).length : ℤ) > 0 := by
      rw [List.length_cons]
      omega
    have hget (site : Site) : listGet (e :: entries) 0 site = .ok e := rfl
    simp only [snapshot, hpos, if_true, hget, ok_bind]
    rfl

variable {numbered : List (Entry P V)} {q : PriorityQueue P V} {n : ℕ}

/-- The root is the earliest push of the least priority. -/
theorem PqInv.root_eq (h : PqInv q numbered) :
    q.entries.head? = (takeLeast Entry.priority numbered).map Prod.fst := by
  cases htake : takeLeast Entry.priority numbered with
  | none =>
    have hnil := (takeLeast_eq_none_iff _ _).mp htake
    have hheld := h.held
    rw [hnil, List.perm_nil] at hheld
    simp [hheld]
  | some found =>
    obtain ⟨least, rest⟩ := found
    obtain ⟨early, late, hnum, -, hearly, hlate⟩ := takeLeast_split htake
    have hasc := h.ascending
    rw [hnum, List.pairwise_append, List.pairwise_cons] at hasc
    have hleast : least ∈ numbered := by simp [hnum]
    have hkey : ∀ e ∈ numbered, least.key ≤ e.key := by
      intro e he
      unfold Entry.key
      rw [Prod.Lex.toLex_le_toLex]
      rw [hnum] at he
      rcases List.mem_append.mp he with he | he
      · exact .inl (hearly e he)
      · rcases List.mem_cons.mp he with rfl | he
        · exact .inr ⟨rfl, le_rfl⟩
        · rcases (hlate e he).lt_or_eq with hlt | heq
          · exact .inl hlt
          · exact .inr ⟨heq, (hasc.2.1.1 e he).le⟩
    have hne : q.entries ≠ [] := by
      intro hnil
      have hheld := h.held
      rw [hnil, List.nil_perm] at hheld
      simp [hheld] at hleast
    obtain ⟨root, tail, hentries⟩ := List.exists_cons_of_ne_nil hne
    have hroot : q.entries[0]? = some root := by simp [hentries]
    have hmem : root ∈ numbered :=
      h.held.mem_iff.mp (by simp [hentries])
    obtain ⟨i, hi⟩ := List.getElem?_of_mem (h.held.mem_iff.mpr hleast)
    have heq : root.key = least.key :=
      le_antisymm (h.heap.root_le hroot i least hi) (hkey root hmem)
    have hseq : root.sequence = least.sequence := by
      have hpair := congrArg ofLex heq
      exact congrArg Prod.snd hpair
    have hnodup : (numbered.map Entry.sequence).Nodup := by
      rw [List.Nodup, List.pairwise_map]
      exact h.ascending.imp fun hlt => hlt.ne
    have hsame : root = least :=
      List.inj_on_of_nodup_map hnodup hmem hleast hseq
    simp [hentries, hsame]

/-- The push counter below its largest value. -/
theorem intAdd_one (h : n + 1 < 2 ^ 63) :
    intAdd n 1 = (n + 1 : ℕ) := by
  rw [intAdd, ← Nat.cast_succ]
  apply Int.bmod_eq_of_le <;> push_cast <;> omega

/-- A push appends the numbered entry to the queue. -/
theorem PriorityQueue.push_spec (h : PqInv q numbered)
    (hn : q.nextSequence = n) (hbound : n + 1 < 2 ^ 63) (priority : P) (value : V) :
    ∃ q', q.push priority value = .ok q' ∧
      PqInv q' (numbered ++ [⟨priority, value, n⟩]) ∧
      q'.nextSequence = (n + 1 : ℕ) := by
  obtain ⟨entry, hentry⟩ : ∃ entry : Entry P V,
      entry = ⟨priority, value, n⟩ := ⟨_, rfl⟩
  have hlast : (q.entries ++ [entry]).length - 1 = q.entries.length := by
    simp
  have hsame : (q.entries ++ [entry]).set q.entries.length entry =
      q.entries ++ [entry] := by
    simp
  obtain ⟨entries, hole, hsift, hlt, -, hstay, hord, hperm⟩ :=
    siftUp_spec entry q.entries.length (q.entries ++ [entry]) (by simp)
      (by rw [hsame]; exact h.heap.append entry)
  rw [hsame] at hperm
  refine ⟨⟨entries.set hole entry,
    ⟨(entries.set hole entry).length, (entries.set hole entry).head?⟩,
    (n + 1 : ℕ)⟩, ?_, ⟨hord, ?_, ?_, ?_, rfl⟩, rfl⟩
  · by_cases hmoved : hole = q.entries.length
    · have hkept : entries.set hole entry = entries := by
        rw [hmoved, hstay hmoved, hsame]
      simp only [PriorityQueue.push, hn, intAdd_one hbound, ← hentry, hlast,
        hsift, ok_bind, hmoved, ne_eq, not_true, if_false]
      rw [← hmoved, hkept]
      change (snapshot entries >>= fun _ => _) = _
      rw [snapshot_spec, ok_bind]
      rfl
    · simp only [PriorityQueue.push, hn, intAdd_one hbound, ← hentry, hlast,
        hsift, ok_bind, ne_eq, hmoved, not_false_iff, if_true,
        listSet_ok entry _ rfl hlt, snapshot_spec]
      rfl
  · rw [← hentry]
    exact hperm.trans (h.held.append_right _)
  · rw [List.pairwise_append]
    refine ⟨h.ascending, List.pairwise_singleton _ _, ?_⟩
    intro a ha b hb
    rw [List.mem_singleton.mp hb, ← hn]
    exact h.fresh a ha
  · intro e he
    dsimp only
    rcases List.mem_append.mp he with he | he
    · have hlow := h.fresh e he
      omega
    · rw [List.mem_singleton.mp he]
      push_cast
      omega

/-- An empty queue answers nothing. -/
theorem PriorityQueue.pop_none
    (h : PqInv q []) : q.pop = .ok (none, q) := by
  have hnil : q.entries.length = 0 := h.held.length_eq
  simp only [PriorityQueue.pop, hnil, if_true]

/-- The heap without its root. -/
theorem PriorityQueue.pop_entries {root : Entry P V} (hheap : Ordered Entry.key q.entries)
    (hroot : q.entries.head? = some root) :
    ∃ entries, q.pop = .ok (some root.value, { q with
        entries := entries
        view := ⟨entries.length, entries.head?⟩ }) ∧
      Ordered Entry.key entries ∧ (root :: entries).Perm q.entries := by
  obtain ⟨tail, hentries⟩ := List.head?_eq_some_iff.mp hroot
  have hne : q.entries ≠ [] := by simp [hentries]
  obtain ⟨init, last, hsplit⟩ :=
    (List.eq_nil_or_concat' q.entries).resolve_left hne
  have hlen : ¬q.entries.length = 0 := by simp [hentries]
  have htop : listGet q.entries 0 ⟨128, 34⟩ = .ok root := by
    rw [hentries]
    rfl
  have hgetLast : q.entries.getLast? = some last := by simp [hsplit]
  have hinit : q.entries.dropLast = init := by simp [hsplit]
  cases init with
  | nil =>
    refine ⟨[], ?_, ?_, ?_⟩
    · simp only [PriorityQueue.pop, hlen, if_false, htop, ok_bind, hgetLast,
        hinit, List.length_nil, gt_iff_lt, lt_irrefl]
      rfl
    · intro i a b _ ha
      cases ha
    · rw [hsplit] at hentries ⊢
      simp only [List.nil_append, List.cons.injEq] at hentries
      rw [hentries.1]
      rfl
  | cons first init =>
    have hfirst : first = root := by
      rw [hsplit, List.cons_append] at hentries
      exact (List.cons.inj hentries).1
    subst hfirst
    rw [hsplit] at hheap
    obtain ⟨entries, hole, hsift, hlt, hord, hperm⟩ :=
      siftDown_spec last _ (first :: init) 0 rfl (by simp)
        hheap.replaceRoot
    have hpos : (first :: init).length > 0 := by simp
    refine ⟨entries.set hole last, ?_, hord, ?_⟩
    · simp only [PriorityQueue.pop, hlen, if_false, htop, ok_bind, hgetLast,
        hinit, hpos, if_true, hsift, listSet_ok last _ rfl hlt,
        snapshot_spec]
      rfl
    · rw [hsplit]
      refine (hperm.cons first).trans ?_
      rw [List.set_cons_zero, List.cons_append]
      exact (List.perm_append_singleton last init).symm.cons first

theorem PriorityQueue.pop_some {rest : List (Entry P V)} {least : Entry P V}
    (h : PqInv q numbered) (htake : takeLeast Entry.priority numbered = some (least, rest)) :
    ∃ q', q.pop = .ok (some least.value, q') ∧ PqInv q' rest ∧
      q'.nextSequence = q.nextSequence := by
  have hroot : q.entries.head? = some least := by
    rw [h.root_eq, htake]
    rfl
  obtain ⟨early, late, hnum, hrest, -, -⟩ := takeLeast_split htake
  have hsub : rest.Sublist numbered := by
    rw [hnum, hrest]
    exact (List.Sublist.refl early).append (List.sublist_cons_self least late)
  obtain ⟨entries, hpop, hord, hperm⟩ :=
    PriorityQueue.pop_entries h.heap hroot
  refine ⟨_, hpop, ⟨hord, ?_, h.ascending.sublist hsub,
    fun e he => h.fresh e (hsub.subset he), rfl⟩, rfl⟩
  have hall : (least :: entries).Perm (least :: rest) := by
    refine (hperm.trans h.held).trans ?_
    rw [hnum, hrest]
    exact List.perm_middle
  exact hall.cons_inv

theorem PriorityQueue.clear_spec :
    PqInv q.clear [] := by
  refine ⟨?_, .refl _, .nil, ?_, rfl⟩
  · intro i a b _ ha
    cases ha
  · intro e he
    cases he

/-- The entries without the numbers of their pushes. -/
def unnumbered (numbered : List (Entry P V)) : List (P × V) :=
  numbered.map fun e => (e.priority, e.value)

/-- The same operation on a stable priority queue, with its answer. -/
def stableStep (pending : List (P × V)) :
    PqOp P V → List (P × V) × Option (Option V)
  | .push priority value => (pending ++ [(priority, value)], none)
  | .pop =>
    match takeLeast Prod.fst pending with
    | none => (pending, some none)
    | some (least, rest) => (rest, some (some least.2))
  | .clear => ([], none)

/-- A sequence of operations on a stable priority queue. -/
def stableRun (pending : List (P × V)) :
    List (PqOp P V) → List (P × V) × List (Option (Option V))
  | [] => (pending, [])
  | op :: ops =>
    let (pending, answer) := stableStep pending op
    let (pending, answers) := stableRun pending ops
    (pending, answer :: answers)

/-- How often a program pushes. -/
def pushes : List (PqOp P V) → ℕ
  | [] => 0
  | .push _ _ :: ops => pushes ops + 1
  | .pop :: ops => pushes ops
  | .clear :: ops => pushes ops

theorem takeLeast_unnumbered (numbered : List (Entry P V)) :
    takeLeast Prod.fst (unnumbered numbered) =
      (takeLeast Entry.priority numbered).map fun found =>
        ((found.1.priority, found.1.value), unnumbered found.2) :=
  takeLeast_map _ _ _

/-- One pop, whatever the queue holds. -/
theorem PriorityQueue.pop_spec (h : PqInv q numbered) :
    ∃ q' numbered', q.pop =
        .ok ((takeLeast Prod.fst (unnumbered numbered)).map (·.1.2), q') ∧
      PqInv q' numbered' ∧ q'.nextSequence = q.nextSequence ∧
      (stableStep (unnumbered numbered) .pop).1 = unnumbered numbered' := by
  rw [stableStep, takeLeast_unnumbered]
  cases htake : takeLeast Entry.priority numbered with
  | none =>
    have hnil := (takeLeast_eq_none_iff _ _).mp htake
    subst hnil
    exact ⟨q, [], PriorityQueue.pop_none h, h, rfl, rfl⟩
  | some found =>
    obtain ⟨least, rest⟩ := found
    obtain ⟨q', hpop, hinv, hnext⟩ := PriorityQueue.pop_some h htake
    exact ⟨q', rest, hpop, hinv, hnext, rfl⟩

/-- One operation, whatever it is. -/
theorem pqStep_spec (h : PqInv q numbered) (hn : q.nextSequence = n)
    (op : PqOp P V) (hbound : n + pushes [op] < 2 ^ 63) :
    ∃ q' numbered',
      pqStep q op = .ok (q', (stableStep (unnumbered numbered) op).2) ∧
      PqInv q' numbered' ∧ q'.nextSequence = (n + pushes [op] : ℕ) ∧
      (stableStep (unnumbered numbered) op).1 = unnumbered numbered' := by
  cases op with
  | push priority value =>
    obtain ⟨q', hpush, hinv, hnext⟩ :=
      PriorityQueue.push_spec h hn hbound priority value
    refine ⟨q', _, ?_, hinv, hnext, by simp [stableStep, unnumbered]⟩
    simp only [pqStep, hpush, ok_bind]
    rfl
  | pop =>
    obtain ⟨q', numbered', hpop, hinv, hnext, hpending⟩ :=
      PriorityQueue.pop_spec h
    refine ⟨q', numbered', ?_, hinv, by rw [hnext, hn]; rfl, hpending⟩
    simp only [pqStep, hpop, ok_bind, stableStep]
    cases takeLeast Prod.fst (unnumbered numbered) with
    | none => rfl
    | some found => rfl
  | clear =>
    exact ⟨q.clear, [], rfl, PriorityQueue.clear_spec, hn, rfl⟩

/-- A whole program, from a settled queue. -/
theorem pqRun_spec (ops : List (PqOp P V))
    (h : PqInv q numbered)
    (hn : q.nextSequence = n) (hbound : n + pushes ops < 2 ^ 63) :
    ∃ q' numbered',
      pqRun q ops = .ok (q', (stableRun (unnumbered numbered) ops).2) ∧
      PqInv q' numbered' ∧
      (stableRun (unnumbered numbered) ops).1 = unnumbered numbered' := by
  induction ops generalizing q numbered n with
  | nil => exact ⟨q, numbered, rfl, h, rfl⟩
  | cons op ops ih =>
    have hsplit : pushes (op :: ops) = pushes [op] + pushes ops := by
      cases op <;> simp [pushes, add_comm]
    rw [hsplit] at hbound
    obtain ⟨q₁, numbered₁, hstep, h₁, hn₁, hpending⟩ :=
      pqStep_spec h hn op (by omega)
    obtain ⟨q₂, numbered₂, hrun, h₂, hpending₂⟩ := ih h₁ hn₁ (by omega)
    rw [← hpending] at hrun hpending₂
    refine ⟨q₂, numbered₂, ?_, h₂, hpending₂⟩
    simp only [pqRun, hstep, ok_bind, hrun]
    rfl

theorem PqInv.top_eq (h : PqInv q numbered) :
    q.view.top = (takeLeast Entry.priority numbered).map Prod.fst := by
  rw [h.published, h.root_eq]

theorem PriorityQueue.peek_spec (h : PqInv q numbered) :
    q.peek = (takeLeast Prod.fst (unnumbered numbered)).map (·.1.2) := by
  rw [PriorityQueue.peek, h.top_eq, takeLeast_unnumbered]
  cases takeLeast Entry.priority numbered with
  | none => rfl
  | some found => rfl

theorem PriorityQueue.peekPriority_spec (h : PqInv q numbered) :
    q.peekPriority =
      (takeLeast Prod.fst (unnumbered numbered)).map (·.1.1) := by
  rw [PriorityQueue.peekPriority, h.top_eq, takeLeast_unnumbered]
  cases takeLeast Entry.priority numbered with
  | none => rfl
  | some found => rfl

theorem PriorityQueue.len_spec (h : PqInv q numbered) :
    q.len = q.entries.length ∧ q.len = (unnumbered numbered).length := by
  have hlen := h.held.length_eq
  rw [PriorityQueue.len, h.published, unnumbered, List.length_map, ← hlen]
  exact ⟨rfl, rfl⟩

theorem PriorityQueue.isEmpty_spec (h : PqInv q numbered) :
    q.isEmpty = (unnumbered numbered).isEmpty := by
  have hlen := (PriorityQueue.len_spec h).2
  rw [PriorityQueue.len] at hlen
  rw [PriorityQueue.isEmpty, hlen]
  cases unnumbered numbered with
  | nil => rfl
  | cons e pending =>
    rw [List.isEmpty_cons, decide_eq_false_iff_not, List.length_cons]
    omega

/-- Draining answers the entries by priority, ties in push order. -/
theorem pqDrain_spec (n : ℕ)
    (h : PqInv q numbered)
    (hn : numbered.length = n) :
    ∃ q', pqDrain n q = .ok (drained Prod.fst (unnumbered numbered), q') ∧
      PqInv q' [] := by
  induction n generalizing q numbered with
  | zero =>
    have hnil := List.length_eq_zero_iff.mp hn
    subst hnil
    exact ⟨q, rfl, h⟩
  | succ n ih =>
    cases htake : takeLeast Entry.priority numbered with
    | none =>
      have hnil := (takeLeast_eq_none_iff _ _).mp htake
      simp [hnil] at hn
    | some found =>
      obtain ⟨least, rest⟩ := found
      obtain ⟨early, late, hnum, hrest, -, -⟩ := takeLeast_split htake
      have hlen : rest.length = n := by
        rw [hnum] at hn
        rw [hrest]
        simp only [List.length_append, List.length_cons] at hn ⊢
        omega
      obtain ⟨q₁, hpop, h₁, -⟩ := PriorityQueue.pop_some h htake
      obtain ⟨q₂, hdrain, h₂⟩ := ih h₁ hlen
      have htake' := takeLeast_unnumbered numbered
      rw [htake, Option.map_some] at htake'
      have hpriority : q.peekPriority = some least.priority := by
        rw [PriorityQueue.peekPriority_spec h, htake']
        rfl
      refine ⟨q₂, ?_, h₂⟩
      rw [drained_takeLeast htake']
      simp only [pqDrain, hpriority, hpop, ok_bind, hdrain]
      rfl

/--
After every program with fewer than `2 ^ 63` pushes on the empty queue: the
pops answer like those of the stable queue of the same program, the list is a
heap, the published reads agree with it and with the next pop, and draining
lists the priorities in order and equal priorities in push order.
-/
theorem priorityQueue_stable (ops : List (PqOp P V))
    (hpushes : pushes ops < 2 ^ 63) :
    ∃ q, pqRun .empty ops = .ok (q, (stableRun [] ops).2) ∧
      (∀ i e parent, 0 < i → q.entries[i]? = some e →
        q.entries[(i - 1) / 2]? = some parent → ¬ sortsBefore e parent) ∧
      q.len = q.entries.length ∧
      q.len = (stableRun [] ops).1.length ∧
      q.isEmpty = (stableRun [] ops).1.isEmpty ∧
      q.peek = (takeLeast Prod.fst (stableRun [] ops).1).map (·.1.2) ∧
      q.peekPriority =
        (takeLeast Prod.fst (stableRun [] ops).1).map (·.1.1) ∧
      (∃ q', q.pop = .ok (q.peek, q')) ∧
      ∃ q', pqDrain (stableRun [] ops).1.length q =
          .ok (drained Prod.fst (stableRun [] ops).1, q') ∧
        q'.isEmpty = true ∧
        (drained Prod.fst (stableRun [] ops).1).Pairwise
          (fun a b => a.1 ≤ b.1) ∧
        ∀ p, (drained Prod.fst (stableRun [] ops).1).filter
            (fun e => e.1 = p) =
          (stableRun [] ops).1.filter fun e => e.1 = p := by
  obtain ⟨q, numbered, hrun, hinv, hpending⟩ :=
    pqRun_spec ops PqInv.empty (n := 0) rfl (by omega)
  have hempty : unnumbered ([] : List (Entry P V)) = [] := rfl
  rw [hempty] at hrun hpending
  obtain ⟨q', hdrain, hdrained⟩ := pqDrain_spec _ hinv rfl
  obtain ⟨q'', -, hpop, -, -, -⟩ := PriorityQueue.pop_spec hinv
  have hlen : (unnumbered numbered).length = numbered.length :=
    List.length_map _
  rw [hpending]
  refine ⟨q, hrun, ?_, (PriorityQueue.len_spec hinv).1,
    (PriorityQueue.len_spec hinv).2, PriorityQueue.isEmpty_spec hinv,
    PriorityQueue.peek_spec hinv, PriorityQueue.peekPriority_spec hinv,
    ⟨q'', ?_⟩, q', ?_, PriorityQueue.isEmpty_spec hdrained,
    drained_ascending _ _, fun p => drained_filter _ p _⟩
  · intro i e parent hi he hparent
    exact (not_sortsBefore_iff e parent).mpr (hinv.heap i e parent hi he hparent)
  · rw [PriorityQueue.peek_spec hinv]
    exact hpop
  · rw [hlen]
    exact hdrain

/-- The hypothesis holds of a program that pushes a tie. -/
theorem priorityQueue_stable_tie :
    pushes [PqOp.push 1 "second", .push 0 "first", .push 1 "third"] < 2 ^ 63 ∧
      ∃ q : PriorityQueue ℕ String,
        pqRun .empty [.push 1 "second", .push 0 "first", .push 1 "third"] =
          .ok (q, [none, none, none]) := by
  obtain ⟨q, hrun, -⟩ := priorityQueue_stable
    [PqOp.push 1 "second", .push 0 "first", .push 1 "third"] (by decide)
  exact ⟨by decide, q, hrun⟩

end Collections
end Beans
