import Beans.Map.Refinement

/-!
# Set algebra

`std.collections.Set` keeps its members as the keys of a map.  Sets are
objects: the operations read the maps of two of them, which may be the same
one, and write that of a new one.  The map is any finite map; the association
list of the map's model is one.

**Results.**
* `set_algebra`: union, intersection, difference and symmetric difference build a new set
  with the members that the connective selects, and change no other set; the four tests
  decide the relations.
-/

namespace Beans
namespace Collections

open AssocList

/-- The operations of `Map<T, bool>` that a set uses; `entries` is what a loop
over the map visits. -/
structure MapOps (T M : Type*) where
  empty : M
  insert : T → Bool → M → M
  containsKey : T → M → Bool
  len : M → ℕ
  clone : M → M
  entries : M → List (T × Bool)

/-- The operations are those of a finite map whose keys `eq` compares. -/
structure MapOps.Lawful {T M : Type*} (ops : MapOps T M)
    (eq : T → T → Bool) : Prop where
  equivalence : KeyEquivalence eq
  distinct : ∀ m, Distinct eq (ops.entries m)
  empty : ops.entries ops.empty = []
  insert : ∀ k v m q, (get eq (ops.entries (ops.insert k v m)) q).isSome =
    (eq k q || (get eq (ops.entries m) q).isSome)
  containsKey : ∀ k m,
    ops.containsKey k m = (get eq (ops.entries m) k).isSome
  len : ∀ m, ops.len m = (ops.entries m).length
  clone : ∀ m k, get eq (ops.entries (ops.clone m)) k =
    get eq (ops.entries m) k

/-- The `Set` objects: the `members` of each, and the next one to build. -/
structure SetHeap (M : Type*) where
  members : ℕ → M
  next : ℕ

variable {T M : Type*}

namespace SetHeap

def setMembers (h : SetHeap M) (r : ℕ) (m : M) : SetHeap M :=
  { h with members := Function.update h.members r m }

/-- `new Set<T>()`. -/
def newSet (ops : MapOps T M) (h : SetHeap M) : SetHeap M × ℕ :=
  ({ members := Function.update h.members h.next ops.empty
     next := h.next + 1 }, h.next)

/-- `members.insert(value, true)` on one set. -/
def insertInto (ops : MapOps T M) (r : ℕ) (h : SetHeap M) (value : T) :
    SetHeap M :=
  h.setMembers r (ops.insert value true (h.members r))

end SetHeap

variable (ops : MapOps T M) (h : SetHeap M) (self other : ℕ)

namespace HashedSet

def contains (value : T) : Bool := ops.containsKey value (h.members self)

def len : ℕ := ops.len (h.members self)

/-- `for value, present in set.members { if … { result.insert } }`. -/
def copyWhere (keep : SetHeap M → T → Bool) (walked result : ℕ)
    (h : SetHeap M) : SetHeap M :=
  (ops.entries (h.members walked)).foldl
    (fun h e => if keep h e.1 then h.insertInto ops result e.1 else h) h

/-- The larger set is copied, and the smaller one inserted. -/
def unionWith : SetHeap M × ℕ :=
  let smaller := if len ops h self ≥ len ops h other then other else self
  let larger := if len ops h self ≥ len ops h other then self else other
  let fresh := h.newSet ops
  let result := fresh.2
  let cloned := fresh.1.setMembers result
    (ops.clone (fresh.1.members larger))
  (copyWhere ops (fun _ _ => true) smaller result cloned, result)

/-- The smaller set is walked over. -/
def intersection : SetHeap M × ℕ :=
  let fresh := h.newSet ops
  let result := fresh.2
  let smaller := if len ops h self ≤ len ops h other then self else other
  let larger := if len ops h self ≤ len ops h other then other else self
  (copyWhere ops (fun h v => contains ops h larger v) smaller result fresh.1,
    result)

def difference : SetHeap M × ℕ :=
  let fresh := h.newSet ops
  let result := fresh.2
  (copyWhere ops (fun h v => !contains ops h other v) self result fresh.1,
    result)

/-- Each side without the other. -/
def symmetricDifference : SetHeap M × ℕ :=
  let fresh := h.newSet ops
  let result := fresh.2
  let left := copyWhere ops (fun h v => !contains ops h other v) self result
    fresh.1
  (copyWhere ops (fun h v => !contains ops h self v) other result left,
    result)

/-- A larger set is no subset, and no walk is needed to see it. -/
def isSubsetOf : Bool :=
  if len ops h self > len ops h other then false
  else (ops.entries (h.members self)).all fun e => contains ops h other e.1

def isSupersetOf : Bool := isSubsetOf ops h other self

def isDisjointFrom : Bool :=
  let smaller := if len ops h self ≤ len ops h other then self else other
  let larger := if len ops h self ≤ len ops h other then other else self
  (ops.entries (h.members smaller)).all fun e => !contains ops h larger e.1

def equals : Bool :=
  if len ops h self ≠ len ops h other then false
  else (ops.entries (h.members self)).all fun e => contains ops h other e.1

variable (eq : T → T → Bool)

/-- `q` is a member of the set at `r`. -/
def Member (r : ℕ) (q : T) : Prop :=
  (get eq (ops.entries (h.members r)) q).isSome = true

/-- A new set was built whose members are those `combine` selects, and every
set that was there before has the map it had. -/
structure Builds (combine : Prop → Prop → Prop)
    (built : SetHeap M × ℕ) : Prop where
  fresh : built.2 = h.next
  next : built.1.next = h.next + 1
  unchanged : ∀ r < h.next, built.1.members r = h.members r
  members : ∀ q, Member ops built.1 eq built.2 q ↔
    combine (Member ops h eq self q) (Member ops h eq other q)

variable {ops eq} {h self other}

theorem contains_iff (hl : ops.Lawful eq) (r : ℕ) (q : T) :
    contains ops h r q = true ↔ Member ops h eq r q := by
  rw [contains, hl.containsKey, Member]

theorem not_contains_iff (hl : ops.Lawful eq) (r : ℕ) (q : T) :
    (!contains ops h r q) = true ↔ ¬ Member ops h eq r q := by
  rw [Bool.not_eq_true', ← contains_iff hl, Bool.not_eq_true]

theorem member_iff_entry (r : ℕ) (q : T) :
    Member ops h eq r q ↔
      ∃ e ∈ ops.entries (h.members r), eq e.1 q = true :=
  isSome_get_iff _ q

variable {probe r s u walked : ℕ} {keep : SetHeap M → T → Bool}

theorem member_congr {h' : SetHeap M}
    (hr : h'.members r = h.members r) (q : T) :
    Member ops h' eq r q ↔ Member ops h eq r q := by
  rw [Member, Member, hr]

/-- Equal values are members of the same sets. -/
theorem member_of_eq (hl : ops.Lawful eq) {p q : T}
    (hpq : eq p q = true) : Member ops h eq r p ↔ Member ops h eq r q := by
  rw [Member, Member, get_congr hl.equivalence _ hpq]

@[simp] theorem setMembers_self (r : ℕ) (m : M) :
    (h.setMembers r m).members r = m := by
  simp [SetHeap.setMembers]

theorem setMembers_other (m : M) (hu : u ≠ r) :
    (h.setMembers r m).members u = h.members u := by
  simp [SetHeap.setMembers, hu]

theorem insertInto_other (value : T) (hu : u ≠ r) :
    (h.insertInto ops r value).members u = h.members u :=
  setMembers_other _ hu

theorem member_insertInto (hl : ops.Lawful eq) (r : ℕ) (value q : T) :
    Member ops (h.insertInto ops r value) eq r q ↔
      eq value q = true ∨ Member ops h eq r q := by
  unfold Member SetHeap.insertInto
  rw [setMembers_self, hl.insert, Bool.or_eq_true]

theorem newSet_other (hu : u ≠ h.next) :
    (h.newSet ops).1.members u = h.members u := by
  simp [SetHeap.newSet, hu]

theorem not_member_newSet (hl : ops.Lawful eq) (q : T) :
    ¬ Member ops (h.newSet ops).1 eq h.next q := by
  have hempty : (h.newSet ops).1.members h.next = ops.empty := by
    simp [SetHeap.newSet]
  unfold Member
  rw [hempty, hl.empty, get_nil]
  exact Bool.false_ne_true

/-- Inserting into `result` while walking `entries`: the other sets stay, and
the members that come in are the keys that `keep` lets through. -/
theorem insertWhere_spec (hl : ops.Lawful eq)
    {P : T → Prop} (entries : List (T × Bool)) (result : ℕ) (h : SetHeap M)
    (hkeep : ∀ h' : SetHeap M, (∀ u ≠ result, h'.members u = h.members u) →
      ∀ v, keep h' v = true ↔ P v) :
    ∃ h', entries.foldl (fun h e =>
        if keep h e.1 then h.insertInto ops result e.1 else h) h = h' ∧
      h'.next = h.next ∧
      (∀ u ≠ result, h'.members u = h.members u) ∧
      ∀ q, Member ops h' eq result q ↔
        (∃ e ∈ entries, eq e.1 q = true ∧ P e.1) ∨
          Member ops h eq result q := by
  induction entries generalizing h with
  | nil => exact ⟨h, rfl, rfl, fun _ _ => rfl, fun q => by simp⟩
  | cons e entries ih =>
    have hstep : ∃ h₁,
        (if keep h e.1 then h.insertInto ops result e.1 else h) = h₁ ∧
        h₁.next = h.next ∧
        (∀ u ≠ result, h₁.members u = h.members u) ∧
        ∀ q, Member ops h₁ eq result q ↔
          (eq e.1 q = true ∧ P e.1) ∨ Member ops h eq result q := by
      have hP := hkeep h (fun _ _ => rfl) e.1
      by_cases hk : keep h e.1 = true
      · refine ⟨_, if_pos hk, rfl, fun u hu => insertInto_other _ hu, ?_⟩
        intro q
        rw [member_insertInto hl]
        simp [hP.mp hk]
      · refine ⟨_, if_neg hk, rfl, fun _ _ => rfl, fun q => ?_⟩
        simp [mt hP.mpr hk]
    obtain ⟨h₁, hdo, hnext, hothers, hmem⟩ := hstep
    have hkeep₁ : ∀ h' : SetHeap M,
        (∀ u ≠ result, h'.members u = h₁.members u) →
        ∀ v, keep h' v = true ↔ P v := by
      intro h' hh'
      exact hkeep h' fun u hu => (hh' u hu).trans (hothers u hu)
    obtain ⟨h', hrun, hnext', hothers', hmem'⟩ := ih h₁ hkeep₁
    refine ⟨h', ?_, hnext'.trans hnext, ?_, ?_⟩
    · rw [List.foldl_cons, hdo]
      exact hrun
    · exact fun u hu => (hothers' u hu).trans (hothers u hu)
    · intro q
      rw [hmem', hmem, ← or_assoc]
      simp only [List.exists_mem_cons_iff]
      exact or_congr or_comm Iff.rfl

theorem copyWhere_spec (hl : ops.Lawful eq)
    {P : T → Prop} (hP : ∀ p q, eq p q = true → (P p ↔ P q))
    (walked result : ℕ) (h : SetHeap M)
    (hkeep : ∀ h' : SetHeap M, (∀ u ≠ result, h'.members u = h.members u) →
      ∀ v, keep h' v = true ↔ P v) :
    (copyWhere ops keep walked result h).next = h.next ∧
      (∀ u ≠ result, (copyWhere ops keep walked result h).members u =
        h.members u) ∧
      ∀ q, Member ops (copyWhere ops keep walked result h) eq result q ↔
        (Member ops h eq walked q ∧ P q) ∨ Member ops h eq result q := by
  obtain ⟨h', hrun, hnext, hothers, hmem⟩ :=
    insertWhere_spec hl (ops.entries (h.members walked)) result h hkeep
  have hcopy : copyWhere ops keep walked result h = h' := hrun
  rw [hcopy]
  refine ⟨hnext, hothers, fun q => ?_⟩
  rw [hmem, member_iff_entry (r := walked)]
  refine or_congr ⟨?_, ?_⟩ Iff.rfl
  · rintro ⟨e, hmem, heq, hp⟩
    exact ⟨⟨e, hmem, heq⟩, (hP e.1 q heq).mp hp⟩
  · rintro ⟨⟨e, hmem, heq⟩, hp⟩
    exact ⟨e, hmem, heq, (hP e.1 q heq).mpr hp⟩

theorem smaller_eq (r s : ℕ) (c : Prop) [Decidable c] :
    ((if c then r else s) = r ∧ (if c then s else r) = s) ∨
      ((if c then r else s) = s ∧ (if c then s else r) = r) := by
  by_cases hc : c
  · exact Or.inl ⟨if_pos hc, if_pos hc⟩
  · exact Or.inr ⟨if_neg hc, if_neg hc⟩

/-- The set just built at `h.next` took in the members at `walked` that
satisfy `P`, and the sets of `h` are as they were. -/
structure Copied (ops : MapOps T M) (eq : T → T → Bool) (h : SetHeap M)
    (P : T → Prop) (walked : ℕ) (fresh copied : SetHeap M) : Prop where
  next : copied.next = h.next + 1
  unchanged : ∀ u < h.next, copied.members u = h.members u
  members : ∀ q, Member ops copied eq h.next q ↔
    (Member ops h eq walked q ∧ P q) ∨ Member ops fresh eq h.next q

/-- The copy into a set that was just built. -/
theorem copyWhere_fresh (hl : ops.Lawful eq)
    (keep : SetHeap M → T → Bool) (P : T → Prop)
    (hP : ∀ p q, eq p q = true → (P p ↔ P q))
    (hwalked : walked < h.next) (fresh : SetHeap M)
    (hnext : fresh.next = h.next + 1)
    (hothers : ∀ u < h.next, fresh.members u = h.members u)
    (hkeep : ∀ h' : SetHeap M, (∀ u < h.next, h'.members u = h.members u) →
      ∀ v, keep h' v = true ↔ P v) :
    Copied ops eq h P walked fresh
      (copyWhere ops keep walked h.next fresh) := by
  have hkeep' : ∀ h' : SetHeap M,
      (∀ u ≠ h.next, h'.members u = fresh.members u) →
      ∀ v, keep h' v = true ↔ P v := by
    intro h' hh'
    refine hkeep h' fun u hu => ?_
    rw [hh' u (Nat.ne_of_lt hu), hothers u hu]
  obtain ⟨hn, hu, hm⟩ := copyWhere_spec hl hP walked h.next fresh hkeep'
  refine ⟨hn.trans hnext, fun u hlt => ?_, fun q => ?_⟩
  · rw [hu u (Nat.ne_of_lt hlt), hothers u hlt]
  · rw [hm, member_congr (hothers walked hwalked)]

/-- The members of both sets, inserted into a new one. -/
theorem unionWith_builds (hl : ops.Lawful eq) (hself : self < h.next)
    (hother : other < h.next) :
    Builds ops h self other eq Or (unionWith ops h self other) := by
  obtain ⟨smaller, larger, hs, hg, hboth⟩ : ∃ smaller larger,
      (if len ops h self ≥ len ops h other then other else self) = smaller ∧
      (if len ops h self ≥ len ops h other then self else other) = larger ∧
      ((smaller = other ∧ larger = self) ∨
        (smaller = self ∧ larger = other)) :=
    ⟨_, _, rfl, rfl, smaller_eq other self _⟩
  have hlts : smaller < h.next := by
    rcases hboth with ⟨rfl, rfl⟩ | ⟨rfl, rfl⟩ <;> assumption
  have hltg : larger < h.next := by
    rcases hboth with ⟨rfl, rfl⟩ | ⟨rfl, rfl⟩ <;> assumption
  have hlarger : (h.newSet ops).1.members larger = h.members larger :=
    newSet_other (Nat.ne_of_lt hltg)
  obtain ⟨cloned, hcloned⟩ : ∃ cloned, cloned =
      (h.newSet ops).1.setMembers h.next
        (ops.clone ((h.newSet ops).1.members larger)) := ⟨_, rfl⟩
  have hrun : unionWith ops h self other =
      (copyWhere ops (fun _ _ => true) smaller h.next cloned, h.next) := by
    rw [hcloned, ← hs, ← hg]
    rfl
  have hclone : ∀ q, Member ops cloned eq h.next q ↔
      Member ops h eq larger q := by
    intro q
    unfold Member
    rw [hcloned, setMembers_self, hl.clone, hlarger]
  have hcnext : cloned.next = h.next + 1 := by
    rw [hcloned]
    rfl
  have hcothers : ∀ u < h.next, cloned.members u = h.members u := by
    intro u hu
    rw [hcloned, setMembers_other _ (Nat.ne_of_lt hu),
      newSet_other (Nat.ne_of_lt hu)]
  obtain ⟨hnext, hothers, hmem⟩ :=
    copyWhere_fresh hl (fun _ _ => true) (fun _ => True)
      (fun _ _ _ => Iff.rfl) hlts cloned hcnext hcothers
      (fun _ _ _ => iff_of_true rfl trivial)
  rw [hrun]
  refine ⟨rfl, hnext, hothers, fun q => ?_⟩
  rw [hmem, and_true, hclone]
  rcases hboth with ⟨rfl, rfl⟩ | ⟨rfl, rfl⟩
  · exact or_comm
  · exact Iff.rfl

/-- The members of one set that another has. -/
theorem copyWhere_contained (hl : ops.Lawful eq)
    (hwalked : walked < h.next) (hprobe : probe < h.next) (fresh : SetHeap M)
    (hnext : fresh.next = h.next + 1)
    (hothers : ∀ u < h.next, fresh.members u = h.members u) :
    Copied ops eq h (Member ops h eq probe) walked fresh
      (copyWhere ops (fun h v => contains ops h probe v) walked h.next
        fresh) :=
  copyWhere_fresh hl (fun h v => contains ops h probe v)
    (Member ops h eq probe) (fun _ _ hpq => member_of_eq hl hpq) hwalked fresh
    hnext hothers
    (fun _ hh' v => (contains_iff hl probe v).trans
      (member_congr (hh' probe hprobe) v))

/-- The members of one set that another lacks. -/
theorem copyWhere_missing (hl : ops.Lawful eq)
    (hwalked : walked < h.next) (hprobe : probe < h.next) (fresh : SetHeap M)
    (hnext : fresh.next = h.next + 1)
    (hothers : ∀ u < h.next, fresh.members u = h.members u) :
    Copied ops eq h (fun q => ¬ Member ops h eq probe q) walked fresh
      (copyWhere ops (fun h v => !contains ops h probe v) walked h.next
        fresh) :=
  copyWhere_fresh hl (fun h v => !contains ops h probe v)
    (fun q => ¬ Member ops h eq probe q)
    (fun _ _ hpq => not_congr (member_of_eq hl hpq)) hwalked fresh
    hnext hothers
    (fun _ hh' v => (not_contains_iff hl probe v).trans
      (not_congr (member_congr (hh' probe hprobe) v)))

theorem newSet_old (u : ℕ) (hu : u < h.next) :
    (h.newSet ops).1.members u = h.members u :=
  newSet_other (Nat.ne_of_lt hu)

theorem intersection_builds (hl : ops.Lawful eq) (hself : self < h.next)
    (hother : other < h.next) :
    Builds ops h self other eq And (intersection ops h self other) := by
  obtain ⟨smaller, larger, hs, hg, hboth⟩ : ∃ smaller larger,
      (if len ops h self ≤ len ops h other then self else other) = smaller ∧
      (if len ops h self ≤ len ops h other then other else self) = larger ∧
      ((smaller = self ∧ larger = other) ∨
        (smaller = other ∧ larger = self)) :=
    ⟨_, _, rfl, rfl, smaller_eq self other _⟩
  have hlts : smaller < h.next := by
    rcases hboth with ⟨rfl, rfl⟩ | ⟨rfl, rfl⟩ <;> assumption
  have hltg : larger < h.next := by
    rcases hboth with ⟨rfl, rfl⟩ | ⟨rfl, rfl⟩ <;> assumption
  have hrun : intersection ops h self other =
      (copyWhere ops (fun h v => contains ops h larger v) smaller h.next
        (h.newSet ops).1, h.next) := by
    rw [← hs, ← hg]
    rfl
  obtain ⟨hnext, hothers, hmem⟩ :=
    copyWhere_contained hl hlts hltg (h.newSet ops).1 rfl newSet_old
  rw [hrun]
  refine ⟨rfl, hnext, hothers, fun q => ?_⟩
  rw [hmem, or_iff_left (not_member_newSet hl q)]
  rcases hboth with ⟨rfl, rfl⟩ | ⟨rfl, rfl⟩
  · exact Iff.rfl
  · exact and_comm

theorem difference_builds (hl : ops.Lawful eq) (hself : self < h.next)
    (hother : other < h.next) :
    Builds ops h self other eq (fun p q => p ∧ ¬ q)
      (difference ops h self other) := by
  obtain ⟨hnext, hothers, hmem⟩ :=
    copyWhere_missing hl hself hother (h.newSet ops).1 rfl newSet_old
  refine ⟨rfl, hnext, hothers, fun q => ?_⟩
  exact (hmem q).trans (or_iff_left (not_member_newSet hl q))

theorem symmetricDifference_builds (hl : ops.Lawful eq)
    (hself : self < h.next) (hother : other < h.next) :
    Builds ops h self other eq Xor (symmetricDifference ops h self other) := by
  obtain ⟨left, hleft⟩ : ∃ left, left =
      copyWhere ops (fun h v => !contains ops h other v) self h.next
        (h.newSet ops).1 := ⟨_, rfl⟩
  obtain ⟨hnext, hothers, hmem⟩ :=
    copyWhere_missing hl hself hother (h.newSet ops).1 rfl newSet_old
  rw [← hleft] at hnext hothers hmem
  obtain ⟨hnext', hothers', hmem'⟩ :=
    copyWhere_missing hl hother hself left hnext hothers
  have hrun : symmetricDifference ops h self other =
      (copyWhere ops (fun h v => !contains ops h self v) other h.next left,
        h.next) := by
    rw [hleft]
    rfl
  rw [hrun]
  refine ⟨rfl, hnext', hothers', fun q => ?_⟩
  have hright := hmem' q
  rw [hmem, or_iff_left (not_member_newSet hl q)] at hright
  exact hright.trans or_comm

theorem all_contains_iff (hl : ops.Lawful eq) (r s : ℕ) :
    ((ops.entries (h.members r)).all fun e => contains ops h s e.1) = true ↔
      ∀ q, Member ops h eq r q → Member ops h eq s q := by
  rw [List.all_eq_true]
  constructor
  · intro hall q hq
    obtain ⟨e, hmem, heq⟩ := (member_iff_entry r q).mp hq
    exact (member_of_eq hl heq).mp ((contains_iff hl s e.1).mp (hall e hmem))
  · intro hsub e hmem
    refine (contains_iff hl s e.1).mpr (hsub e.1 ?_)
    exact (member_iff_entry r e.1).mpr ⟨e, hmem, hl.equivalence.refl e.1⟩

/-- A subset has at most as many members. -/
theorem len_le_of_subset (hl : ops.Lawful eq)
    (hsub : ∀ q, Member ops h eq r q → Member ops h eq s q) :
    len ops h r ≤ len ops h s := by
  unfold len
  rw [hl.len, hl.len]
  refine (hl.distinct _).length_le hl.equivalence fun e hmem => ?_
  refine hsub e.1 ?_
  exact (member_iff_entry r e.1).mpr ⟨e, hmem, hl.equivalence.refl e.1⟩

/-- A subset with as many members is the whole set. -/
theorem superset_of_len_eq (hl : ops.Lawful eq)
    (hlen : len ops h r = len ops h s)
    (hsub : ∀ q, Member ops h eq r q → Member ops h eq s q) (q : T)
    (hq : Member ops h eq s q) : Member ops h eq r q := by
  by_contra hnot
  have hnone : get eq (ops.entries (h.members r)) q = none := by
    rwa [Member, Bool.not_eq_true, Option.isSome_eq_false_iff,
      Option.isNone_iff_eq_none] at hnot
  have hlt := (hl.distinct (h.members r)).length_lt hl.equivalence
    (fun e hmem => hsub e.1
      ((member_iff_entry r e.1).mpr ⟨e, hmem, hl.equivalence.refl e.1⟩))
    hq hnone
  unfold len at hlen
  rw [hl.len, hl.len] at hlen
  exact Nat.ne_of_lt hlt hlen

theorem isSubsetOf_iff (hl : ops.Lawful eq) :
    isSubsetOf ops h self other = true ↔
      ∀ q, Member ops h eq self q → Member ops h eq other q := by
  unfold isSubsetOf
  by_cases hlen : len ops h self > len ops h other
  · rw [if_pos hlen]
    refine iff_of_false Bool.false_ne_true fun hsub => ?_
    exact Nat.not_lt_of_le (len_le_of_subset hl hsub) hlen
  · rw [if_neg hlen]
    exact all_contains_iff hl self other

theorem equals_iff (hl : ops.Lawful eq) :
    equals ops h self other = true ↔
      ∀ q, Member ops h eq self q ↔ Member ops h eq other q := by
  unfold equals
  by_cases hlen : len ops h self ≠ len ops h other
  · rw [if_pos hlen]
    refine iff_of_false Bool.false_ne_true fun hsame => hlen ?_
    exact Nat.le_antisymm (len_le_of_subset hl fun q => (hsame q).mp)
      (len_le_of_subset hl fun q => (hsame q).mpr)
  · rw [if_neg hlen, all_contains_iff hl self other]
    refine ⟨fun hsub q => ⟨hsub q, ?_⟩, fun hsame q => (hsame q).mp⟩
    exact superset_of_len_eq hl (not_not.mp hlen) hsub q

theorem isDisjointFrom_iff (hl : ops.Lawful eq) :
    isDisjointFrom ops h self other = true ↔
      ∀ q, ¬ (Member ops h eq self q ∧ Member ops h eq other q) := by
  have hwalk : ∀ r s,
      ((ops.entries (h.members r)).all
        fun e => !contains ops h s e.1) = true ↔
      ∀ q, ¬ (Member ops h eq r q ∧ Member ops h eq s q) := by
    intro r s
    rw [List.all_eq_true]
    constructor
    · rintro hall q ⟨hr, hs⟩
      obtain ⟨e, hmem, heq⟩ := (member_iff_entry r q).mp hr
      exact (not_contains_iff hl s e.1).mp (hall e hmem)
        ((member_of_eq hl heq).mpr hs)
    · intro hnone e hmem
      refine (not_contains_iff hl s e.1).mpr fun hs => hnone e.1 ⟨?_, hs⟩
      exact (member_iff_entry r e.1).mpr ⟨e, hmem, hl.equivalence.refl e.1⟩
  unfold isDisjointFrom
  rcases smaller_eq self other (len ops h self ≤ len ops h other) with
    ⟨hs, hg⟩ | ⟨hs, hg⟩
  · simp only [hs, hg]
    exact hwalk self other
  · simp only [hs, hg]
    rw [hwalk]
    exact forall_congr' fun q => not_congr and_comm

/-- The four operations build a new set with the members the connective
selects and change no other set, and the four tests decide the relations. -/
theorem set_algebra (ops : MapOps T M) (eq : T → T → Bool)
    (hl : ops.Lawful eq) (h : SetHeap M) (self other : ℕ)
    (hself : self < h.next) (hother : other < h.next) :
    Builds ops h self other eq Or (unionWith ops h self other) ∧
    Builds ops h self other eq And (intersection ops h self other) ∧
    Builds ops h self other eq (fun p q => p ∧ ¬ q)
      (difference ops h self other) ∧
    Builds ops h self other eq Xor (symmetricDifference ops h self other) ∧
    (isSubsetOf ops h self other = true ↔
      ∀ q, Member ops h eq self q → Member ops h eq other q) ∧
    (isSupersetOf ops h self other = true ↔
      ∀ q, Member ops h eq other q → Member ops h eq self q) ∧
    (isDisjointFrom ops h self other = true ↔
      ∀ q, ¬ (Member ops h eq self q ∧ Member ops h eq other q)) ∧
    (equals ops h self other = true ↔
      ∀ q, Member ops h eq self q ↔ Member ops h eq other q) :=
  ⟨unionWith_builds hl hself hother, intersection_builds hl hself hother,
    difference_builds hl hself hother,
    symmetricDifference_builds hl hself hother, isSubsetOf_iff hl,
    isSubsetOf_iff hl, isDisjointFrom_iff hl, equals_iff hl⟩

section Entries

/-- Entries in first-insertion order, no two with equal keys. -/
abbrev EntryMap (eq : T → T → Bool) : Type _ :=
  { l : List (T × Bool) // Distinct eq l }

/-- The association list of the map's model, as a map of members. -/
def entryOps (eq : T → T → Bool) : MapOps T (EntryMap eq) where
  empty := ⟨[], List.Pairwise.nil⟩
  insert value present m :=
    ⟨Map.orderPut eq id value present m.1,
      Map.Distinct.orderPut m.2 id value present⟩
  containsKey value m := (get eq m.1 value).isSome
  len m := m.1.length
  clone m := m
  entries m := m.1

theorem entryOps_lawful {eq : T → T → Bool} (he : KeyEquivalence eq) :
    (entryOps eq).Lawful eq where
  equivalence := he
  distinct m := m.2
  empty := rfl
  insert value present m q := by
    have hput := Map.get_orderPut he id value present m.1 q
    have hentries : (entryOps eq).entries
        ((entryOps eq).insert value present m) =
        Map.orderPut eq id value present m.1 := rfl
    rw [hentries, hput]
    cases eq value q with
    | true => rfl
    | false => rfl
  containsKey _ _ := rfl
  len _ := rfl
  clone _ _ := rfl

/-- How two numbers compare as keys. -/
def numberEq (a b : ℕ) : Bool := a == b

theorem numberEq_iff (a b : ℕ) : numberEq a b = true ↔ a = b :=
  beq_iff_eq

theorem numberEq_keyEquivalence : KeyEquivalence numberEq where
  refl a := (numberEq_iff a a).mpr rfl
  symm a b hab := (numberEq_iff b a).mpr ((numberEq_iff a b).mp hab).symm
  trans a b c hab hbc := (numberEq_iff a c).mpr
    (((numberEq_iff a b).mp hab).trans ((numberEq_iff b c).mp hbc))

/-- Two sets, the empty one at 0 and that of 3 and 5 at 1. -/
def twoSets : SetHeap (EntryMap numberEq) :=
  let ops := entryOps numberEq
  let fresh := (({ members := fun _ => ops.empty, next := 0 } :
    SetHeap _).newSet ops).1.newSet ops
  (fresh.1.insertInto ops 1 3).insertInto ops 1 5

/-- The union with an empty set, and a set as a subset of itself. -/
theorem set_algebra_twoSets :
    Builds (entryOps numberEq) twoSets 0 1
      numberEq Or (unionWith (entryOps numberEq) twoSets 0 1) ∧
    (isSubsetOf (entryOps numberEq) twoSets 1 1 = true ↔
      ∀ q, Member (entryOps numberEq) twoSets numberEq 1 q →
        Member (entryOps numberEq) twoSets numberEq 1 q) :=
  ⟨(set_algebra (entryOps numberEq) numberEq
      (entryOps_lawful numberEq_keyEquivalence) twoSets 0 1 (by decide)
      (by decide)).1,
    (set_algebra (entryOps numberEq) numberEq
      (entryOps_lawful numberEq_keyEquivalence) twoSets 1 1 (by decide)
      (by decide)).2.2.2.2.1⟩

end Entries

end HashedSet

end Collections
end Beans
