import Beans.Http2.OutgoingBodies

/-!
# What the calls do to the slots

Every call writes one slot at most.  The slots are well kept when no stream has
two of them and each one in use holds the body of an accepted submission on its
stream.
-/

namespace Beans
namespace Http2

open KeyedSlots

/-- The slots of a session whose submissions are `subs`. -/
structure SlotsKept (l : List Pending) (subs : List Submission) : Prop where
  one : ∀ k, k ≠ -1 → AtMostOne Pending.stream l k
  owned : ∀ slot ∈ l, slot.stream ≠ -1 →
    ∃ b ∈ subs, b.stream = slot.stream ∧ b.body = slot.body

/-- The submission's slot holds what is left of its body. -/
def Holds (l : List Pending) (b : Submission) : Prop :=
  ∀ p, b.source = some p →
    ∃ slot, l[p]? = some slot ∧ slot.stream = b.stream ∧
      slot.body = b.body ∧ slot.offset = b.taken.length

section Rewrites

variable {l l' : List Pending} {subs : List Submission} {p : Nat}
  {new : Pending}

/-- Freeing a slot, or writing one in place, keeps the slots well kept. -/
theorem SlotsKept.rewrite (h : SlotsKept l subs) (hw : Rewrites l l' p new)
    (hnew : new.stream ≠ -1 →
      (∀ (q : Nat) (a : Pending), l[q]? = some a → a.stream = new.stream →
        q = p) ∧
      ∃ b ∈ subs, b.stream = new.stream ∧ b.body = new.body) :
    SlotsKept l' subs := by
  refine ⟨fun k hk => ?_, fun slot hslot hstream => ?_⟩
  · refine hw.atMostOne (h.one k hk) fun hkey q a hq ha => ?_
    exact (hnew (by rw [hkey]; exact hk)).1 q a hq (ha.trans hkey.symm)
  · obtain ⟨q, hq⟩ := List.mem_iff_getElem?.mp hslot
    rcases hw.cases hq with ⟨rfl, rfl⟩ | ⟨-, hq⟩
    · exact (hnew hstream).2
    · exact h.owned slot (List.mem_of_getElem? hq) hstream

theorem SlotsKept.free (h : SlotsKept l subs) (hw : Rewrites l l' p new)
    (hnew : new.stream = -1) : SlotsKept l' subs :=
  h.rewrite hw fun hne => absurd hnew hne

/-- The slots stay well kept while no accepted body is lost. -/
theorem SlotsKept.submissions {subs' : List Submission}
    (h : SlotsKept l subs)
    (hsub : ∀ b ∈ subs, ∃ c ∈ subs', c.stream = b.stream ∧ c.body = b.body) :
    SlotsKept l subs' := by
  refine ⟨h.one, fun slot hslot hstream => ?_⟩
  obtain ⟨b, hb, hbs, hbb⟩ := h.owned slot hslot hstream
  obtain ⟨c, hc, hcs, hcb⟩ := hsub b hb
  exact ⟨c, hc, hcs.trans hbs, hcb.trans hbb⟩

/-- A submission keeps its slot while another stream's slot is written. -/
theorem Holds.rewrite {b : Submission} (h : Holds l b)
    (hw : Rewrites l l' p new)
    (hold : ∀ old, l[p]? = some old → old.stream ≠ b.stream) :
    Holds l' b := by
  intro q hq
  obtain ⟨slot, hslot, hstream, hrest⟩ := h q hq
  refine ⟨slot, hw.keep hslot ?_, hstream, hrest⟩
  rintro rfl
  exact hold slot hslot hstream

end Rewrites

section Calls

variable {s : Session}

/-- A release frees the stream's slot, if there is one. -/
theorem pendingRelease_spec (s : Session) (k : Int) :
    pendingRelease s k = s ∨
      ∃ p old, s.pending[p]? = some old ∧ old.stream = k ∧
        Rewrites s.pending (pendingRelease s k).pending p ⟨[], 0, -1⟩ := by
  rw [pendingRelease]
  cases h : pendingFind s k with
  | none => exact .inl rfl
  | some p =>
    obtain ⟨old, hget, hkey⟩ := find_some h
    exact .inr ⟨p, old, hget, hkey, .set hget _⟩

theorem SlotsKept.release {subs : List Submission}
    (h : SlotsKept s.pending subs) (k : Int) :
    SlotsKept (pendingRelease s k).pending subs := by
  rcases pendingRelease_spec s k with heq | ⟨p, old, -, -, hw⟩
  · rw [heq]
    exact h
  · exact h.free hw rfl

variable {b : Submission} {k : Int} {memory : Bool} {s' : Session}

/-- A release frees no slot of another stream. -/
theorem Holds.release (h : Holds s.pending b)
    (hk : b.stream ≠ k) : Holds (pendingRelease s k).pending b := by
  rcases pendingRelease_spec s k with heq | ⟨p, old, hget, hold, hw⟩
  · rw [heq]
    exact h
  · refine h.rewrite hw fun a ha => ?_
    cases hget.symm.trans ha
    rw [hold]
    exact hk.symm

/-- A claim writes an empty slot in the place of the stream's or of a free one. -/
theorem pendingClaim_spec {p : Nat}
    (h : pendingClaim s k memory = some (p, s')) :
    Rewrites s.pending s'.pending p ⟨[], 0, k⟩ ∧
      s'.stagedBody = s.stagedBody ∧ s'.isServer = s.isServer ∧
      ∀ old, s.pending[p]? = some old → old.stream = k ∨ old.stream = -1 := by
  rw [pendingClaim] at h
  cases hk : pendingFind s k with
  | some q =>
    obtain ⟨old, hget, hkey⟩ := find_some hk
    rw [hk] at h
    cases h
    refine ⟨.set hget _, rfl, rfl, fun a ha => ?_⟩
    cases hget.symm.trans ha
    exact .inl hkey
  | none =>
    rw [hk] at h
    cases hfree : pendingFind s (-1) with
    | some q =>
      obtain ⟨old, hget, hkey⟩ := find_some hfree
      rw [hfree] at h
      cases h
      refine ⟨.set hget _, rfl, rfl, fun a ha => ?_⟩
      cases hget.symm.trans ha
      exact .inr hkey
    | none =>
      rw [hfree] at h
      cases memory with
      | false => cases h
      | true =>
        cases h
        refine ⟨.append _ _, rfl, rfl, fun a ha => ?_⟩
        rw [List.getElem?_eq_none (Nat.le_refl _)] at ha
        cases ha

/-- Claiming a slot and moving the staged body into it writes that slot. -/
theorem moveStaged_spec {p : Nat}
    (h : pendingClaim s k memory = some (p, s')) :
    Rewrites s.pending (moveStaged s' p).pending p ⟨s.stagedBody, 0, k⟩ ∧
      (moveStaged s' p).isServer = s.isServer ∧
      ∀ old, s.pending[p]? = some old → old.stream = k ∨ old.stream = -1 := by
  obtain ⟨hw, hstaged, hserver, hold⟩ := pendingClaim_spec h
  refine ⟨?_, hserver, hold⟩
  rw [← hstaged]
  exact hw.trans (.modify hw.here _)

/-- The slot after `n` of its bytes were read. -/
def Pending.advance (slot : Pending) (n : Nat) : Pending :=
  ⟨slot.body, slot.offset + n, slot.stream⟩

/-- The number of bytes that one read into a buffer of `length` takes. -/
def Pending.next (slot : Pending) (length : Nat) : Nat :=
  min (slot.body.length - slot.offset) length

/-- A read through the slot of another stream answers the end. -/
theorem readBody_other {p : Nat} (length : Nat)
    (h : ∀ slot, s.pending[p]? = some slot → slot.stream ≠ k) :
    readBody s p k length = (s, ⟨[], true⟩) := by
  rw [readBody]
  cases hget : s.pending[p]? with
  | none => rfl
  | some slot => exact if_pos (h slot hget)

/-- A read through the stream's slot. -/
theorem readBody_self {p : Nat} {slot : Pending} (length : Nat)
    (hget : s.pending[p]? = some slot) :
    readBody s p slot.stream length =
      if slot.body.length ≤ slot.offset then
        (pendingRelease s slot.stream, ⟨[], true⟩)
      else
        let bytes := (slot.body.drop slot.offset).take (slot.next length)
        let s' := { s with
          pending := s.pending.set p (slot.advance (slot.next length)) }
        if slot.body.length ≤ slot.offset + slot.next length then
          (pendingRelease s' slot.stream, ⟨bytes, true⟩)
        else (s', ⟨bytes, false⟩) := by
  simp only [readBody, hget]
  exact if_neg (not_not_intro rfl)

/-- Releasing the stream of a slot that was written frees that slot. -/
theorem release_written {l : List Pending} {p : Nat} {a : Pending} {k : Int}
    (hw : Rewrites l s.pending p a) (ha : a.stream = k)
    (hone : AtMostOne Pending.stream s.pending k) :
    Rewrites l (pendingRelease s k).pending p ⟨[], 0, -1⟩ := by
  have hfind : pendingFind s k = some p :=
    find_of_atMostOne hone hw.here ha
  rw [pendingRelease, hfind]
  exact hw.trans (.set hw.here _)

/-- What one read writes: the offset of the stream's slot, or a free slot. -/
theorem readBody_writes {p : Nat} (length : Nat)
    (hone : AtMostOne Pending.stream s.pending k) :
    (readBody s p k length).1 = s ∨
      ∃ old new, s.pending[p]? = some old ∧ old.stream = k ∧
        Rewrites s.pending (readBody s p k length).1.pending p new ∧
        (new.stream = -1 ∨ (new.stream = k ∧ new.body = old.body)) := by
  by_cases hslot : ∀ slot, s.pending[p]? = some slot → slot.stream ≠ k
  · exact .inl (by rw [readBody_other length hslot])
  · push Not at hslot
    obtain ⟨slot, hget, rfl⟩ := hslot
    have hself : Rewrites s.pending s.pending p slot := ⟨hget, fun _ _ => rfl⟩
    have hset := Rewrites.set hget (slot.advance (slot.next length))
    have hone' := hset.atMostOne hone fun _ q b hq hb =>
      hone q p b slot hq hget hb rfl
    refine .inr ?_
    rw [readBody_self length hget]
    by_cases hend : slot.body.length ≤ slot.offset
    · rw [if_pos hend]
      exact ⟨slot, _, hget, rfl, release_written hself rfl hone, .inl rfl⟩
    · rw [if_neg hend]
      by_cases hlast : slot.body.length ≤ slot.offset + slot.next length
      · simp only [if_pos hlast]
        exact ⟨slot, _, hget, rfl, @release_written ⟨_, _, _⟩ _ _ _ _ hset rfl
          hone', .inl rfl⟩
      · simp only [if_neg hlast]
        exact ⟨slot, _, hget, rfl, hset, .inr ⟨rfl, rfl⟩⟩

/-- The bytes of one read stand in the body of the stream's slot. -/
theorem readBody_bytes (s : Session) (p : Nat) (k : Int) (length : Nat) :
    (readBody s p k length).2.bytes = [] ∨
      ∃ slot ∈ s.pending, slot.stream = k ∧
        (readBody s p k length).2.bytes <:+: slot.body := by
  by_cases hslot : ∀ slot, s.pending[p]? = some slot → slot.stream ≠ k
  · exact .inl (by rw [readBody_other length hslot])
  · push Not at hslot
    obtain ⟨slot, hget, rfl⟩ := hslot
    have hsub : ∀ n, (slot.body.drop slot.offset).take n <:+: slot.body :=
      fun n => (List.take_prefix n _).isInfix.trans
        (List.drop_suffix slot.offset slot.body).isInfix
    rw [readBody_self length hget]
    by_cases hend : slot.body.length ≤ slot.offset
    · exact .inl (by rw [if_pos hend])
    · refine .inr ⟨slot, List.mem_of_getElem? hget, rfl, ?_⟩
      rw [if_neg hend]
      by_cases hlast : slot.body.length ≤ slot.offset + slot.next length
      · simpa only [if_pos hlast] using hsub _
      · simpa only [if_neg hlast] using hsub _

/-- One read of a body from its slot. -/
theorem readBody_holds {p : Nat} (length : Nat)
    (hsource : b.source = some p) (hholds : Holds s.pending b) :
    (readBody s p b.stream length).2 =
      ⟨(b.body.drop b.taken.length).take length,
        decide (b.body.length ≤ b.taken.length + length)⟩ := by
  obtain ⟨slot, hget, hstream, hbody, hoffset⟩ := hholds p hsource
  rw [← hstream, ← hbody, ← hoffset, readBody_self length hget]
  have htake : (slot.body.drop slot.offset).take (slot.next length) =
      (slot.body.drop slot.offset).take length := by
    rw [Pending.next, Nat.min_comm, ← List.take_take,
      List.take_of_length_le (l := slot.body.drop slot.offset) (by simp)]
  by_cases hend : slot.body.length ≤ slot.offset
  · rw [if_pos hend, List.drop_eq_nil_of_le hend, List.take_nil,
      decide_eq_true (by omega)]
  · rw [if_neg hend, htake]
    have hnext : slot.body.length ≤ slot.offset + slot.next length ↔
        slot.body.length ≤ slot.offset + length := by
      rw [Pending.next]
      omega
    by_cases hlast : slot.body.length ≤ slot.offset + length
    · rw [decide_eq_true hlast]
      simp only [if_pos (hnext.mpr hlast)]
    · rw [decide_eq_false hlast]
      simp only [if_neg (mt hnext.mp hlast)]

/-- Unless it reports the end, a read leaves the rest of the body in the slot. -/
theorem readBody_rest {p : Nat} (length : Nat)
    (hsource : b.source = some p) (hholds : Holds s.pending b)
    (hmore : (readBody s p b.stream length).2.eof = false) :
    Holds (readBody s p b.stream length).1.pending
      { b with taken := b.taken ++ (readBody s p b.stream length).2.bytes } := by
  obtain ⟨slot, hget, hstream, hbody, hoffset⟩ := hholds p hsource
  have hchunk := readBody_holds length hsource hholds
  have hlt : ¬ b.body.length ≤ b.taken.length + length := by
    rw [hchunk] at hmore
    exact of_decide_eq_false hmore
  have hnext : slot.next length = length := by
    rw [Pending.next, hbody, hoffset]
    omega
  have hset := Rewrites.set hget (slot.advance length)
  intro q hq
  cases hsource.symm.trans hq
  refine ⟨slot.advance length, ?_, hstream, hbody, ?_⟩
  · rw [← hstream, readBody_self length hget, hnext, hbody, hoffset,
      if_neg (by omega)]
    simp only [if_neg hlt]
    exact hset.here
  · rw [hchunk, Pending.advance, hoffset]
    simp only [List.length_append, List.length_take, List.length_drop]
    omega

end Calls

end Http2
end Beans
