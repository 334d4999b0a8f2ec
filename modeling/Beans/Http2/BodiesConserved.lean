import Beans.Http2.BodySlots

/-!
# Outgoing bodies are conserved

What is read for an accepted submission is the body staged for it, as long as no
response with a body names a stream whose earlier body is still in its slot.  A
DATA submission checks this itself; a response does not.

**Input.**  Every run of staged bodies, submissions, DATA, resets and reads on a session in
which nghttp2 does what it documents.

**Results.**
* `bodies_conserved`: what is read is the body of its own stream, in order and to the end.
* `busy_response_replaces_body`: a second response on a stream takes the first one's place.
-/

namespace Beans
namespace Http2

open KeyedSlots StepSystem

/-- nghttp2 accepts positive streams only, and gives a client's submission a
stream that no submission had before. -/
def Answers (c : Call) (w : World) : Prop :=
  match c with
  | .submit blob words memory reply =>
    ∀ id, (submit w.session blob words memory reply).result = .ok id →
      0 < id ∧ (w.session.isServer = false →
        ∀ b ∈ w.submissions, b.stream ≠ id)
  | _ => True

/-- A response with a body does not name a stream whose slot is still in use. -/
def StreamFree (c : Call) (w : World) : Prop :=
  match c with
  | .submit blob words _ _ =>
    w.session.isServer = true → words.bodyLen > 0 →
      submitCheck w.session blob words = .ok () →
      0 < int32Of words.streamId →
      pendingFind w.session (int32Of words.streamId) = none
  | _ => True

/-- The call is a submission that is answered with an error. -/
def Refused (c : Call) (w : World) : Prop :=
  match c with
  | .submit blob words memory reply =>
    ∃ e, (submit w.session blob words memory reply).result = .error e
  | .submitData stream endStream memory dataExist reply =>
    ∃ e, (submitData w.session stream endStream memory dataExist
      reply).result = .error e
  | _ => False

/-- The effect of a submission on the slots: none, a slot written and freed
again, or the staged body in a slot of its own. -/
inductive SubmitEffect (s : Session) (r : Submitted) : Prop
  | kept :
      r.session.pending = s.pending →
      (∀ id, r.result = .ok id →
        0 < id ∧ r.source = none ∧ s.stagedBody = []) →
      SubmitEffect s r
  | refused {e : NetStatus} {p : Nat} {new : Pending} :
      r.result = .error e →
      Rewrites s.pending r.session.pending p new →
      new.stream = -1 →
      (∀ old, s.pending[p]? = some old → old.stream = -1) →
      SubmitEffect s r
  | taken {id : Int} {p : Nat} :
      r.result = .ok id → r.source = some p → 0 < id →
      Rewrites s.pending r.session.pending p ⟨s.stagedBody, 0, id⟩ →
      (∀ old, s.pending[p]? = some old → old.stream = -1) →
      (∀ slot ∈ s.pending, slot.stream ≠ id) →
      SubmitEffect s r

theorem submitCheck_ok {s : Session} {blob : List UInt8} {words : SubmitWords}
    (h : submitCheck s blob words = .ok ()) :
    (words.keepOpen ≠ 0 → words.bodyLen = 0) ∧
      s.stagedBody.length = words.bodyLen.toNat := by
  unfold submitCheck at h
  split at h
  · cases h
  · split at h
    · cases h
    · rename_i hkeep
      split at h
      · cases h
      · split at h
        · cases h
        · rename_i hlen
          refine ⟨fun hne => ?_, not_not.mp hlen⟩
          by_contra hbody
          exact hkeep (.inr ⟨hne, hbody⟩)

/-- A slot whose stream is made -1 is a free slot written in its place. -/
theorem setStream_rewrites {s s' : Session} {p : Nat} {a : Pending}
    (hw : Rewrites s.pending s'.pending p a) (k : Int) :
    Rewrites s.pending (setStream s' p k).pending p ⟨a.body, a.offset, k⟩ :=
  hw.trans (.modify hw.here _)

section Effects

variable {s : Session} {subs : List Submission}

/-- No slot of a session is in use for a stream that is not positive. -/
theorem SlotsKept.positive (hslots : SlotsKept s.pending subs)
    (hpos : ∀ b ∈ subs, 0 < b.stream) {a : Pending} (ha : a ∈ s.pending) :
    a.stream = -1 ∨ 0 < a.stream := by
  by_cases h : a.stream = -1
  · exact .inl h
  · obtain ⟨b, hb, hstream, -⟩ := hslots.owned a ha h
    exact .inr (hstream ▸ hpos b hb)

/-- What a submission does to the slots, case by case of its checks. -/
theorem submit_effect (hslots : SlotsKept s.pending subs)
    (hpos : ∀ b ∈ subs, 0 < b.stream) {blob : List UInt8}
    {words : SubmitWords} {memory : Memory} {reply : Int}
    (hid : ∀ id, (submit s blob words memory reply).result = .ok id →
      0 < id ∧ (s.isServer = false → ∀ b ∈ subs, b.stream ≠ id))
    (hfree : s.isServer = true → words.bodyLen > 0 →
      submitCheck s blob words = .ok () → 0 < int32Of words.streamId →
      pendingFind s (int32Of words.streamId) = none) :
    SubmitEffect s (submit s blob words memory reply) := by
  have error : ∀ e source, SubmitEffect s ⟨s, .error e, source⟩ :=
    fun e source => .kept rfl fun id h => by cases h
  rw [submit] at hid ⊢
  cases hcheck : submitCheck s blob words with
  | error e => exact error e none
  | ok _ =>
    obtain ⟨hkeep, hlen⟩ := submitCheck_ok hcheck
    simp only [hcheck] at hid ⊢
    by_cases hmem : memory.headers = false
    · rw [if_pos hmem]
      exact error _ _
    rw [if_neg hmem] at hid ⊢
    by_cases hbody : words.bodyLen > 0
    · rw [if_pos hbody] at hid ⊢
      have hclosed : words.keepOpen = 0 := by
        by_contra hne
        rw [hkeep hne] at hbody
        exact absurd hbody (by decide)
      cases hclaim : pendingClaim s
          (if s.isServer then int32Of words.streamId else 0) memory.slot with
      | none => exact error _ _
      | some pair =>
        obtain ⟨p, s'⟩ := pair
        obtain ⟨hw, hserver, hold⟩ := moveStaged_spec hclaim
        simp only [hclaim, hclosed, ne_eq, not_true_eq_false, decide_false,
          settleSubmit, hserver, Bool.false_eq_true, if_false] at hid ⊢
        cases hside : s.isServer with
        | true =>
          simp only [hside, if_true] at hw hold hid ⊢
          have hnone : ∀ a ∈ s.pending, a.stream = int32Of words.streamId →
              a.stream = -1 := by
            intro a ha hk
            rcases hslots.positive hpos ha with h | h
            · exact h
            · rw [hk] at h
              exact absurd hk
                (find_none_iff.mp (hfree hside hbody hcheck h) a ha)
          have hplace : ∀ old, s.pending[p]? = some old → old.stream = -1 := by
            intro old hget
            rcases hold old hget with h | h
            · exact hnone old (List.mem_of_getElem? hget) h
            · exact h
          by_cases hreply : reply = 0
          · simp only [hreply, not_true_eq_false, if_false] at hid ⊢
            have hlt := (hid _ rfl).1
            refine .taken rfl rfl hlt hw hplace fun a ha hk => ?_
            have := hnone a ha hk
            omega
          · simp only [hreply, not_false_eq_true, if_true]
            exact .refused rfl (setStream_rewrites hw (-1)) rfl hplace
        | false =>
          simp only [hside, Bool.false_eq_true, if_false] at hw hold hid ⊢
          have hplace : ∀ old, s.pending[p]? = some old → old.stream = -1 := by
            intro old hget
            rcases hold old hget with h | h
            · rcases hslots.positive hpos (List.mem_of_getElem? hget) with h' | h'
              · exact h'
              · omega
            · exact h
          by_cases hreply : reply < 0
          · simp only [hreply, if_true]
            exact .refused rfl (setStream_rewrites hw (-1)) rfl hplace
          · simp only [hreply, if_false] at hid ⊢
            obtain ⟨hlt, hnew⟩ := hid reply rfl
            refine .taken rfl rfl hlt (setStream_rewrites hw reply) hplace
              fun a ha hk => ?_
            obtain ⟨b, hb, hbk, -⟩ := hslots.owned a ha (by omega)
            exact hnew trivial b hb (hbk.trans hk)
    · rw [if_neg hbody]
      have hstaged : s.stagedBody = [] := by
        have hzero : words.bodyLen = 0 := by
          by_contra hne
          exact hbody (UInt64.pos_iff_ne_zero.mpr hne)
        rw [hzero] at hlen
        exact List.length_eq_zero_iff.mp hlen
      have hnone : (settleSubmit s (int32Of words.streamId)
          (decide (words.keepOpen ≠ 0)) none reply).source = none ∧
          (settleSubmit s (int32Of words.streamId)
          (decide (words.keepOpen ≠ 0)) none reply).session = s := by
        simp only [settleSubmit, bindSlot]
        split_ifs <;> exact ⟨rfl, rfl⟩
      rw [if_neg hbody] at hid
      exact .kept (by rw [hnone.2]) fun id h => ⟨(hid id h).1, hnone.1, hstaged⟩

theorem submitData_effect (stream endStream : UInt64) (memory dataExist : Bool)
    (reply : Int) :
    SubmitEffect s
      (submitData s stream endStream memory dataExist reply) := by
  have error : ∀ e source, SubmitEffect s ⟨s, .error e, source⟩ :=
    fun e source => .kept rfl fun id h => by cases h
  simp only [submitData]
  by_cases hrange : int64Of stream ≤ 0 ∨ int64Of stream > 2 ^ 31 - 1 ∨
      endStream > 1
  · rw [if_pos hrange]
    exact error _ _
  rw [if_neg hrange]
  cases hfind : pendingFind s (int64Of stream) with
  | some q => exact error _ _
  | none =>
    have habsent := find_none_iff.mp hfind
    simp only [Option.isSome_none, Bool.false_eq_true, if_false]
    cases hclaim : pendingClaim s (int64Of stream) memory with
    | none => exact error _ _
    | some pair =>
      obtain ⟨p, s'⟩ := pair
      obtain ⟨hw, -, hold⟩ := moveStaged_spec hclaim
      have hplace : ∀ old, s.pending[p]? = some old → old.stream = -1 :=
        fun old hget => (hold old hget).resolve_left
          (habsent old (List.mem_of_getElem? hget))
      by_cases hreply : reply = 0
      · simp only [hreply, ne_eq, not_true_eq_false, if_false]
        exact .taken rfl rfl (by omega) hw hplace habsent
      · simp only [ne_eq, hreply, not_false_eq_true, if_true]
        have hone := hw.atMostOne (atMostOne_of_absent habsent)
          fun _ q a hq ha =>
            absurd ha (habsent a (List.mem_of_getElem? hq))
        exact .refused rfl (release_written hw rfl hone) rfl hplace

end Effects

/-- nghttp2 reads the submission's body, and its stream was not reset. -/
def Submission.Open (b : Submission) (resets : List Int) : Prop :=
  b.live ∧ b.source ≠ none ∧ b.stream ∉ resets

structure BodiesInv (w : World) : Prop where
  slots : SlotsKept w.session.pending w.submissions
  positive : ∀ b ∈ w.submissions, 0 < b.stream
  bare : ∀ b ∈ w.submissions, b.source = none → b.body = []
  apart : ∀ (i j : Nat) (a b : Submission), w.submissions[i]? = some a →
    w.submissions[j]? = some b → a.Open w.resets → b.Open w.resets →
    a.stream = b.stream → i = j
  whole : ∀ b ∈ w.submissions, b.stream ∉ w.resets →
    b.taken <+: b.body ∧ (b.ended = true → b.taken = b.body)
  holds : ∀ b ∈ w.submissions, b.Open w.resets →
    Holds w.session.pending b

section Steps

variable {w : World}

theorem bodiesInv_fresh (isServer : Bool) : BodiesInv (fresh isServer) where
  slots := ⟨fun _ _ => atMostOne_of_absent (by simp [fresh]),
    by simp [fresh]⟩
  positive _ h := by cases h
  bare _ h := by cases h
  apart _ _ _ _ h := by cases h
  whole _ h := by cases h
  holds _ h := by cases h

/-- A step that accepts nothing and leaves the slots of open bodies alone. -/
theorem BodiesInv.session (h : BodiesInv w) {s : Session}
    (hslots : SlotsKept s.pending w.submissions)
    (hholds : ∀ b ∈ w.submissions, b.Open w.resets → Holds s.pending b) :
    BodiesInv { w with session := s } :=
  { h with slots := hslots, holds := hholds }

/-- The invariant survives a submission, accepted or refused. -/
theorem BodiesInv.submitted (h : BodiesInv w) {r : Submitted}
    (heffect : SubmitEffect w.session r) :
    BodiesInv (w.submitted r) := by
  have appended : ∀ {b c : Submission}, b ∈ w.submissions ++ [c] →
      b ∈ w.submissions ∨ b = c := by
    intro b c hb
    simpa using hb
  have kept : ∀ {l' : List Pending} {p : Nat} {new : Pending},
      Rewrites w.session.pending l' p new →
      (∀ old, w.session.pending[p]? = some old → old.stream = -1) →
      ∀ b ∈ w.submissions, b.Open w.resets → Holds l' b := by
    intro l' p new hw hold b hb hopen
    refine (h.holds b hb hopen).rewrite hw fun old hget => ?_
    have := h.positive b hb
    rw [hold old hget]
    omega
  cases heffect with
  | refused herr hw hnew hold =>
    rw [World.submitted, herr]
    exact h.session (h.slots.free hw hnew) (kept hw hold)
  | kept hpending hsource =>
    have hslots : SlotsKept r.session.pending w.submissions := by
      rw [hpending]
      exact h.slots
    have hholds : ∀ b ∈ w.submissions, b.Open w.resets →
        Holds r.session.pending b := by
      rw [hpending]
      exact h.holds
    cases hr : r.result with
    | error e =>
      rw [World.submitted, hr]
      exact h.session hslots hholds
    | ok id =>
      obtain ⟨hid, hnone, hempty⟩ := hsource id hr
      rw [World.submitted, hr, hnone, hempty]
      exact
        { slots := hslots.submissions fun b hb =>
            ⟨b, List.mem_append_left _ hb, rfl, rfl⟩
          positive := fun b hb => (appended hb).elim (h.positive b)
            fun heq => heq ▸ hid
          bare := fun b hb => (appended hb).elim (h.bare b)
            fun heq _ => by rw [heq]
          apart := by
            intro i j a b hi hj ha hb heq
            rcases getElem?_append_cases hi with ⟨-, rfl⟩ | hi
            · exact absurd rfl ha.2.1
            · rcases getElem?_append_cases hj with ⟨-, rfl⟩ | hj
              · exact absurd rfl hb.2.1
              · exact h.apart i j a b hi hj ha hb heq
          whole := fun b hb hreset => (appended hb).elim
            (fun hb => h.whole b hb hreset)
            fun heq => by
              subst heq
              exact ⟨List.nil_prefix, fun hend => rfl⟩
          holds := fun b hb hopen => (appended hb).elim
            (fun hb => hholds b hb hopen)
            fun heq => absurd (heq ▸ rfl) hopen.2.1 }
  | @taken id p hr hsource hid hw hold habsent =>
    have hheld := kept hw hold
    have hnone : ∀ b ∈ w.submissions, b.Open w.resets → b.stream ≠ id := by
      intro b hb hopen heq
      obtain ⟨q, hq⟩ := Option.ne_none_iff_exists'.mp hopen.2.1
      obtain ⟨slot, hslot, hstream, -⟩ := h.holds b hb hopen q hq
      exact habsent slot (List.mem_of_getElem? hslot) (hstream.trans heq)
    rw [World.submitted, hr, hsource]
    exact
      { slots := by
          refine SlotsKept.rewrite (h.slots.submissions fun b hb =>
            ⟨b, List.mem_append_left _ hb, rfl, rfl⟩) hw
            fun _ => ⟨fun q a hq ha => ?_, ?_⟩
          · exact absurd ha (habsent a (List.mem_of_getElem? hq))
          · exact ⟨_, List.mem_append_right _ (List.mem_singleton_self _),
              rfl, rfl⟩
        positive := fun b hb => (appended hb).elim (h.positive b)
          fun heq => heq ▸ hid
        bare := fun b hb hb' => (appended hb).elim
          (fun hb => h.bare b hb hb') fun heq => by
            subst heq
            cases hb'
        apart := by
          intro i j a b hi hj ha hb heq
          rcases getElem?_append_cases hi with ⟨rfl, rfl⟩ | hi
          · rcases getElem?_append_cases hj with ⟨rfl, -⟩ | hj
            · rfl
            · exact absurd heq.symm
                (hnone b (List.mem_of_getElem? hj) hb)
          · rcases getElem?_append_cases hj with ⟨-, rfl⟩ | hj
            · exact absurd heq (hnone a (List.mem_of_getElem? hi) ha)
            · exact h.apart i j a b hi hj ha hb heq
        whole := fun b hb hreset => (appended hb).elim
          (fun hb => h.whole b hb hreset)
          fun heq => by
            subst heq
            exact ⟨List.nil_prefix, fun hend => by cases hend⟩
        holds := fun b hb hopen => (appended hb).elim
          (fun hb => hheld b hb hopen)
          fun heq q hq => by
            subst heq
            cases hq
            exact ⟨_, hw.here, rfl, rfl, rfl⟩ }

/-- Resetting a stream gives up its bodies and no others. -/
theorem BodiesInv.reset (h : BodiesInv w) (stream : Int) :
    BodiesInv { w with
      session := pendingRelease w.session stream
      resets := stream :: w.resets } := by
  have still : ∀ {b : Submission}, b.Open (stream :: w.resets) →
      b.Open w.resets :=
    fun hopen => ⟨hopen.1, hopen.2.1, fun hmem =>
      hopen.2.2 (List.mem_cons_of_mem _ hmem)⟩
  exact
    { slots := h.slots.release stream
      positive := h.positive
      bare := h.bare
      apart := fun i j a b hi hj ha hb =>
        h.apart i j a b hi hj (still ha) (still hb)
      whole := fun b hb hreset => h.whole b hb fun hmem =>
        hreset (List.mem_cons_of_mem _ hmem)
      holds := fun b hb hopen => (h.holds b hb (still hopen)).release
        fun heq => hopen.2.2 (heq ▸ List.mem_cons_self) }

/-- Closing a stream ends the reading of its bodies and of no others. -/
theorem BodiesInv.close (h : BodiesInv w) (stream : Int) :
    BodiesInv { w with
      session := pendingRelease w.session stream
      submissions := w.submissions.map fun b =>
        if b.stream = stream then { b with closed := true } else b } := by
  have sameAt : ∀ {i : Nat} {b : Submission}, (w.submissions.map (fun b =>
      if b.stream = stream then { b with closed := true } else b))[i]? =
        some b →
      ∃ c, w.submissions[i]? = some c ∧ b = { c with closed := b.closed } ∧
        (b.live → b = c ∧ c.stream ≠ stream) := by
    intro i b hb
    rw [List.getElem?_map] at hb
    obtain ⟨c, hc, rfl⟩ := Option.map_eq_some_iff.mp hb
    refine ⟨c, hc, ?_⟩
    by_cases heq : c.stream = stream
    · simp [heq, Submission.live]
    · simp [heq]
  have same : ∀ {b : Submission}, b ∈ w.submissions.map (fun b =>
      if b.stream = stream then { b with closed := true } else b) →
      ∃ c ∈ w.submissions, b = { c with closed := b.closed } ∧
        (b.live → b = c ∧ c.stream ≠ stream) := by
    intro b hb
    obtain ⟨i, hi⟩ := List.mem_iff_getElem?.mp hb
    obtain ⟨c, hc, hrest⟩ := sameAt hi
    exact ⟨c, List.mem_of_getElem? hc, hrest⟩
  exact
    { slots := by
        refine (h.slots.release stream).submissions fun b hb =>
          ⟨_, List.mem_map_of_mem hb, ?_⟩
        split <;> exact ⟨rfl, rfl⟩
      positive := fun b hb => by
        obtain ⟨c, hc, heq, -⟩ := same hb
        rw [heq]
        exact h.positive c hc
      bare := fun b hb hsource => by
        obtain ⟨c, hc, heq, -⟩ := same hb
        rw [heq] at hsource ⊢
        exact h.bare c hc hsource
      apart := by
        intro i j a b hi hj ha hb heq
        obtain ⟨c, hc, -, hlive⟩ := sameAt hi
        obtain ⟨d, hd, -, hlive'⟩ := sameAt hj
        obtain ⟨rfl, -⟩ := hlive ha.1
        obtain ⟨rfl, -⟩ := hlive' hb.1
        exact h.apart i j a b hc hd ha hb heq
      whole := fun b hb hreset => by
        obtain ⟨c, hc, heq, -⟩ := same hb
        rw [heq] at hreset ⊢
        exact h.whole c hc hreset
      holds := fun b hb hopen => by
        obtain ⟨c, hc, -, hlive⟩ := same hb
        obtain ⟨rfl, hother⟩ := hlive hopen.1
        exact (h.holds b hc hopen).release hother }

/-- What one read adds to what was read before. -/
theorem readBody_whole {s : Session} {b : Submission} {p : Nat} (length : Nat)
    (hsource : b.source = some p) (hholds : Holds s.pending b)
    (hleads : b.taken <+: b.body) :
    b.taken ++ (readBody s p b.stream length).2.bytes <+: b.body ∧
      ((readBody s p b.stream length).2.eof = true →
        b.taken ++ (readBody s p b.stream length).2.bytes = b.body) := by
  obtain ⟨rest, hrest⟩ := hleads
  rw [readBody_holds length hsource hholds, ← hrest, List.drop_left]
  refine ⟨(List.prefix_append_right_inj _).mpr (List.take_prefix _ _),
    fun hend => ?_⟩
  have hlen := of_decide_eq_true hend
  rw [List.length_append] at hlen
  rw [List.take_of_length_le (by omega)]

/-- One read moves bytes from the slot to what was read, or ends the reading. -/
theorem BodiesInv.readStep (h : BodiesInv w) {k p : Nat} {b : Submission}
    (hget : w.submissions[k]? = some b) (hsource : b.source = some p)
    (hlive : b.live) (length : Nat) :
    BodiesInv (w.read k b p length) := by
  have hb := List.mem_of_getElem? hget
  have hpos := h.positive b hb
  have hone := h.slots.one b.stream (by omega)
  have hopen : b.stream ∉ w.resets → b.Open w.resets :=
    fun hreset => ⟨hlive, by rw [hsource]; exact Option.some_ne_none p, hreset⟩
  have hwrites := readBody_writes length hone (p := p)
  obtain ⟨r, hr⟩ : ∃ r, readBody w.session p b.stream length = r := ⟨_, rfl⟩
  have hwhole := fun hreset => readBody_whole length hsource
    (h.holds b hb (hopen hreset)) (h.whole b hb hreset).1
  have hrest := fun hreset => readBody_rest length hsource
    (h.holds b hb (hopen hreset))
  rw [hr] at hwrites hwhole hrest
  rw [World.read, hr]
  have hset := Rewrites.set hget
    (⟨b.stream, b.source, b.body, b.taken ++ r.2.bytes, r.2.eof, b.closed⟩ :
      Submission)
  -- Every other submission stays, and an open one is on another stream.
  have other : ∀ {j : Nat} {c : Submission}, j ≠ k →
      w.submissions[j]? = some c → c.Open w.resets → c.stream ≠ b.stream := by
    intro j c hj hc hcopen heq
    have hbopen := hopen (heq ▸ hcopen.2.2)
    exact hj (h.apart j k c b hc hget hcopen hbopen heq)
  have hslots : SlotsKept r.1.pending w.submissions := by
    rcases hwrites with heq | ⟨old, new, hold, hstream, hw, hnew⟩
    · rw [heq]
      exact h.slots
    · rcases hnew with hfree | ⟨hkey, hbody⟩
      · exact h.slots.free hw hfree
      · refine h.slots.rewrite hw fun hne => ⟨fun q a hq ha => ?_, ?_⟩
        · exact hone q p a old hq hold (ha.trans hkey) hstream
        · rw [hkey, hbody, ← hstream]
          exact h.slots.owned old (List.mem_of_getElem? hold) (by omega)
  exact
    { slots := by
        refine hslots.submissions fun c hc => ?_
        obtain ⟨j, hj⟩ := List.mem_iff_getElem?.mp hc
        by_cases hjk : j = k
        · subst hjk
          cases hget.symm.trans hj
          exact ⟨_, List.mem_of_getElem? hset.here, rfl, rfl⟩
        · exact ⟨c, List.mem_of_getElem? (hset.keep hj hjk), rfl, rfl⟩
      positive := by
        intro c hc
        obtain ⟨j, hj⟩ := List.mem_iff_getElem?.mp hc
        rcases hset.cases hj with ⟨-, rfl⟩ | ⟨-, hj⟩
        · exact hpos
        · exact h.positive c (List.mem_of_getElem? hj)
      bare := by
        intro c hc hnone
        obtain ⟨j, hj⟩ := List.mem_iff_getElem?.mp hc
        rcases hset.cases hj with ⟨-, rfl⟩ | ⟨-, hj⟩
        · exact h.bare b hb hnone
        · exact h.bare c (List.mem_of_getElem? hj) hnone
      apart := by
        intro i j a c hi hj ha hc heq
        rcases hset.cases hi with ⟨rfl, rfl⟩ | ⟨hik, hi⟩
        · rcases hset.cases hj with ⟨rfl, -⟩ | ⟨hjk, hj⟩
          · rfl
          · exact absurd heq.symm (other hjk hj hc)
        · rcases hset.cases hj with ⟨hjk, rfl⟩ | ⟨-, hj⟩
          · exact absurd heq (other hik hi ha)
          · exact h.apart i j a c hi hj ha hc heq
      whole := by
        intro c hc hreset
        obtain ⟨j, hj⟩ := List.mem_iff_getElem?.mp hc
        rcases hset.cases hj with ⟨-, rfl⟩ | ⟨-, hj⟩
        · exact hwhole hreset
        · exact h.whole c (List.mem_of_getElem? hj) hreset
      holds := by
        intro c hc hcopen
        obtain ⟨j, hj⟩ := List.mem_iff_getElem?.mp hc
        rcases hset.cases hj with ⟨-, rfl⟩ | ⟨hjk, hj⟩
        · exact hrest hcopen.2.2 hcopen.1.1
        · have hheld := h.holds c (List.mem_of_getElem? hj) hcopen
          rcases hwrites with heq | ⟨old, new, hold, hstream, hw, -⟩
          · rw [heq]
            exact hheld
          · refine hheld.rewrite hw fun a ha => ?_
            cases hold.symm.trans ha
            rw [hstream]
            exact (other hjk hj hcopen).symm }

/-- What one step preserves. -/
theorem bodiesInv_step {c : Call} {w' : World} (h : BodiesInv w)
    (hanswers : Answers c w) (hfree : StreamFree c w)
    (hstep : step c w = some w') : BodiesInv w' := by
  cases c with
  | stageBody body memory =>
    cases hstep
    cases memory <;> exact h.session h.slots h.holds
  | submit blob words memory reply =>
    cases hstep
    exact h.submitted
      (submit_effect h.slots h.positive hanswers hfree)
  | submitData stream endStream memory dataExist reply =>
    cases hstep
    exact h.submitted
      (submitData_effect stream endStream memory dataExist reply)
  | rstStream stream =>
    cases hstep
    exact h.reset (int32Of stream)
  | streamClose stream =>
    cases hstep
    exact h.close stream
  | readBody k length =>
    rw [step] at hstep
    split at hstep
    · cases hstep
    · rename_i b hget
      split at hstep
      · cases hstep
      · rename_i p hsource
        split at hstep
        · rename_i hlive
          cases hstep
          exact h.readStep hget hsource hlive length
        · cases hstep

end Steps

/-- The bodies of the accepted submissions on streams that were not reset are
read exactly, in order and to the end, and a read answers bytes of its own
stream only. -/
structure Conserved (w : World) : Prop where
  bare : ∀ b ∈ w.submissions, b.source = none → b.body = []
  whole : ∀ b ∈ w.submissions, b.stream ∉ w.resets →
    b.taken <+: b.body ∧ (b.ended = true → b.taken = b.body)
  next : ∀ b ∈ w.submissions, b.stream ∉ w.resets → b.live →
    ∀ p, b.source = some p → ∀ length,
      (readBody w.session p b.stream length).2 =
        ⟨(b.body.drop b.taken.length).take length,
          decide (b.body.length ≤ b.taken.length + length)⟩
  own : ∀ b ∈ w.submissions, ∀ p, b.source = some p → ∀ length,
    (readBody w.session p b.stream length).2.bytes = [] ∨
      ∃ c ∈ w.submissions, c.stream = b.stream ∧
        (readBody w.session p b.stream length).2.bytes <:+: c.body

/-- The worlds that runs reach in which nghttp2 keeps its promises and the
calls meet `allowed`. -/
abbrev Reached (isServer : Bool) (allowed : Call → World → Prop) :
    World → Prop :=
  Reachable step (fun w => w = fresh isServer)
    fun c w => Answers c w ∧ allowed c w

theorem BodiesInv.conserved {w : World} (h : BodiesInv w) : Conserved w where
  bare := h.bare
  whole := h.whole
  next b hb hreset hlive p hsource length :=
    readBody_holds length hsource
      (h.holds b hb ⟨hlive, by simp [hsource], hreset⟩)
  own b hb p _ length := by
    rcases readBody_bytes w.session p b.stream length with hnil |
      ⟨slot, hslot, hstream, hsub⟩
    · exact .inl hnil
    · have hpos := h.positive b hb
      obtain ⟨c, hc, hcs, hcb⟩ := h.slots.owned slot hslot (by omega)
      exact .inr ⟨c, hc, hcs.trans hstream, hcb ▸ hsub⟩

theorem reached_bodiesInv {isServer : Bool} {w : World}
    (h : Reached isServer StreamFree w) : BodiesInv w :=
  h.invariant (fun _ heq => heq ▸ bodiesInv_fresh isServer)
    fun _ _ _ hinv hallowed hstep =>
      bodiesInv_step hinv hallowed.1 hallowed.2 hstep

/-- A refused submission accepts nothing and resets nothing. -/
theorem refused_submissions {c : Call} {w w' : World} (hrefused : Refused c w)
    (hstep : step c w = some w') :
    w'.submissions = w.submissions ∧ w'.resets = w.resets := by
  cases c with
  | submit blob words memory reply =>
    obtain ⟨e, he⟩ := hrefused
    cases hstep
    rw [World.submitted, he]
    exact ⟨rfl, rfl⟩
  | submitData stream endStream memory dataExist reply =>
    obtain ⟨e, he⟩ := hrefused
    cases hstep
    rw [World.submitted, he]
    exact ⟨rfl, rfl⟩
  | stageBody _ _ => exact hrefused.elim
  | rstStream _ => exact hrefused.elim
  | streamClose _ => exact hrefused.elim
  | readBody _ _ => exact hrefused.elim

/-- **Bodies are conserved** in every run whose responses name no stream with a
body still in its slot, and a refused submission leaves the reads of every body
as they were. -/
theorem bodies_conserved {isServer : Bool} {w : World}
    (h : Reached isServer StreamFree w) :
    Conserved w ∧
      ∀ c w', Answers c w → StreamFree c w → Refused c w →
        step c w = some w' →
        ∀ b ∈ w.submissions, b.stream ∉ w.resets → b.live →
          ∀ p, b.source = some p → ∀ length,
            (readBody w'.session p b.stream length).2 =
              (readBody w.session p b.stream length).2 := by
  have hinv := reached_bodiesInv h
  refine ⟨hinv.conserved, fun c w' hanswers hfree hrefused hstep b hb hreset
    hlive p hsource length => ?_⟩
  have hinv' := (bodiesInv_step hinv hanswers hfree hstep).conserved
  obtain ⟨hsubs, hresets⟩ := refused_submissions hrefused hstep
  rw [hinv.conserved.next b hb hreset hlive p hsource length]
  exact hinv'.next b (hsubs ▸ hb) (hresets ▸ hreset) hlive p hsource length

/-- A response of one empty header field on stream 1 with a body of `n`
bytes. -/
def responseOne (n : UInt64) : Call :=
  .submit (List.replicate 16 0) ⟨1, 16, 0, n, 1, 16, 0⟩ ⟨true, true⟩ 0

/-- A server that has answered on stream 1 with two bytes. -/
def answeredOne : World :=
  ⟨⟨true, [⟨[1, 2], 0, 1⟩], []⟩, [⟨1, some 0, [1, 2], [], false, false⟩], []⟩

theorem reached_answeredOne : Reached true StreamFree answeredOne := by
  refine .step (responseOne 2)
    (.step (.stageBody [1, 2] true) (.start rfl) ⟨trivial, trivial⟩ rfl)
    ⟨fun id hid => ?_, fun _ _ _ _ => rfl⟩ (by decide)
  have hone : (1 : Int) = id := Except.ok.inj hid
  exact ⟨by omega, fun h => by cases h⟩

/-- The body of that answer is read as it was staged. -/
theorem bodies_conserved_answeredOne :
    Conserved answeredOne :=
  (bodies_conserved reached_answeredOne).1

/-- The same server after a second response of one byte on stream 1. -/
def answeredTwice : World :=
  ⟨⟨true, [⟨[3], 0, 1⟩], []⟩,
    [⟨1, some 0, [1, 2], [], false, false⟩,
      ⟨1, some 0, [3], [], false, false⟩], []⟩

/-- **A second response on a busy stream replaces the first one's body**: what
is read for the first is then the second. -/
theorem busy_response_replaces_body :
    ¬ ∀ w, Reached true (fun _ _ => True) w → Conserved w := by
  intro hall
  have hreached : Reached true (fun _ _ => True) answeredTwice := by
    refine .step (responseOne 1)
      (.step (.stageBody [3] true)
        (reached_answeredOne.mono fun _ _ h => ⟨h.1, trivial⟩)
        ⟨trivial, trivial⟩ rfl) ⟨fun id hid => ?_, trivial⟩ (by decide)
    have hone : (1 : Int) = id := Except.ok.inj hid
    exact ⟨by omega, fun h => by cases h⟩
  have hnext := (hall _ hreached).next _ List.mem_cons_self (by decide)
    (by decide) 0 rfl 2
  exact absurd hnext (by decide)

end Http2
end Beans
