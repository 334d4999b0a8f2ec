import Beans.Http2.WireObserver

/-!
# The observer and an obedient peer

The scan calls the observer once for each frame of the stream, however it is cut.
The observer accuses no peer that obeys the protocol as long as the window of its
record, which counts increments and no DATA, stays in range and no record is
given up that the peer still needs.

A record is given up only after nghttp2 closed its stream: a stream that is still open keeps
its record, however many are opened after it.

**Results.**
* `knows_run`: a run that does not close a stream keeps its record.
* `wire_observer_exact_and_quiet`: the scan is exact, and the observer never accuses a peer
  that obeys.
* `window_never_decreases`: increments past the largest window reset the stream of such a
  peer, whatever DATA was sent.
-/

namespace Beans
namespace Http2

open StepSystem

/-- A property of each frame of a list, in the state the frames before it
leave. -/
def Along (P : Frame → Observer → Peer → Prop) :
    List Frame → Observer → Peer → Prop
  | [], _, _ => True
  | f :: fs, o, p => P f o p ∧ Along P fs (o.wireFrame f) (p.send f)

/-- Every frame of a feed meets the property. -/
def EachFrame (P : Frame → Observer → Peer → Prop) (e : Event)
    (c : Connection) : Prop :=
  match e with
  | .feed data => Along P (c.received data) c.observer c.peer
  | _ => True

/-- The peer obeys with its next frame. -/
def Obedient (initial : Nat) (f : Frame) (o : Observer) (p : Peer) : Prop :=
  p.Obeys initial o.isServer f

/-- The observer can judge the frame: the increments it has counted stay below
the largest window without the DATA sent, the record of an opened stream is still
there or the stream is the last one, and a PRIORITY frame is well formed. -/
def Judged (f : Frame) (o : Observer) (p : Peer) : Prop :=
  (f.type = 8 → f.stream ∈ p.opened →
    65535 + (p.counted f.stream + Observer.increment f : Int) ≤
      Observer.int32Max) ∧
  (f.type = 1 → o.isServer = true → f.stream ∈ p.opened →
    o.wireFind f.stream ≠ none ∨ o.lastPeerStream ≤ f.stream) ∧
  (f.type = 2 → f.stream ≠ 0 ∧
    ¬ (f.payloadLen = 5 ∧ f.first.length ≥ 4 ∧
      ((getU32be f.first % 2 ^ 31 : Nat) : Int) = f.stream))

/-- What the observer's records say is true of the peer. -/
structure ObserverInv (o : Observer) (p : Peer) : Prop where
  quiet : o.manualGoaway = false
  ended : ∀ r ∈ o.wireStreams, r.peerEnded = true ∨ r.resetReceived = true →
    r.stream ∈ p.ended
  window : ∀ r ∈ o.wireStreams, r.remoteWindow ≤ 65535 + p.counted r.stream
  opened : ∀ r ∈ o.wireStreams, r.stream ∈ p.opened
  last : o.lastPeerStream = 0 ∨ o.lastPeerStream ∈ p.opened

section Records

variable {o : Observer} {p p' : Peer} {i : Nat} {r : WireStream}

/-- The record found for a stream. -/
theorem wireFind_some {stream : Int} (h : o.wireFind stream = some i) :
    ∃ r ∈ o.wireStreams, o.wireStreams[i]? = some r ∧ r.stream = stream := by
  obtain ⟨r, hr, hkey⟩ := KeyedSlots.find_some h
  exact ⟨r, List.mem_of_getElem? hr, hr, hkey⟩

/-- A record after one was changed. -/
theorem mem_modify {l : List WireStream} {f : WireStream → WireStream}
    (h : r ∈ l.modify i f) :
    r ∈ l ∨ ∃ a, l[i]? = some a ∧ r = f a := by
  obtain ⟨j, hj⟩ := List.mem_iff_getElem?.mp h
  rw [List.getElem?_modify] at hj
  obtain ⟨a, ha, heq⟩ := Option.map_eq_some_iff.mp hj
  by_cases hij : i = j
  · subst hij
    rw [if_pos rfl] at heq
    exact .inr ⟨a, ha, heq.symm⟩
  · rw [if_neg hij] at heq
    exact .inl (heq ▸ List.mem_of_getElem? ha)

/-- A claim answers the place of the stream's record; the other records were
there before. -/
theorem wireClaim_spec {stream : Int} {o' : Observer}
    (h : o.wireClaim stream = some (i, o')) :
    (∀ r ∈ o'.wireStreams, r ∈ o.wireStreams ∨ r = .claimed stream) ∧
      (∀ r, o'.wireStreams[i]? = some r → r.stream = stream) ∧
      o'.manualGoaway = o.manualGoaway ∧ o'.outgoing = o.outgoing ∧
      o'.lastPeerStream = o.lastPeerStream ∧ o'.isServer = o.isServer := by
  rw [Observer.wireClaim] at h
  cases hfind : o.wireFind stream with
  | some j =>
    rw [hfind] at h
    cases h
    obtain ⟨r, -, hr, hkey⟩ := wireFind_some hfind
    refine ⟨fun r hr => .inl hr, fun a ha => ?_, rfl, rfl, rfl, rfl⟩
    cases hr.symm.trans ha
    exact hkey
  | none =>
    rw [hfind] at h
    simp only at h
    split at h
    · split at h
      · cases h
      · cases h
        refine ⟨fun r hr => ?_, fun r hr => ?_, rfl, rfl, rfl, rfl⟩
        · exact List.mem_or_eq_of_mem_set hr
        · rw [List.getElem?_set_self'] at hr
          obtain ⟨_, _, rfl⟩ := Option.map_eq_some_iff.mp hr
          rfl
    · cases h
      refine ⟨fun r hr => ?_, fun r hr => ?_, rfl, rfl, rfl, rfl⟩
      · simpa using hr
      · rw [List.getElem?_concat_length] at hr
        cases hr
        rfl

/-- The invariant reads the records, the last stream and the GOAWAY flag. -/
theorem ObserverInv.peer (h : ObserverInv o p)
    (hended : p.ended ⊆ p'.ended) (hopened : p.opened ⊆ p'.opened)
    (hcounted : ∀ k, p.counted k ≤ p'.counted k) : ObserverInv o p' where
  quiet := h.quiet
  ended r hr hend := hended (h.ended r hr hend)
  window r hr := by
    have := h.window r hr
    have := hcounted r.stream
    omega
  opened r hr := hopened (h.opened r hr)
  last := h.last.imp_right fun hmem => hopened hmem

/-- Changing one record. -/
theorem ObserverInv.setRecord (h : ObserverInv o p)
    {f : WireStream → WireStream}
    (hf : ∀ a ∈ o.wireStreams, o.wireStreams[i]? = some a →
      ((f a).peerEnded = true ∨ (f a).resetReceived = true →
        (f a).stream ∈ p.ended) ∧
      (f a).remoteWindow ≤ 65535 + p.counted (f a).stream ∧
      (f a).stream ∈ p.opened) : ObserverInv (o.setRecord i f) p where
  quiet := h.quiet
  ended r hr := by
    rcases mem_modify hr with hr | ⟨a, ha, rfl⟩
    · exact h.ended r hr
    · exact (hf a (List.mem_of_getElem? ha) ha).1
  window r hr := by
    rcases mem_modify hr with hr | ⟨a, ha, rfl⟩
    · exact h.window r hr
    · exact (hf a (List.mem_of_getElem? ha) ha).2.1
  opened r hr := by
    rcases mem_modify hr with hr | ⟨a, ha, rfl⟩
    · exact h.opened r hr
    · exact (hf a (List.mem_of_getElem? ha) ha).2.2
  last := h.last

end Records

/-- Nothing was queued. -/
def Quiet (o o' : Observer) : Prop :=
  o'.outgoing = o.outgoing ∧ o'.isServer = o.isServer

theorem Quiet.rfl {o : Observer} : Quiet o o := ⟨Eq.refl _, Eq.refl _⟩

section Send

variable {p : Peer} {f : Frame}

/-- A frame only adds to what the peer has done. -/
theorem ObserverInv.send {o : Observer} (h : ObserverInv o p) (f : Frame) :
    ObserverInv o (p.send f) := by
  have hmore : ∀ k n, p.counted k ≤ Peer.addTo p.counted f.stream n k := by
    intro k n
    rw [Peer.addTo, Function.update_apply]
    split
    · rename_i hk
      rw [hk]
      omega
    · exact Nat.le_refl _
  refine h.peer (fun k hk => ?_) (fun k hk => ?_) fun k => ?_
  · simp only [Peer.send]
    split_ifs <;> simp [hk]
  · simp only [Peer.send]
    split_ifs <;> simp [hk]
  · simp only [Peer.send]
    split_ifs <;> first | exact Nat.le_refl _ | exact hmore k _

theorem send_opened (htype : f.type = 1) : f.stream ∈ (p.send f).opened := by
  rw [Peer.send, if_pos htype]
  exact List.mem_cons_self

theorem send_ended (htype : f.type = 1 ∨ f.type = 0)
    (hend : f.flags &&& 1 ≠ 0) : f.stream ∈ (p.send f).ended := by
  rcases htype with htype | htype
  · simp only [Peer.send, htype, if_true, if_pos hend]
    exact List.mem_cons_self
  · simp only [Peer.send, htype, if_pos hend]
    exact List.mem_cons_self

theorem send_reset (htype : f.type = 3) : f.stream ∈ (p.send f).ended := by
  simp only [Peer.send, htype]
  exact List.mem_cons_self

theorem send_counted (htype : f.type = 8) (hopen : f.stream ∈ p.opened) :
    (p.send f).counted f.stream =
      p.counted f.stream + Observer.increment f := by
  simp only [Peer.send, htype, if_pos hopen]
  exact Function.update_self _ _ _

end Send

section Frame

variable {o : Observer} {p : Peer} {f : Frame} {i : Nat}

/-- `END_STREAM` is recorded of a stream that the peer has ended. -/
theorem ObserverInv.endStream (h : ObserverInv o p) {stream : Int}
    (hrecord : ∀ r, o.wireStreams[i]? = some r → r.stream = stream)
    {flags : UInt8} (hend : flags &&& 1 ≠ 0 → stream ∈ p.ended) :
    ObserverInv (o.endStream i flags) p ∧ Quiet o (o.endStream i flags) := by
  rw [Observer.endStream]
  split
  · rename_i hflag
    refine ⟨h.setRecord fun a ha hget => ?_, .rfl⟩
    rw [hrecord a hget]
    exact ⟨fun _ => hend hflag, hrecord a hget ▸ h.window a ha,
      hrecord a hget ▸ h.opened a ha⟩
  · exact ⟨h, .rfl⟩

/-- HEADERS of an obedient peer open a record or end one, and accuse nobody. -/
theorem onHeaders_obedient {initial : Nat} (h : ObserverInv o p)
    (htype : f.type = 1) (hob : Obedient initial f o p) (hj : Judged f o p)
    (hpos : 0 ≤ f.stream) :
    ObserverInv (o.onHeaders f) (p.send f) ∧ Quiet o (o.onHeaders f) := by
  have hsent := h.send f
  have hend : f.flags &&& 1 ≠ 0 → f.stream ∈ (p.send f).ended :=
    send_ended (.inl htype)
  by_cases hzero : f.stream = 0
  · simp only [Observer.onHeaders, if_pos hzero]
    exact ⟨hsent, .rfl⟩
  obtain ⟨hnotEnded, horder⟩ := hob.1 htype hzero
  cases hfind : o.wireFind f.stream with
  | some i =>
    obtain ⟨r, hr, hget, hkey⟩ := wireFind_some hfind
    have hnone : ¬ (r.peerEnded = true ∨ r.resetReceived = true) :=
      fun hor => hnotEnded (hkey ▸ h.ended r hr hor)
    have hreset : ¬ r.resetReceived = true := fun h => hnone (.inr h)
    have hended : ¬ r.peerEnded = true := fun h => hnone (.inl h)
    simp only [Observer.onHeaders, if_neg hzero, hfind, hget, if_neg hreset,
      if_neg hended]
    refine hsent.endStream (fun a ha => ?_) hend
    cases hget.symm.trans ha
    exact hkey
  | none =>
    have hinorder : ¬ (o.isServer = true ∧ f.stream < o.lastPeerStream) := by
      rintro ⟨hserver, hlt⟩
      rcases horder hserver with hopened | hnew
      · rcases hj.2.1 htype hserver hopened with hne | hle
        · exact hne hfind
        · omega
      · rcases h.last with hlast | hlast
        · omega
        · have := hnew _ hlast
          omega
    simp only [Observer.onHeaders, if_neg hzero, hfind, if_neg hinorder]
    cases hclaim : o.wireClaim f.stream with
    | none =>
      exact ⟨⟨hsent.quiet, hsent.ended, hsent.window, hsent.opened,
        hsent.last⟩, .rfl⟩
    | some pair =>
      obtain ⟨i, o'⟩ := pair
      obtain ⟨hmem, hplace, hgoaway, hout, hlast, hserver⟩ :=
        wireClaim_spec hclaim
      have hinv : ObserverInv o' (p.send f) := by
        refine ⟨hgoaway.trans hsent.quiet, fun r hr hor => ?_,
          fun r hr => ?_, fun r hr => ?_, hlast ▸ hsent.last⟩
        · rcases hmem r hr with hr | rfl
          · exact hsent.ended r hr hor
          · rcases hor with hor | hor <;> cases hor
        · rcases hmem r hr with hr | rfl
          · exact hsent.window r hr
          · simp only [WireStream.claimed]
            omega
        · rcases hmem r hr with hr | rfl
          · exact hsent.opened r hr
          · exact send_opened htype
      simp only
      split
      · have hinv' : ObserverInv { o' with lastPeerStream := f.stream }
            (p.send f) :=
          { hinv with last := .inr (send_opened htype) }
        obtain ⟨hdone, hquiet⟩ := hinv'.endStream hplace hend
        exact ⟨hdone, hquiet.1.trans hout, hquiet.2.trans hserver⟩
      · obtain ⟨hdone, hquiet⟩ := hinv.endStream hplace hend
        exact ⟨hdone, hquiet.1.trans hout, hquiet.2.trans hserver⟩

/-- A record counts the increments that the peer has sent. -/
theorem onWindowUpdate_obedient (h : ObserverInv o p) (htype : f.type = 8)
    (hj : Judged f o p) {r : WireStream} (hget : o.wireStreams[i]? = some r)
    (hkey : r.stream = f.stream) :
    ObserverInv (o.onWindowUpdate f i r) (p.send f) ∧
      Quiet o (o.onWindowUpdate f i r) := by
  have hsent := h.send f
  have hr := List.mem_of_getElem? hget
  have hopen : f.stream ∈ p.opened := hkey ▸ h.opened r hr
  have hmax := hj.1 htype hopen
  have hcount := h.window r hr
  have hnew := send_counted htype hopen
  rw [hkey] at hcount
  have hroom : ¬ r.remoteWindow >
      Observer.int32Max - Observer.increment f := by omega
  rw [Observer.onWindowUpdate]
  by_cases hzero : Observer.increment f = 0
  · rw [if_pos hzero]
    exact ⟨hsent, .rfl⟩
  · rw [if_neg hzero, if_neg hroom]
    refine ⟨hsent.setRecord fun a ha hget' => ?_, .rfl⟩
    cases hget.symm.trans hget'
    refine ⟨hsent.ended r hr, ?_, hsent.opened r hr⟩
    have hsum : r.remoteWindow + Observer.increment f ≤
        65535 + (p.send f).counted f.stream := by
      rw [hnew]
      omega
    rw [← hkey] at hsum
    exact hsum

/-- **An obedient, judgeable frame is not answered**, and the records stay true
of the peer. -/
theorem wireFrame_obedient {initial : Nat} (h : ObserverInv o p)
    (hob : Obedient initial f o p) (hj : Judged f o p) (hpos : 0 ≤ f.stream) :
    ObserverInv (o.wireFrame f) (p.send f) ∧ Quiet o (o.wireFrame f) := by
  have hsent := h.send f
  have hkeep : ObserverInv o (p.send f) ∧ Quiet o o := ⟨hsent, .rfl⟩
  have found : ∀ {i : Nat},
      (if f.stream = 0 then none else o.wireFind f.stream) = some i →
      f.stream ≠ 0 ∧ ∃ r ∈ o.wireStreams, o.wireStreams[i]? = some r ∧
        r.stream = f.stream := by
    intro i hi
    split at hi
    · cases hi
    · rename_i hzero
      exact ⟨hzero, wireFind_some hi⟩
  simp only [Observer.wireFrame]
  by_cases hheaders : f.type = 1
  · rw [if_pos hheaders]
    exact onHeaders_obedient h hheaders hob hj hpos
  rw [if_neg hheaders]
  by_cases hdata : f.type = 0
  · rw [if_pos hdata]
    split
    · exact hkeep
    · rename_i i hi
      obtain ⟨-, r, hr, hget, hkey⟩ := found hi
      have hnone : ¬ (r.resetReceived = true ∨ r.peerEnded = true) :=
        fun hor => hob.2.1 hdata (hkey ▸ h.ended r hr hor.symm)
      simp only [hget, Observer.onData, if_neg hnone]
      refine hsent.endStream (fun a ha => ?_) (send_ended (.inr hdata))
      cases hget.symm.trans ha
      exact hkey
  rw [if_neg hdata]
  by_cases hreset : f.type = 3
  · rw [if_pos hreset]
    split
    · exact hkeep
    · rename_i i hi
      obtain ⟨-, r, hr, hget, hkey⟩ := found hi
      refine ⟨hsent.setRecord fun a ha hget' => ?_, .rfl⟩
      cases hget.symm.trans hget'
      exact ⟨fun _ => hkey ▸ send_reset hreset, hsent.window r hr,
        hsent.opened r hr⟩
  rw [if_neg hreset]
  by_cases hpriority : f.type = 2
  · obtain ⟨hzero, hself⟩ := hj.2.2 hpriority
    rw [if_pos hpriority, Observer.onPriority, if_neg hzero, if_neg hself]
    exact hkeep
  rw [if_neg hpriority]
  split
  · rename_i hwindow
    split
    · exact hkeep
    · rename_i i hi
      obtain ⟨-, r, hr, hget, hkey⟩ := found hi
      simp only [hget]
      exact onWindowUpdate_obedient h hwindow.1 hj hget hkey
  · exact hkeep

end Frame

/-- Streams of frames are not negative. -/
theorem parseFrames_stream (bytes : List UInt8) :
    ∀ f ∈ (parseFrames bytes).1, 0 ≤ f.stream := by
  induction bytes using parseFrames.induct with
  | case1 bytes h =>
    rw [parseFrames_short h]
    intro f hf
    cases hf
  | case2 bytes h ih =>
    rw [parseFrames, if_neg h]
    intro f hf
    rcases List.mem_cons.mp hf with rfl | hf
    · exact Int.natCast_nonneg _
    · exact ih f hf

/-- What one frame preserves, a list of frames preserves. -/
theorem callAll_obedient {initial : Nat} {frames : List Frame} {o : Observer}
    {p : Peer} (h : ObserverInv o p)
    (halong : Along (fun f o p => Obedient initial f o p ∧ Judged f o p)
      frames o p) (hpos : ∀ f ∈ frames, 0 ≤ f.stream) :
    ObserverInv (callAll Observer.wireFrame frames o)
        (callAll (fun f p => p.send f) frames p) ∧
      Quiet o (callAll Observer.wireFrame frames o) := by
  induction frames generalizing o p with
  | nil => exact ⟨h, .rfl⟩
  | cons f frames ih =>
    obtain ⟨⟨hob, hj⟩, hmore⟩ := halong
    obtain ⟨hinv, hquiet⟩ :=
      wireFrame_obedient h hob hj (hpos f List.mem_cons_self)
    obtain ⟨hinv', hquiet'⟩ :=
      ih hinv hmore fun g hg => hpos g (List.mem_cons_of_mem f hg)
    exact ⟨hinv', hquiet'.1.trans hquiet.1, hquiet'.2.trans hquiet.2⟩

/-- The number of preface bytes before the first frame. -/
def prefaceLength (isServer : Bool) : Nat := if isServer then 24 else 0

structure ConnectionInv (isServer : Bool) (c : Connection) : Prop where
  side : c.observer.isServer = isServer
  stands : c.scan.Stands (prefaceLength isServer) c.peer.stream
  records : ObserverInv c.observer c.peer

/-- Every frame so far was obedient and could be judged. -/
def Conforms (initial : Nat) : Event → Connection → Prop :=
  EachFrame fun f o p => Obedient initial f o p ∧ Judged f o p

section Steps

variable {isServer : Bool} {initial : Nat} {c c' : Connection}

theorem connectionInv_fresh (isServer : Bool) :
    ConnectionInv isServer (.fresh isServer) where
  side := rfl
  stands := Scan.stands_fresh isServer
  records := ⟨rfl, by simp [Connection.fresh, Observer.fresh],
    by simp [Connection.fresh, Observer.fresh],
    by simp [Connection.fresh, Observer.fresh], .inl rfl⟩

/-- A conforming feed queues nothing. -/
theorem ConnectionInv.feed (h : ConnectionInv isServer c) (data : List UInt8)
    (hconforms : Conforms initial (.feed data) c)
    (hstep : c.step (.feed data) = some c') :
    ConnectionInv isServer c' ∧ Quiet c.observer c'.observer := by
  cases hstep
  have hn : (if c.observer.isServer then 24 else 0) =
      prefaceLength isServer := by
    rw [h.side]
    rfl
  have hframes : c.received data =
      completed (prefaceLength isServer) c.peer.stream data := by
    rw [Connection.received, hn]
  obtain ⟨hcalls, hthere⟩ :=
    wireScan_exact Observer.wireFrame h.stands data c.observer
  obtain ⟨hinv, hquiet⟩ := callAll_obedient h.records hconforms
    (by rw [hframes]; exact parseFrames_stream _)
  rw [← hframes] at hcalls
  rw [← hcalls] at hinv hquiet
  refine ⟨⟨hquiet.2.trans h.side, hthere, ?_⟩, hquiet⟩
  exact hinv.peer (List.Subset.refl _) (List.Subset.refl _)
    fun _ => Nat.le_refl _

theorem ConnectionInv.step (h : ConnectionInv isServer c) {e : Event}
    (hconforms : Conforms initial e c) (hstep : c.step e = some c') :
    ConnectionInv isServer c' := by
  cases e with
  | feed data => exact (h.feed data hconforms hstep).1
  | sendData stream length =>
    cases hstep
    exact ⟨h.side, h.stands, h.records.peer (List.Subset.refl _)
      (List.Subset.refl _) fun _ => Nat.le_refl _⟩
  | streamClose stream =>
    cases hstep
    simp only [Observer.onStreamClose]
    split
    · exact h
    · rename_i i hfind
      exact ⟨h.side, h.stands, h.records.setRecord fun a ha _ =>
        ⟨h.records.ended a ha, h.records.window a ha,
          h.records.opened a ha⟩⟩
  | outgoing bytes =>
    cases hstep
    exact ⟨h.side, h.stands, ⟨h.records.quiet, h.records.ended,
      h.records.window, h.records.opened, h.records.last⟩⟩

end Steps

/-- The observer has an open record of the stream. -/
def Observer.Knows (o : Observer) (stream : Int) : Prop :=
  ∃ r ∈ o.wireStreams, r.stream = stream ∧ r.active = true

section Knows

variable {o o' : Observer} {stream : Int} {i : Nat}

/-- The oldest record is a closed one. -/
theorem oldestFrom_closed {j : Nat} {s : Int} {l : List WireStream} {best : Option (Nat × Int)}
    (h : Observer.oldestFrom i l best = some (j, s)) :
    best = some (j, s) ∨ ∃ k r, j = i + k ∧ l[k]? = some r ∧ r.active = false := by
  induction l generalizing i best with
  | nil => exact .inl h
  | cons r l ih =>
    rw [Observer.oldestFrom] at h
    rcases ih h with hbest | ⟨k, a, rfl, ha, hclosed⟩
    · split_ifs at hbest with hactive hless
      · exact .inl hbest
      · cases hbest
        exact .inr ⟨0, r, rfl, rfl, by simpa using hactive⟩
      · exact .inl hbest
    · exact .inr ⟨k + 1, a, by omega, ha, hclosed⟩

/-- A claim gives up no open record. -/
theorem wireClaim_knows {claimed : Int} (h : o.wireClaim claimed = some (i, o'))
    (hknows : o.Knows stream) : o'.Knows stream := by
  obtain ⟨r, hr, hkey, hactive⟩ := hknows
  refine ⟨r, ?_, hkey, hactive⟩
  rw [Observer.wireClaim] at h
  split at h
  · cases h
    exact hr
  split_ifs at h
  · split at h
    · cases h
    · rename_i j s hoverwritten
      cases h
      obtain ⟨q, hq⟩ := List.mem_iff_getElem?.mp hr
      refine List.mem_of_getElem? (i := q) ((List.getElem?_set_ne ?_).trans hq)
      rintro rfl
      rcases oldestFrom_closed hoverwritten with hnone | ⟨k, a, rfl, ha, hclosed⟩
      · cases hnone
      · rw [Nat.zero_add] at hq
        cases hq.symm.trans ha
        rw [hactive] at hclosed
        cases hclosed
  · cases h
    exact List.mem_append_left _ hr

/-- A change that leaves the stream's record open. -/
theorem Observer.Knows.setRecord (h : o.Knows stream) {f : WireStream → WireStream}
    (hf : ∀ r, o.wireStreams[i]? = some r → r.stream = stream →
      (f r).stream = stream ∧ (f r).active = r.active) :
    (o.setRecord i f).Knows stream := by
  obtain ⟨r, hr, hkey, hactive⟩ := h
  obtain ⟨q, hq⟩ := List.mem_iff_getElem?.mp hr
  have hget : (o.setRecord i f).wireStreams[q]? =
      some (if i = q then f r else r) := by
    rw [Observer.setRecord, List.getElem?_modify, hq]
    split_ifs <;> rfl
  refine ⟨_, List.mem_of_getElem? hget, ?_⟩
  split_ifs with hiq
  · obtain ⟨hstream, hstays⟩ := hf r (hiq ▸ hq) hkey
    exact ⟨hstream, hstays.trans hactive⟩
  · exact ⟨hkey, hactive⟩

theorem Observer.Knows.endStream (h : o.Knows stream) (flags : UInt8) :
    (o.endStream i flags).Knows stream := by
  rw [Observer.endStream]
  split_ifs
  · exact h.setRecord fun _ _ hkey => ⟨hkey, rfl⟩
  · exact h

theorem Observer.Knows.connectionError (h : o.Knows stream) (code : Nat) :
    (o.connectionError code).Knows stream := by
  rw [Observer.connectionError]
  split_ifs <;> exact h

theorem onHeaders_knows (f : Frame) (h : o.Knows stream) : (o.onHeaders f).Knows stream := by
  rw [Observer.onHeaders]
  split
  · split
    · exact h
    · refine Observer.Knows.endStream ?_ _
      split_ifs
      · exact h
      · exact h.connectionError _
      · exact h
  · split_ifs
    · exact h
    · exact h.connectionError _
    · split
      · exact h
      · rename_i hclaim
        have hclaimed := wireClaim_knows hclaim h
        refine Observer.Knows.endStream ?_ _
        split_ifs <;> exact hclaimed

/-- No frame makes the observer give up an open record. -/
theorem wireFrame_knows (f : Frame) (h : o.Knows stream) : (o.wireFrame f).Knows stream := by
  simp only [Observer.wireFrame]
  generalize (if f.stream = 0 then none else o.wireFind f.stream) = state
  split_ifs with hheaders hdata hreset hpriority hwindow
  · exact onHeaders_knows f h
  · split
    · exact h
    · split
      · exact h
      · refine Observer.Knows.endStream ?_ _
        split_ifs <;> exact h
  · split
    · exact h
    · exact h.setRecord fun _ _ hkey => ⟨hkey, rfl⟩
  · rw [Observer.onPriority]
    split_ifs
    · exact h.connectionError _
    · exact h
    · exact h
  · split
    · exact h
    · split
      · exact h
      · rw [Observer.onWindowUpdate]
        split_ifs
        · exact h
        · exact Observer.Knows.setRecord h fun _ _ hkey => ⟨hkey, rfl⟩
        · exact h.setRecord fun _ _ hkey => ⟨hkey, rfl⟩
  · exact h

/-- What every call of a frame preserves, the scan preserves. -/
theorem wireScan_preserves {β : Type} {P : β → Prop} {call : Frame → β → β}
    (hcall : ∀ f b, P b → P (call f b)) {t : Scan × β} (h : P t.2) (data : List UInt8) :
    P (wireScan call t data).2 := by
  have hloop : ∀ n (t : Scan × β) data, P t.2 → P (scanLoop call n t data).2 := by
    intro n
    induction n with
    | zero => exact fun t data h => h
    | succ n ih =>
      intro t data h
      cases data with
      | nil => exact h
      | cons b data =>
        rw [scanLoop]
        refine ih _ _ ?_
        cases (scanTurn t.1 (b :: data)).2.1 with
        | none => exact h
        | some f => exact hcall f t.2 h
  exact hloop _ _ _ h

/-- The record of a stream stays open until nghttp2 closes the stream, so HEADERS on it
find their record, however many streams were opened meanwhile. -/
theorem knows_run {events : List Event} {c c' : Connection}
    (hopen : ∀ e ∈ events, e ≠ .streamClose stream)
    (hrun : StepSystem.run Connection.step events c = some c')
    (h : c.observer.Knows stream) :
    c'.observer.Knows stream ∧ c'.observer.wireFind stream ≠ none := by
  induction events generalizing c with
  | nil =>
    cases hrun
    obtain ⟨r, hr, hkey, -⟩ := id h
    exact ⟨h, fun hnone => KeyedSlots.find_none_iff.mp hnone r hr hkey⟩
  | cons e events ih =>
    obtain ⟨d, hd, hrest⟩ := Option.bind_eq_some_iff.mp hrun
    refine ih (fun e' he' => hopen e' (List.mem_cons_of_mem e he')) hrest ?_
    cases e with
    | feed data =>
      cases hd
      exact @wireScan_preserves _ (Observer.Knows · stream) _
        (fun f _ => wireFrame_knows f) (c.scan, c.observer) h data
    | sendData | outgoing =>
      cases hd
      exact h
    | streamClose closed =>
      cases hd
      have hother : closed ≠ stream := fun heq =>
        hopen _ List.mem_cons_self (heq ▸ rfl)
      simp only [Observer.onStreamClose]
      split
      · exact h
      · rename_i i hfind
        obtain ⟨a, -, ha, hclosed⟩ := wireFind_some hfind
        refine h.setRecord fun r hr hkey => ?_
        cases ha.symm.trans hr
        exact absurd (hclosed.symm.trans hkey) hother

end Knows

/-- The connections that runs reach whose feeds meet the property. -/
abbrev ConnectionReached (isServer : Bool)
    (allowed : Event → Connection → Prop) : Connection → Prop :=
  Reachable Connection.step (fun c => c = .fresh isServer) allowed

/-- The observer has accused nobody and the next allowed feed makes it accuse
nobody. -/
def NeverAccuses (allowed : Event → Connection → Prop) (c : Connection) : Prop :=
  c.observer.manualGoaway = false ∧
    ∀ data c', allowed (.feed data) c → c.step (.feed data) = some c' →
      c'.observer.outgoing = c.observer.outgoing

/-- **The scan is exact** for every stream and every way to cut it, **and the
observer never accuses** a peer that obeys, in every run in which it can judge
each frame. -/
theorem wire_observer_exact_and_quiet {isServer : Bool} {initial : Nat}
    {c : Connection} (h : ConnectionReached isServer (Conforms initial) c) :
    (∀ (β : Type) (call : Frame → β → β) (b : β) (feeds : List (List UInt8)),
      (feeds.foldl (wireScan call) (Scan.fresh isServer, b)).2 =
        callAll call (parseFrames
          (feeds.flatten.drop (prefaceLength isServer))).1 b) ∧
      NeverAccuses (Conforms initial) c := by
  refine ⟨fun β call b feeds => ?_, ?_⟩
  · have hexact := feeds_exact call (prefaceLength isServer)
      (Scan.stands_fresh isServer) feeds b
    rwa [List.drop_nil, parseFrames_short (.inl (by decide)),
      List.nil_append] at hexact
  · have hinv : ConnectionInv isServer c :=
      h.invariant (fun _ heq => heq ▸ connectionInv_fresh isServer)
        fun _ _ _ hinv hallowed hstep => hinv.step hallowed hstep
    exact ⟨hinv.records.quiet, fun data c' hconforms hstep =>
      (hinv.feed data hconforms hstep).2.1⟩

/-- A stream of whole frames is parsed to the end. -/
theorem parseFrames_flatten {frames : List (List UInt8)}
    (h : ∀ bytes ∈ frames, Whole bytes) :
    parseFrames frames.flatten = (frames.map frameAt, []) := by
  induction frames with
  | nil => exact parseFrames_short (.inl (by decide))
  | cons bytes frames ih =>
    rw [List.flatten_cons, parseFrames_whole (h bytes List.mem_cons_self),
      ih fun b hb => h b (List.mem_cons_of_mem bytes hb)]
    rfl

/-- A client's feed of one frame after whole frames. -/
theorem completed_frame {frames : List (List UInt8)} {bytes : List UInt8}
    (h : ∀ b ∈ frames, Whole b) (hbytes : Whole bytes) :
    completed 0 frames.flatten bytes = [frameAt bytes] := by
  have hone := @parseFrames_flatten [bytes] (by simpa using hbytes)
  rw [List.flatten_singleton] at hone
  rw [completed, List.drop_zero, parseFrames_flatten h, Nat.zero_sub,
    List.drop_zero, List.nil_append, hone]
  rfl

/-- HEADERS on stream 1, an increment of `2^31 - 1 - 65535` and one of 1. -/
def headersOne : List UInt8 := [0, 0, 0, 1, 4, 0, 0, 0, 1]
def updateMost : List UInt8 := [0, 0, 4, 8, 0, 0, 0, 0, 1, 127, 255, 0, 0]
def updateByOne : List UInt8 := [0, 0, 4, 8, 0, 0, 0, 0, 1, 0, 0, 0, 1]

/-- The scan of a client between two frames on stream 1. -/
def scanAfter (first : List UInt8) (len : Nat) (type flags : UInt8) : Scan :=
  ⟨0, [], first, 0, len, type, flags, 1⟩

/-- A client whose peer has sent `headersOne`. -/
def headersSeen : Connection :=
  ⟨scanAfter [] 0 1 4,
    { Observer.fresh false with
      wireStreams := [.claimed 1]
      lastPeerStream := 1 },
    ⟨headersOne, [1], [], fun _ => 0, fun _ => 0, fun _ => 0⟩⟩

theorem headersSeen_received :
    (Connection.fresh false).received headersOne = [frameAt headersOne] :=
  @completed_frame [] _ (by simp) (by decide)

theorem step_headersOne :
    (Connection.fresh false).step (.feed headersOne) = some headersSeen := by
  simp only [Connection.step, headersSeen_received]
  rfl

theorem conforms_headersOne (initial : Nat) :
    Conforms initial (.feed headersOne) (.fresh false) := by
  simp only [Conforms, EachFrame, headersSeen_received]
  exact ⟨⟨⟨fun _ _ => ⟨List.not_mem_nil, nofun⟩, (absurd · (by decide)),
    (absurd · (by decide))⟩, (absurd · (by decide)), fun _ => nofun,
    (absurd · (by decide))⟩, trivial⟩

/-- The preface of a client, HEADERS on stream 1, an increment up to the largest window
and the trailers that end the stream. -/
def trailersOne : List UInt8 := [0, 0, 0, 1, 5, 0, 0, 0, 1]
def requestBytes : List UInt8 :=
  [80, 82, 73, 32, 42, 32, 72, 84, 84, 80, 47, 50, 46, 48, 13, 10, 13, 10, 83, 77, 13, 10, 13,
    10] ++ [headersOne, updateMost, trailersOne].flatten

theorem requestBytes_received :
    (Connection.fresh true).received requestBytes =
      [frameAt headersOne, frameAt updateMost, frameAt trailersOne] := by
  have hframes := @parseFrames_flatten [headersOne, updateMost, trailersOne] (by decide)
  have hstart : parseFrames (([] : List UInt8).drop 24) = ([], []) :=
    parseFrames_short (.inl (by decide))
  simp only [Connection.received, completed, Connection.fresh, Observer.fresh, if_true, hstart,
    List.nil_append]
  exact congrArg Prod.fst hframes

theorem conforms_requestBytes : Conforms 65535 (.feed requestBytes) (.fresh true) := by
  simp only [Conforms, EachFrame, requestBytes_received]
  refine ⟨⟨⟨?_, ?_, ?_⟩, ?_, ?_, ?_⟩, ⟨⟨?_, ?_, ?_⟩, ?_, ?_, ?_⟩, ⟨⟨?_, ?_, ?_⟩, ?_, ?_, ?_⟩,
    trivial⟩
  all_goals decide +kernel

/-- A server that has read the request has accused nobody. -/
theorem wire_observer_exact_and_quiet_request :
    ∃ c, (Connection.fresh true).step (.feed requestBytes) = some c ∧
      NeverAccuses (Conforms 65535) c ∧ c.observer.outgoing = [] ∧
      c.observer.wireStreams.map WireStream.remoteWindow = [2147483647] := by
  refine ⟨_, rfl, (@wire_observer_exact_and_quiet true 65535 _
    (.step _ (.start rfl) conforms_requestBytes rfl)).2, ?_⟩
  decide +kernel

/-- The client after `updateMost` and a first kilobyte of its own DATA. -/
def windowFull : Connection :=
  ⟨scanAfter [127, 255, 0, 0] 4 8 0,
    { Observer.fresh false with
      wireStreams := [{ WireStream.claimed 1 with remoteWindow := 2147483647 }]
      lastPeerStream := 1 },
    ⟨headersOne ++ updateMost, [1], [],
      Peer.addTo (fun _ => 0) 1 2147418112,
      Peer.addTo (fun _ => 0) 1 2147418112, Peer.addTo (fun _ => 0) 1 1000⟩⟩

theorem headersSeen_updateMost :
    headersSeen.received updateMost = [frameAt updateMost] :=
  @completed_frame [headersOne] _ (by decide) (by decide)

theorem windowFull_updateByOne :
    windowFull.received updateByOne = [frameAt updateByOne] :=
  @completed_frame [headersOne, updateMost] _ (by decide) (by decide)

/-- The peer obeys, as far as its frames say. -/
abbrev ObeysOnly (initial : Nat) : Event → Connection → Prop :=
  EachFrame (Obedient initial)

theorem reached_windowFull :
    ConnectionReached false (ObeysOnly 65535) windowFull := by
  have hheaders : ConnectionReached false (ObeysOnly 65535) headersSeen := by
    refine .step _ (.start rfl) ?_ step_headersOne
    have hconforms := conforms_headersOne 65535
    simp only [Conforms, EachFrame, headersSeen_received] at hconforms
    simp only [EachFrame, headersSeen_received]
    exact ⟨hconforms.1.1, trivial⟩
  have hpeer : headersSeen.peer.send (frameAt updateMost) =
      ⟨headersOne, [1], [], Peer.addTo (fun _ => 0) 1 2147418112,
        Peer.addTo (fun _ => 0) 1 2147418112, fun _ => 0⟩ := by
    have hstream : (frameAt updateMost).stream = 1 := by decide
    have hincrement : Observer.increment (frameAt updateMost) =
        2147418112 := by decide
    simp only [Peer.send, hstream, hincrement]
    rfl
  have hscan : wireScan Observer.wireFrame
      (headersSeen.scan, headersSeen.observer) updateMost =
        (windowFull.scan, windowFull.observer) := by decide
  have hsent : ∃ c, headersSeen.step (.feed updateMost) = some c ∧
      c.step (.sendData 1 1000) = some windowFull := by
    simp only [Connection.step, headersSeen_updateMost, hscan, callAll,
      List.foldl_cons, List.foldl_nil, hpeer]
    exact ⟨_, rfl, rfl⟩
  obtain ⟨c, hfeed, hsend⟩ := hsent
  refine .step (.sendData 1 1000) (.step _ hheaders ?_ hfeed) trivial hsend
  simp only [EachFrame, headersSeen_updateMost]
  exact ⟨⟨(absurd · (by decide)), (absurd · (by decide)),
    fun _ _ => by decide⟩, trivial⟩

/-- **The observer resets a stream of an obedient peer** once the increments on
it have passed the largest window, however much DATA was sent meanwhile. -/
theorem window_never_decreases :
    ¬ ∀ c, ConnectionReached false (ObeysOnly 65535) c →
      NeverAccuses (ObeysOnly 65535) c := by
  intro hall
  have hobeys : ObeysOnly 65535 (.feed updateByOne) windowFull := by
    simp only [EachFrame, windowFull_updateByOne]
    exact ⟨⟨(absurd · (by decide)), (absurd · (by decide)),
      fun _ _ => by decide⟩, trivial⟩
  have hquiet := (hall windowFull reached_windowFull).2 updateByOne _ hobeys rfl
  exact absurd hquiet (by decide)

end Http2
end Beans
