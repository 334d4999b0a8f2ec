import Beans.Foundation.HeadedQueue
import Beans.Http2.WireObserver

/-!
# Bytes to the peer are whole units

Bytes leave a session through buffers of any size.  nghttp2 hands out one unit at a
time and cannot hand it out again, so the rest of a unit that does not fit is held,
in one queue with the frames of the observer.  Every unit and every frame goes out
whole and in the order in which the session got it.  The observer's frames do not
wait for the preface of a client: those queued before anything was pulled go first.

**Results.**
* `outgoing_units`: what was pulled is a prefix of those units, whatever the sizes.
* `goaway_before_preface`: a client that answers a bad frame before its preface.
-/

namespace Beans
namespace Http2

open Observer (putU32be)

/-- What the session sends: a unit of nghttp2, or a frame of the observer. -/
inductive Outgoing where
  | unit (bytes : List UInt8)
  | frame (bytes : List UInt8)
deriving DecidableEq

namespace Outgoing

def bytes : Outgoing → List UInt8
  | unit bytes => bytes
  | frame bytes => bytes

end Outgoing

/-- nghttp2 as this side calls it.  A call reports the streams it closed;
`memSend` returns one whole unit, or nothing. -/
structure Nghttp2 (σ : Type*) where
  memSend : σ → List UInt8 × List ℤ × σ
  memRecv : List UInt8 → σ → List ℤ × σ

/-- The fields of `beans_h2_session` that outgoing bytes depend on; `log` has the
units and frames in the order in which the session got them. -/
structure PumpSession (σ : Type*) where
  scan : Scan
  observer : Observer
  outgoing : HeadedQueue UInt8
  nghttp2 : σ
  log : List Outgoing

namespace PumpSession

variable {σ : Type*} (api : Nghttp2 σ)

def fresh (isServer : Bool) (start : σ) : PumpSession σ :=
  ⟨.fresh isServer, .fresh isServer, .empty, start, []⟩

/-- `beans_h2_on_stream_close` for each stream that a call closed. -/
def closeStreams (streams : List ℤ) (s : PumpSession σ) : PumpSession σ :=
  { s with observer := streams.foldl Observer.onStreamClose s.observer }

/-- `nghttp2_session_mem_send`. -/
def memSend (s : PumpSession σ) : List UInt8 × PumpSession σ :=
  let (chunk, closed, nghttp2) := api.memSend s.nghttp2
  (chunk, closeStreams closed
    { s with
      nghttp2
      log := if chunk = [] then s.log else s.log ++ [.unit chunk] })

/-- `beans_h2_wire_frame`, whose frames go to the session's own queue. -/
def wireFrame (f : Frame) (s : PumpSession σ) : PumpSession σ :=
  let o := ({ s.observer with outgoing := [] } : Observer).wireFrame f
  if o.outgoing = [] then { s with observer := o }
  else
    { s with
      observer := { o with outgoing := [] }
      outgoing := s.outgoing.reclaim.push o.outgoing
      log := s.log ++ [.frame o.outgoing] }

/-- `beans_h2_feed`. -/
def feed (data : List UInt8) (s : PumpSession σ) : PumpSession σ :=
  if data = [] then s
  else
    let (scan, s) := wireScan wireFrame (s.scan, s) data
    let (closed, nghttp2) := api.memRecv data s.nghttp2
    closeStreams closed { s with scan, nghttp2 }

/-- The loop of `beans_h2_pull_outgoing`, which writes a byte at least in each turn. -/
def pullUnits : (turns room : ℕ) → PumpSession σ → List UInt8 × PumpSession σ
  | 0, _, s => ([], s)
  | turns + 1, room, s =>
    if room = 0 then ([], s)
    else
      let (chunk, s) := memSend api s
      if chunk = [] then ([], s)
      else
        let take := min chunk.length room
        if take < chunk.length then
          (chunk.take take, { s with outgoing := s.outgoing.push (chunk.drop take) })
        else
          let (rest, s) := pullUnits turns (room - take) s
          (chunk.take take ++ rest, s)

/-- `beans_h2_pull_outgoing`: the bytes that are written. -/
def pullOutgoing (cap : ℕ) (s : PumpSession σ) : List UInt8 × PumpSession σ :=
  if 0 < s.outgoing.size then
    let take := min s.outgoing.size cap
    let written := s.outgoing.held.take take
    let outgoing := s.outgoing.advance cap
    if outgoing.head = outgoing.data.length then
      let (rest, s) := pullUnits api cap (cap - take) { s with outgoing := .empty }
      (written ++ rest, s)
    else (written, { s with outgoing })
  else pullUnits api cap cap s

end PumpSession

/-- A call on a session; `submit` is any other call that reaches nghttp2. -/
inductive LineCall (σ : Type*) where
  | pull (cap : ℕ)
  | feed (data : List UInt8)
  | submit (change : σ → σ)

/-- A session and the bytes pulled from it. -/
structure Line (σ : Type*) where
  session : PumpSession σ
  pulled : List UInt8

namespace Line

variable {σ : Type*} (api : Nghttp2 σ)

def fresh (isServer : Bool) (start : σ) : Line σ :=
  ⟨.fresh isServer start, []⟩

/-- A pull writes at most `cap` bytes; a feed lets the peer's bytes in. -/
def step (line : Line σ) : LineCall σ → Line σ
  | .pull cap =>
    let (written, session) := line.session.pullOutgoing api cap
    ⟨session, line.pulled ++ written⟩
  | .feed data => ⟨line.session.feed api data, line.pulled⟩
  | .submit change =>
    ⟨{ line.session with nghttp2 := change line.session.nghttp2 }, line.pulled⟩

def run (line : Line σ) (calls : List (LineCall σ)) : Line σ :=
  calls.foldl (step api) line

end Line

/-- The frames that the observer sends: a RST_STREAM or a GOAWAY. -/
inductive ControlFrame : List UInt8 → Prop
  | reset (stream code : ℕ) :
      ControlFrame ([0, 0, 4, 3, 0] ++ putU32be stream ++ putU32be code)
  | goaway (last code : ℕ) :
      ControlFrame ([0, 0, 8, 7, 0, 0, 0, 0, 0] ++ putU32be last ++ putU32be code)

theorem ControlFrame.whole {bytes : List UInt8} (h : ControlFrame bytes) :
    Whole bytes := by
  cases h with
  | reset stream code => exact ⟨by simp [putU32be], by simp [putU32be, headerLength]⟩
  | goaway last code => exact ⟨by simp [putU32be], by simp [putU32be, headerLength]⟩

namespace Observer

/-- At most one frame is queued. -/
def Queues (o o' : Observer) : Prop :=
  o'.outgoing = o.outgoing ∨ ∃ bytes, ControlFrame bytes ∧ o'.outgoing = o.outgoing ++ bytes

variable {o o' : Observer}

theorem Queues.refl : Queues o o :=
  .inl rfl

theorem Queues.congr {p : Observer} (h : Queues o o') (hp : p.outgoing = o'.outgoing) :
    Queues o p := by
  rw [Queues, hp]
  exact h

theorem queues_streamError (stream : ℤ) (code : ℕ) :
    Queues o (o.streamError stream code) := by
  refine .inr ⟨_, .reset stream.toNat code, ?_⟩
  rw [streamError, List.append_assoc, List.append_assoc, List.append_assoc]

theorem queues_connectionError (code : ℕ) :
    Queues o (o.connectionError code) := by
  rw [connectionError]
  split_ifs
  · exact .refl
  · refine .inr ⟨_, .goaway o.lastPeerStream.toNat code, ?_⟩
    dsimp only
    rw [List.append_assoc, List.append_assoc, List.append_assoc]

theorem outgoing_endStream (i : ℕ) (flags : UInt8) :
    (o.endStream i flags).outgoing = o.outgoing := by
  rw [endStream]
  split_ifs
  · rfl
  · rfl

theorem outgoing_wireClaim {stream : ℤ} {i : ℕ} (h : o.wireClaim stream = some (i, o')) :
    o'.outgoing = o.outgoing := by
  rw [wireClaim] at h
  split at h
  · obtain ⟨-, rfl⟩ := Prod.mk.inj (Option.some.inj h)
    rfl
  · split_ifs at h
    · split at h
      · exact absurd h nofun
      · obtain ⟨-, rfl⟩ := Prod.mk.inj (Option.some.inj h)
        rfl
    · obtain ⟨-, rfl⟩ := Prod.mk.inj (Option.some.inj h)
      rfl

theorem queues_onHeaders (f : Frame) :
    Queues o (o.onHeaders f) := by
  rw [onHeaders]
  split
  · split
    · exact .refl
    · refine Queues.congr ?_ (outgoing_endStream _ _)
      split_ifs
      · exact queues_streamError _ _
      · exact queues_connectionError _
      · exact .refl
  · split_ifs with hzero hold
    · exact .refl
    · exact queues_connectionError _
    · split
      · exact .inl rfl
      · rename_i i o' hclaim
        refine .inl ?_
        rw [outgoing_endStream]
        split_ifs
        · exact @outgoing_wireClaim o o' _ _ hclaim
        · exact @outgoing_wireClaim o o' _ _ hclaim

theorem queues_onData (f : Frame) (i : ℕ) (r : WireStream) :
    Queues o (o.onData f i r) := by
  rw [onData]
  refine Queues.congr ?_ (outgoing_endStream _ _)
  split_ifs
  · exact queues_streamError _ _
  · exact .refl

theorem queues_onPriority (f : Frame) :
    Queues o (o.onPriority f) := by
  rw [onPriority]
  split_ifs
  · exact queues_connectionError _
  · exact queues_streamError _ _
  · exact .refl

theorem queues_onWindowUpdate (f : Frame) (i : ℕ) (r : WireStream) :
    Queues o (o.onWindowUpdate f i r) := by
  rw [onWindowUpdate]
  split_ifs
  · exact .refl
  · exact (queues_streamError _ _).congr rfl
  · exact .inl rfl

theorem queues_wireFrame (f : Frame) :
    Queues o (o.wireFrame f) := by
  rw [wireFrame]
  by_cases hheaders : f.type = 1
  · rw [if_pos hheaders]
    exact queues_onHeaders f
  rw [if_neg hheaders]
  by_cases hdata : f.type = 0
  · rw [if_pos hdata]
    split
    · exact .refl
    · split
      · exact .refl
      · exact queues_onData f _ _
  rw [if_neg hdata]
  by_cases hreset : f.type = 3
  · rw [if_pos hreset]
    split
    · exact .refl
    · exact .inl rfl
  rw [if_neg hreset]
  by_cases hpriority : f.type = 2
  · rw [if_pos hpriority]
    exact queues_onPriority f
  rw [if_neg hpriority]
  by_cases hwindow : f.type = 8 ∧ f.stream ≠ 0 ∧ f.payloadLen = 4 ∧ f.first.length = 4
  · rw [if_pos hwindow]
    split
    · exact .refl
    · split
      · exact .refl
      · exact queues_onWindowUpdate f _ _
  · rw [if_neg hwindow]
    exact .refl

end Observer

/-- The bytes of a list of units and frames. -/
def wire (log : List Outgoing) : List UInt8 :=
  log.flatMap Outgoing.bytes

theorem wire_append (log more : List Outgoing) :
    wire (log ++ more) = wire log ++ wire more :=
  List.flatMap_append

theorem wire_singleton (item : Outgoing) :
    wire [item] = item.bytes :=
  List.flatMap_singleton _ _

namespace PumpSession

variable {σ : Type*} {api : Nghttp2 σ} {s : PumpSession σ} {before : List UInt8}

/-- With `before` gone out, the rest of what the session got is held; the frames of
the observer are whole. -/
structure Sent (before : List UInt8) (s : PumpSession σ) : Prop where
  held : before ++ s.outgoing.held = wire s.log
  frames : ∀ bytes, .frame bytes ∈ s.log → ControlFrame bytes

/-- Nothing that the session got is forgotten. -/
def Extends (s s' : PumpSession σ) : Prop :=
  s.log <+: s'.log

theorem memSend_spec (s : PumpSession σ) :
    (memSend api s).2.outgoing = s.outgoing ∧
      (memSend api s).2.log =
        (if (memSend api s).1 = [] then s.log else s.log ++ [.unit (memSend api s).1]) :=
  ⟨rfl, rfl⟩

theorem memSend_extends (s : PumpSession σ) :
    s.Extends (memSend api s).2 := by
  rw [Extends, (@memSend_spec σ api s).2]
  split_ifs
  · exact List.prefix_refl _
  · exact List.prefix_append _ _

/-- A unit that nghttp2 returns goes out after everything before it. -/
theorem Sent.memSend (h : Sent before s) (hheld : s.outgoing.held = []) :
    before ++ (memSend api s).1 = wire (memSend api s).2.log ∧
      ∀ bytes, .frame bytes ∈ (PumpSession.memSend api s).2.log → ControlFrame bytes := by
  have hbefore : before = wire s.log := by
    rw [← h.held, hheld, List.append_nil]
  obtain ⟨-, hlog⟩ := @memSend_spec σ api s
  rw [hlog]
  split_ifs with hnone
  · rw [hnone, List.append_nil]
    exact ⟨hbefore, h.frames⟩
  · refine ⟨?_, fun bytes hbytes => ?_⟩
    · rw [wire_append, wire_singleton, ← hbefore]
      rfl
    · rcases List.mem_append.mp hbytes with hin | hin
      · exact h.frames bytes hin
      · exact absurd (List.mem_singleton.mp hin) nofun

/-- Units are pulled until the room is filled; the rest of the last one is held. -/
theorem Sent.pullUnits {turns room : ℕ} (h : Sent before s) (hheld : s.outgoing.held = []) :
    Sent (before ++ (pullUnits api turns room s).1) (PumpSession.pullUnits api turns room s).2 ∧
      (PumpSession.pullUnits api turns room s).1.length ≤ room ∧
      s.Extends (PumpSession.pullUnits api turns room s).2 := by
  induction turns generalizing room before s with
  | zero =>
    rw [PumpSession.pullUnits, List.append_nil]
    exact ⟨h, Nat.zero_le _, List.prefix_refl _⟩
  | succ turns ih =>
    rw [PumpSession.pullUnits]
    by_cases hroom : room = 0
    · rw [if_pos hroom, List.append_nil]
      exact ⟨h, Nat.zero_le _, List.prefix_refl _⟩
    rw [if_neg hroom]
    obtain ⟨hgone, hframes⟩ := @Sent.memSend σ api s before h hheld
    have hextends := @memSend_extends σ api s
    have hqueue := (@memSend_spec σ api s).1
    obtain ⟨chunk, t, hsend⟩ : ∃ chunk t, PumpSession.memSend api s = (chunk, t) := ⟨_, _, rfl⟩
    rw [hsend] at hgone hframes hextends hqueue ⊢
    have hheld' : t.outgoing.held = [] := by rw [hqueue, hheld]
    dsimp only
    by_cases hnone : chunk = []
    · rw [if_pos hnone, List.append_nil]
      rw [hnone, List.append_nil] at hgone
      refine ⟨⟨?_, hframes⟩, Nat.zero_le _, hextends⟩
      rw [hheld', List.append_nil]
      exact hgone
    rw [if_neg hnone]
    by_cases hcut : min chunk.length room < chunk.length
    · rw [if_pos hcut]
      refine ⟨⟨?_, hframes⟩, ?_, hextends⟩
      · rw [HeadedQueue.held_push, hheld', List.nil_append, List.append_assoc,
          List.take_append_drop]
        exact hgone
      · rw [List.length_take]
        omega
    · rw [if_neg hcut, List.take_of_length_le (by omega)]
      have ht : Sent (before ++ chunk) t :=
        ⟨by rw [hheld', List.append_nil]; exact hgone, hframes⟩
      obtain ⟨hsent, hlength, hmore⟩ := @ih t _ (room - min chunk.length room) ht hheld'
      rw [← List.append_assoc]
      refine ⟨hsent, ?_, hextends.trans hmore⟩
      rw [List.length_append]
      omega

theorem Sent.pullOutgoing {cap : ℕ} (h : Sent before s) :
    Sent (before ++ (pullOutgoing api cap s).1) (PumpSession.pullOutgoing api cap s).2 ∧
      (PumpSession.pullOutgoing api cap s).1.length ≤ cap ∧
      s.Extends (PumpSession.pullOutgoing api cap s).2 := by
  rw [PumpSession.pullOutgoing]
  by_cases hsize : 0 < s.outgoing.size
  · rw [if_pos hsize]
    have hsplit := @HeadedQueue.held_advance _ s.outgoing cap
    have hwritten : (s.outgoing.held.take (min s.outgoing.size cap)).length =
        min s.outgoing.size cap := by
      rw [List.length_take, HeadedQueue.length_held]
      omega
    dsimp only
    by_cases hread : (s.outgoing.advance cap).head = (s.outgoing.advance cap).data.length
    · rw [if_pos hread]
      have hempty : Sent (before ++ s.outgoing.held.take (min s.outgoing.size cap))
          { s with outgoing := .empty } := by
        refine ⟨?_, h.frames⟩
        rw [HeadedQueue.held_empty, List.append_nil, ← h.held, ← hsplit,
          HeadedQueue.advance_read hread, List.append_nil]
        congr 1
        rw [List.take_take, min_self]
      obtain ⟨hsent, hlength, hextends⟩ :=
        @Sent.pullUnits σ api _ _ cap (cap - min s.outgoing.size cap) hempty HeadedQueue.held_empty
      rw [← List.append_assoc]
      refine ⟨hsent, ?_, hextends⟩
      rw [List.length_append, hwritten]
      omega
    · rw [if_neg hread]
      refine ⟨⟨?_, h.frames⟩, by rw [hwritten]; omega, List.prefix_refl _⟩
      rw [List.append_assoc, hsplit]
      exact h.held
  · rw [if_neg hsize]
    exact h.pullUnits (HeadedQueue.held_eq_nil.mpr (by omega))

theorem Sent.wireFrame (h : Sent before s) (f : Frame) :
    Sent before (s.wireFrame f) ∧ s.Extends (s.wireFrame f) := by
  obtain ⟨o, ho⟩ : ∃ o, ({ s.observer with outgoing := [] } : Observer).wireFrame f = o := ⟨_, rfl⟩
  have hqueues := @Observer.queues_wireFrame { s.observer with outgoing := [] } f
  rw [ho] at hqueues
  rw [PumpSession.wireFrame, ho]
  by_cases hnone : o.outgoing = []
  · rw [if_pos hnone]
    exact ⟨⟨h.held, h.frames⟩, List.prefix_refl _⟩
  rw [if_neg hnone]
  have hframe : ControlFrame o.outgoing := by
    rcases hqueues with hsame | ⟨bytes, hbytes, heq⟩
    · exact absurd hsame hnone
    · rw [heq]
      exact hbytes
  refine ⟨⟨?_, fun bytes hbytes => ?_⟩, List.prefix_append _ _⟩
  · dsimp only
    rw [HeadedQueue.held_push, HeadedQueue.held_reclaim, wire_append, wire_singleton,
      ← List.append_assoc, h.held]
    rfl
  · rcases List.mem_append.mp hbytes with hin | hin
    · exact h.frames bytes hin
    · cases List.mem_singleton.mp hin
      exact hframe

/-- What every call of the scan preserves, the scan preserves. -/
theorem wireScan_invariant {β : Type*} {onFrame : Frame → β → β} {P : β → Prop}
    (hstep : ∀ f b, P b → P (onFrame f b)) {scan : Scan} {b : β} (h : P b) (data : List UInt8) :
    P (wireScan onFrame (scan, b) data).2 := by
  have hloop : ∀ (n : ℕ) (t : Scan × β) (bytes : List UInt8), P t.2 →
      P (scanLoop onFrame n t bytes).2 := by
    intro n
    induction n with
    | zero => exact fun _ _ ht => ht
    | succ n ih =>
      intro t bytes ht
      cases bytes with
      | nil => exact ht
      | cons byte bytes =>
        rw [scanLoop]
        refine ih _ _ ?_
        cases (scanTurn t.1 (byte :: bytes)).2.1 with
        | none => exact ht
        | some f => exact hstep f t.2 ht
  exact hloop _ _ _ h

theorem Sent.feed (h : Sent before s) (data : List UInt8) :
    Sent before (s.feed api data) ∧ s.Extends (s.feed api data) := by
  have hscan := @wireScan_invariant _ PumpSession.wireFrame
    (fun t : PumpSession σ => Sent before t ∧ s.Extends t)
    (fun f t ht => ⟨(ht.1.wireFrame f).1, ht.2.trans (ht.1.wireFrame f).2⟩)
    s.scan s ⟨h, List.prefix_refl _⟩ data
  rw [PumpSession.feed]
  split_ifs
  · exact ⟨h, List.prefix_refl _⟩
  · exact ⟨⟨hscan.1.held, hscan.1.frames⟩, hscan.2⟩

end PumpSession

namespace Line

variable {σ : Type*} {api : Nghttp2 σ} {line : Line σ}

/-- The bytes pulled and held are those the session got. -/
def Whole (line : Line σ) : Prop :=
  line.session.Sent line.pulled

theorem whole_fresh (isServer : Bool) (start : σ) :
    (fresh isServer start).Whole :=
  ⟨rfl, fun _ h => absurd h List.not_mem_nil⟩

theorem Whole.step (h : line.Whole) (call : LineCall σ) :
    (line.step api call).Whole ∧ line.session.Extends (line.step api call).session := by
  cases call with
  | pull cap =>
    obtain ⟨hsent, -, hextends⟩ := @PumpSession.Sent.pullOutgoing σ api _ _ cap h
    exact ⟨hsent, hextends⟩
  | feed data => exact @PumpSession.Sent.feed σ api _ _ h data
  | submit change => exact ⟨⟨h.held, h.frames⟩, List.prefix_refl _⟩

theorem Whole.run (h : line.Whole) (calls : List (LineCall σ)) :
    (line.run api calls).Whole ∧ line.session.Extends (line.run api calls).session := by
  induction calls generalizing line with
  | nil => exact ⟨h, List.prefix_refl _⟩
  | cons call calls ih =>
    obtain ⟨hstep, hextends⟩ := @Whole.step σ api line h call
    obtain ⟨hrun, hmore⟩ := ih hstep
    exact ⟨hrun, hextends.trans hmore⟩

theorem run_append (calls more : List (LineCall σ)) :
    line.run api (calls ++ more) = (line.run api calls).run api more :=
  List.foldl_append

end Line

namespace PumpSession

variable {σ : Type*} {api : Nghttp2 σ} {s : PumpSession σ}

theorem pullUnits_first {turns room : ℕ} (hroom : room ≠ 0) (hturns : turns ≠ 0)
    (hlog : s.log = []) (hempty : s.outgoing.held = [])
    (hfirst : (api.memSend s.nghttp2).1 ≠ []) :
    [.unit (api.memSend s.nghttp2).1] <+: (pullUnits api turns room s).2.log := by
  obtain ⟨turns, rfl⟩ := Nat.exists_eq_succ_of_ne_zero hturns
  have hlog' : (memSend api s).2.log = [.unit (api.memSend s.nghttp2).1] := by
    have hchunk : (memSend api s).1 ≠ [] := hfirst
    rw [(@memSend_spec σ api s).2, if_neg hchunk, hlog]
    rfl
  have hqueue := (@memSend_spec σ api s).1
  rw [pullUnits, if_neg hroom]
  obtain ⟨chunk, t, hsend⟩ : ∃ chunk t, memSend api s = (chunk, t) := ⟨_, _, rfl⟩
  have hchunk : chunk ≠ [] := by
    have : chunk = (memSend api s).1 := by rw [hsend]
    rw [this]
    exact hfirst
  rw [hsend] at hlog' hqueue ⊢
  dsimp only at hlog' hqueue ⊢
  rw [if_neg hchunk]
  split_ifs
  · rw [hlog']
  · have hsent : Sent (wire t.log) t := by
      refine ⟨by rw [hqueue, hempty, List.append_nil], fun bytes hbytes => ?_⟩
      rw [hlog'] at hbytes
      exact absurd (List.mem_singleton.mp hbytes) nofun
    have hmore := (@Sent.pullUnits σ api t _ turns (room - min chunk.length room) hsent
      (by rw [hqueue, hempty])).2.2
    rw [← hlog']
    exact hmore

end PumpSession

/-- Every unit that nghttp2 returned and every frame of the observer goes out whole,
once, and in the order in which the session got them.  What has been pulled at any
moment is the start of it, and no call writes more than it may.  A unit that is
returned before the observer queues anything goes out first. -/
theorem outgoing_units
    {σ : Type*}
    (api : Nghttp2 σ)
    (isServer : Bool)
    (start : σ)
    (calls : List (LineCall σ)) :
    let line := (Line.fresh isServer start).run api calls
    line.pulled ++ line.session.outgoing.held = wire line.session.log ∧
      (∀ bytes, .frame bytes ∈ line.session.log → ControlFrame bytes ∧ Whole bytes) ∧
      (∀ later, line.pulled <+: wire (line.run api later).session.log) ∧
      (∀ cap, (line.session.pullOutgoing api cap).1.length ≤ cap) ∧
      ∀ opening cap rest, calls = opening ++ .pull cap :: rest → 0 < cap →
        ((Line.fresh isServer start).run api opening).session.log = [] →
        let first := (api.memSend ((Line.fresh isServer start).run api opening).session.nghttp2).1
        first ≠ [] → [.unit first] <+: line.session.log := by
  intro line
  have hwhole : line.Whole := ((Line.whole_fresh isServer start).run calls).1
  refine ⟨hwhole.held, fun bytes hbytes => ?_, fun later => ?_, fun cap => ?_, ?_⟩
  · exact ⟨hwhole.frames bytes hbytes, (hwhole.frames bytes hbytes).whole⟩
  · obtain ⟨more, hmore⟩ := (@Line.Whole.run σ api line hwhole later).2
    rw [← hmore, wire_append, ← hwhole.held, List.append_assoc]
    exact List.prefix_append _ _
  · exact (@PumpSession.Sent.pullOutgoing σ api _ _ cap hwhole).2.1
  · intro opening cap rest hcalls hcap hlog first hfirst
    obtain ⟨before, hbefore⟩ : ∃ before, (Line.fresh isServer start).run api opening = before :=
      ⟨_, rfl⟩
    have hwhole' : before.Whole := hbefore ▸ ((Line.whole_fresh isServer start).run opening).1
    have hline : line = (before.step api (.pull cap)).run api rest := by
      rw [← hbefore]
      change (Line.fresh isServer start).run api calls = _
      rw [hcalls, Line.run_append]
      rfl
    rw [hbefore] at hlog
    have hempty : before.session.outgoing.held = [] := by
      have hheld := hwhole'.held
      rw [hlog] at hheld
      exact (List.append_eq_nil_iff.mp hheld).2
    have hpull : [.unit first] <+: (before.step api (.pull cap)).session.log := by
      have hsize := HeadedQueue.held_eq_nil.mp hempty
      rw [Line.step, PumpSession.pullOutgoing, if_neg (by omega)]
      change [Outgoing.unit (api.memSend
        ((Line.fresh isServer start).run api opening).session.nghttp2).1] <+: _
      rw [hbefore]
      refine PumpSession.pullUnits_first hcap.ne' hcap.ne' hlog hempty ?_
      rw [← hbefore]
      exact hfirst
    rw [hline]
    exact hpull.trans (((hwhole'.step _).1.run rest).2)

/-- nghttp2 with the units it will return, one per call. -/
def scripted : Nghttp2 (List (List UInt8)) where
  memSend units := (units.headD [], [], units.tail)
  memRecv _ units := ([], units)

/-- `PRI * HTTP/2.0` and what follows it. -/
def clientPreface : List UInt8 :=
  [80, 82, 73, 32, 42, 32, 72, 84, 84, 80, 47, 50, 46, 48, 13, 10, 13, 10, 83, 77, 13, 10, 13, 10]

/-- A PRIORITY frame on no stream. -/
def priorityFrame : List UInt8 :=
  [0, 0, 0, 2, 0, 0, 0, 0, 0]

/-- A SETTINGS frame without settings. -/
def settingsFrame : List UInt8 :=
  [0, 0, 0, 4, 0, 0, 0, 0, 0]

/-- With the preface pulled first, the answer to a bad frame goes between two units,
although the preface was cut. -/
theorem outgoing_units_cut :
    let line := (Line.fresh false [clientPreface, settingsFrame]).run scripted
      [.pull 1, .feed priorityFrame, .pull 3, .pull 100]
    [Outgoing.unit clientPreface] <+: line.session.log ∧
      line.pulled = clientPreface ++ ([0, 0, 8, 7, 0, 0, 0, 0, 0] ++ [0, 0, 0, 0] ++ [0, 0, 0, 1]) ++
        settingsFrame := by
  intro line
  refine ⟨?_, by decide +kernel⟩
  exact (outgoing_units scripted false [clientPreface, settingsFrame]
    [.pull 1, .feed priorityFrame, .pull 3, .pull 100]).2.2.2.2 [] 1
    [.feed priorityFrame, .pull 3, .pull 100] rfl (by decide) rfl (by decide)

/-- A client that is fed before anything was pulled sends the answer to a bad frame
before its preface. -/
theorem goaway_before_preface :
    ((Line.fresh false [clientPreface, settingsFrame]).run scripted
      [.feed priorityFrame, .pull 100]).pulled =
      [0, 0, 8, 7, 0, 0, 0, 0, 0] ++ [0, 0, 0, 0] ++ [0, 0, 0, 1] ++ clientPreface ++
        settingsFrame := by
  decide +kernel

end Http2
end Beans
