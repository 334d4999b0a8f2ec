import Mathlib

/-!
# The scan of received frames

Received bytes are scanned for frames whatever way they were cut into feeds.  The
scan keeps the header it has collected, the first five payload bytes and the
number of payload bytes to come, and calls back once for each whole frame.
-/

namespace Beans
namespace Http2

universe u

/-- What a call of `beans_h2_wire_frame` sees of a frame. -/
structure Frame where
  type : UInt8
  flags : UInt8
  stream : Int
  payloadLen : Nat
  first : List UInt8
  deriving DecidableEq, Repr

/-- `beans_h2_get_u32be`. -/
def getU32be (bytes : List UInt8) : Nat :=
  (bytes.getD 0 0).toNat * 2 ^ 24 + (bytes.getD 1 0).toNat * 2 ^ 16 +
    (bytes.getD 2 0).toNat * 2 ^ 8 + (bytes.getD 3 0).toNat

/-- The payload length in a frame header. -/
def headerLength (bytes : List UInt8) : Nat :=
  (bytes.getD 0 0).toNat * 2 ^ 16 + (bytes.getD 1 0).toNat * 2 ^ 8 +
    (bytes.getD 2 0).toNat

/-- The stream in a frame header, without its reserved bit. -/
def headerStream (bytes : List UInt8) : Int :=
  (getU32be (bytes.drop 5) % 2 ^ 31 : Nat)

/-- The wire fields of `beans_h2_session`. -/
structure Scan where
  prefaceLeft : Nat
  wireHeader : List UInt8
  wirePrefix : List UInt8
  wirePayloadLeft : Nat
  wirePayloadLen : Nat
  wireType : UInt8
  wireFlags : UInt8
  wireStream : Int
  deriving DecidableEq, Repr

/-- A server expects the 24 bytes of the connection preface first. -/
def Scan.fresh (isServer : Bool) : Scan :=
  ⟨if isServer then 24 else 0, [], [], 0, 0, 0, 0, 0⟩

/-- The fields as `beans_h2_wire_frame` reads them. -/
def Scan.frame (s : Scan) : Frame :=
  ⟨s.wireType, s.wireFlags, s.wireStream, s.wirePayloadLen, s.wirePrefix⟩

/-- Reads the fields of a complete header. -/
def Scan.readHeader (s : Scan) : Scan :=
  { s with
    wirePayloadLen := headerLength s.wireHeader
    wirePayloadLeft := headerLength s.wireHeader
    wireType := s.wireHeader.getD 3 0
    wireFlags := s.wireHeader.getD 4 0
    wireStream := headerStream s.wireHeader
    wirePrefix := [] }

/-- Takes payload bytes; the call comes with the last of them. -/
def scanPayload (s : Scan) (data : List UInt8) :
    Scan × Option Frame × List UInt8 :=
  let take := min s.wirePayloadLeft data.length
  let keep := min (5 - s.wirePrefix.length) take
  let s' := { s with
    wirePrefix := s.wirePrefix ++ data.take keep
    wirePayloadLeft := s.wirePayloadLeft - take }
  if s'.wirePayloadLeft = 0 then
    ({ s' with wireHeader := [] }, some s'.frame, data.drop take)
  else (s', none, data.drop take)

/-- One turn of the loop of `beans_h2_wire_scan`: what is left of the data, and
the call that was made. -/
def scanTurn (s : Scan) (data : List UInt8) :
    Scan × Option Frame × List UInt8 :=
  if s.wireHeader.length < 9 then
    let take := min (9 - s.wireHeader.length) data.length
    let s' := { s with wireHeader := s.wireHeader ++ data.take take }
    if s'.wireHeader.length < 9 then (s', none, data.drop take)
    else if s'.readHeader.wirePayloadLeft = 0 then
      ({ s'.readHeader with wireHeader := [] }, some s'.readHeader.frame,
        data.drop take)
    else scanPayload s'.readHeader (data.drop take)
  else scanPayload s data

section Loop

variable {β : Type u} (wireFrame : Frame → β → β)

/-- The loop, with a turn for each byte at most. -/
def scanLoop : Nat → Scan × β → List UInt8 → Scan × β
  | 0, t, _ => t
  | _ + 1, t, [] => t
  | n + 1, t, b :: data =>
    let r := scanTurn t.1 (b :: data)
    scanLoop n (r.1, r.2.1.elim t.2 (wireFrame · t.2)) r.2.2

/-- `beans_h2_wire_scan`, where a frame's call changes the state `t.2`. -/
def wireScan (t : Scan × β) (data : List UInt8) : Scan × β :=
  let take := min t.1.prefaceLeft data.length
  scanLoop wireFrame data.length
    ({ t.1 with prefaceLeft := t.1.prefaceLeft - take }, t.2) (data.drop take)

end Loop

/-- The frame that starts the bytes. -/
def frameAt (bytes : List UInt8) : Frame :=
  ⟨bytes.getD 3 0, bytes.getD 4 0, headerStream bytes, headerLength bytes,
    ((bytes.drop 9).take (headerLength bytes)).take 5⟩

/-- No whole frame starts the bytes. -/
def Partial (bytes : List UInt8) : Prop :=
  bytes.length < 9 ∨ bytes.length < 9 + headerLength bytes

instance (bytes : List UInt8) : Decidable (Partial bytes) :=
  inferInstanceAs (Decidable (_ ∨ _))

/-- The whole frames of a stream, and the bytes after the last of them. -/
def parseFrames (bytes : List UInt8) : List Frame × List UInt8 :=
  if Partial bytes then ([], bytes)
  else
    let rest := parseFrames (bytes.drop (9 + headerLength bytes))
    (frameAt bytes :: rest.1, rest.2)
termination_by bytes.length
decreasing_by
  rename_i h
  rw [Partial, not_or] at h
  rw [List.length_drop]
  omega

/-- The fields of the scan are those of the header that starts `seen`. -/
structure Scan.Fields (s : Scan) (seen : List UInt8) : Prop where
  long : 9 ≤ seen.length
  header : s.wireHeader = seen.take 9
  type : s.wireType = seen.getD 3 0
  flags : s.wireFlags = seen.getD 4 0
  stream : s.wireStream = headerStream seen
  len : s.wirePayloadLen = headerLength seen
  left : s.wirePayloadLeft + (seen.length - 9) = headerLength seen
  kept : s.wirePrefix = (seen.drop 9).take 5

/-- The scan stands where `seen` has been read of a frame that is not whole. -/
def Scan.At (s : Scan) (seen : List UInt8) : Prop :=
  (seen.length < 9 ∧ s.wireHeader = seen) ∨
    (s.Fields seen ∧ s.wirePayloadLeft ≠ 0)

theorem Scan.At.some_left {s : Scan} {seen : List UInt8} (h : s.At seen) :
    Partial seen := by
  rcases h with ⟨hlt, -⟩ | ⟨hfields, hleft⟩
  · exact .inl hlt
  · have := hfields.left
    exact .inr (by omega)

section Header

variable {bytes more : List UInt8}

theorem getD_append (h : 9 ≤ bytes.length) {i : Nat} (hi : i < 9) :
    (bytes ++ more).getD i 0 = bytes.getD i 0 := by
  rw [List.getD_append _ _ _ _ (by omega)]

/-- A header is read from its nine bytes, whatever follows them. -/
theorem headerLength_append (h : 9 ≤ bytes.length) :
    headerLength (bytes ++ more) = headerLength bytes := by
  simp only [headerLength]
  rw [getD_append h (by omega), getD_append h (by omega),
    getD_append h (by omega)]

theorem headerStream_append (h : 9 ≤ bytes.length) :
    headerStream (bytes ++ more) = headerStream bytes := by
  have hd : ∀ i, i < 4 →
      ((bytes ++ more).drop 5).getD i 0 = (bytes.drop 5).getD i 0 := by
    intro i hi
    rw [List.drop_append_of_le_length (by omega),
      List.getD_append _ _ _ _ (by rw [List.length_drop]; omega)]
  simp only [headerStream, getU32be]
  rw [hd 0 (by omega), hd 1 (by omega), hd 2 (by omega), hd 3 (by omega)]

end Header

/-- The bytes are one whole frame. -/
def Whole (bytes : List UInt8) : Prop :=
  9 ≤ bytes.length ∧ bytes.length = 9 + headerLength bytes

instance (bytes : List UInt8) : Decidable (Whole bytes) :=
  inferInstanceAs (Decidable (_ ∧ _))

/-- What a turn has done with the bytes it took. -/
def Turned (r : Scan × Option Frame × List UInt8) (seen : List UInt8) : Prop :=
  (r.2.1 = none ∧ r.1.At seen) ∨
    (r.2.1 = some (frameAt seen) ∧ Whole seen ∧ r.1.At [])

section Turn

variable {s : Scan} {seen data : List UInt8}

/-- The fields when the header is complete, before its payload. -/
theorem Scan.fields_readHeader (h : s.wireHeader.length = 9) :
    s.readHeader.Fields s.wireHeader where
  long := by omega
  header := (List.take_of_length_le (Nat.le_of_eq h)).symm
  type := rfl
  flags := rfl
  stream := rfl
  len := rfl
  left := by
    rw [h]
    exact Nat.add_zero _
  kept := by
    rw [List.drop_eq_nil_of_le (by omega)]
    rfl

/-- Once all payload bytes are there, the call sees the frame. -/
theorem Scan.Fields.frame_eq (h : s.Fields seen)
    (hleft : s.wirePayloadLeft = 0) : s.frame = frameAt seen := by
  have hbody : (seen.drop 9).take (headerLength seen) = seen.drop 9 := by
    have hlen := h.left
    rw [List.take_of_length_le]
    rw [List.length_drop]
    omega
  rw [Scan.frame, frameAt, h.type, h.flags, h.stream, h.len, h.kept, hbody]

/-- Payload bytes move the fields along. -/
theorem Scan.Fields.take (h : s.Fields seen) {taken : List UInt8}
    (hle : taken.length ≤ s.wirePayloadLeft) {kept : List UInt8}
    (hkept : kept = taken.take (5 - s.wirePrefix.length)) :
    ({ s with
      wirePrefix := s.wirePrefix ++ kept
      wirePayloadLeft := s.wirePayloadLeft - taken.length } : Scan).Fields
      (seen ++ taken) where
  long := by
    rw [List.length_append]
    have := h.long
    omega
  header := by
    rw [List.take_append_of_le_length h.long]
    exact h.header
  type := by
    rw [getD_append h.long (by omega)]
    exact h.type
  flags := by
    rw [getD_append h.long (by omega)]
    exact h.flags
  stream := by
    rw [headerStream_append h.long]
    exact h.stream
  len := by
    rw [headerLength_append h.long]
    exact h.len
  left := by
    have hlong := h.long
    rw [headerLength_append h.long, ← h.left, List.length_append]
    exact (by omega : s.wirePayloadLeft - taken.length +
      (seen.length + taken.length - 9) =
        s.wirePayloadLeft + (seen.length - 9))
  kept := by
    have hroom : 5 - ((seen.drop 9).take 5).length =
        5 - (seen.drop 9).length := by
      rw [List.length_take]
      omega
    rw [List.drop_append_of_le_length h.long, List.take_append, hkept, h.kept,
      hroom]

/-- The payload part of a turn. -/
theorem scanPayload_turned (h : s.Fields seen) :
    ∃ taken, taken.length = min s.wirePayloadLeft data.length ∧
      data = taken ++ (scanPayload s data).2.2 ∧
      Turned (scanPayload s data) (seen ++ taken) := by
  have hlen : (data.take (min s.wirePayloadLeft data.length)).length =
      min s.wirePayloadLeft data.length := by
    simp
  refine ⟨data.take (min s.wirePayloadLeft data.length), hlen, ?_, ?_⟩
  · rw [scanPayload]
    simp only [apply_ite Prod.snd]
    split <;> exact (List.take_append_drop _ _).symm
  · have hkept : data.take (min (5 - s.wirePrefix.length)
        (min s.wirePayloadLeft data.length)) =
        (data.take (min s.wirePayloadLeft data.length)).take
          (5 - s.wirePrefix.length) := by
      rw [List.take_take]
    have hfields := h.take (hlen.le.trans (Nat.min_le_left _ _)) hkept
    rw [hlen] at hfields
    rw [scanPayload]
    by_cases hdone : s.wirePayloadLeft - min s.wirePayloadLeft data.length = 0
    · simp only [if_pos hdone]
      refine .inr ⟨congrArg some (hfields.frame_eq hdone), ⟨hfields.long, ?_⟩,
        .inl ⟨by simp, rfl⟩⟩
      have hleft := hfields.left
      have hlong := hfields.long
      simp only [hdone] at hleft
      omega
    · simp only [if_neg hdone]
      exact .inl ⟨rfl, .inr ⟨hfields, hdone⟩⟩

/-- A turn takes at least one byte, and calls back with the last byte of a
frame. -/
theorem scanTurn_turned (h : s.At seen) (hdata : data ≠ []) :
    ∃ taken, taken ≠ [] ∧ data = taken ++ (scanTurn s data).2.2 ∧
      Turned (scanTurn s data) (seen ++ taken) := by
  have hpos := List.length_pos_iff.mpr hdata
  rcases h with ⟨hlt, hheader⟩ | ⟨hfields, hleft⟩
  · obtain ⟨n, hn⟩ : ∃ n, min (9 - seen.length) data.length = n := ⟨_, rfl⟩
    have hlen : (data.take n).length = n := by
      rw [List.length_take]
      omega
    have hne : data.take n ≠ [] := by
      rw [← List.length_pos_iff, hlen]
      omega
    rw [scanTurn, hheader, if_pos hlt]
    simp only [hn]
    by_cases hmore : (seen ++ data.take n).length < 9
    · rw [if_pos hmore]
      exact ⟨_, hne, (List.take_append_drop _ _).symm,
        .inl ⟨rfl, .inl ⟨hmore, rfl⟩⟩⟩
    · rw [if_neg hmore]
      have hnine : (seen ++ data.take n).length = 9 := by
        rw [List.length_append, hlen] at hmore ⊢
        omega
      obtain ⟨t, ht⟩ : ∃ t : Scan,
          { s with wireHeader := seen ++ data.take n } = t := ⟨_, rfl⟩
      have hheader' : t.wireHeader = seen ++ data.take n := by rw [← ht]
      have hread := t.fields_readHeader (by rw [hheader']; exact hnine)
      rw [hheader'] at hread
      rw [ht]
      by_cases hzero : t.readHeader.wirePayloadLeft = 0
      · rw [if_pos hzero]
        refine ⟨_, hne, (List.take_append_drop _ _).symm, .inr
          ⟨congrArg some (hread.frame_eq hzero), ⟨hread.long, ?_⟩,
            .inl ⟨by simp, rfl⟩⟩⟩
        have hleft := hread.left
        have hlong := hread.long
        rw [hzero] at hleft
        omega
      · rw [if_neg hzero]
        obtain ⟨taken, -, heq, hturned⟩ :=
          @scanPayload_turned _ _ (data.drop n) hread
        refine ⟨data.take n ++ taken, by simp [hne], ?_, ?_⟩
        · rw [List.append_assoc, ← heq, List.take_append_drop]
        · rw [← List.append_assoc]
          exact hturned
  · obtain ⟨taken, hlen, heq, hturned⟩ := @scanPayload_turned _ _ data
      hfields
    have hlong := hfields.long
    have hfull : ¬ s.wireHeader.length < 9 := by
      rw [hfields.header, List.length_take]
      omega
    rw [scanTurn, if_neg hfull]
    refine ⟨taken, ?_, heq, hturned⟩
    rw [← List.length_pos_iff, hlen]
    omega

end Turn

section Parse

variable {bytes tail : List UInt8}

theorem parseFrames_short (h : Partial bytes) :
    parseFrames bytes = ([], bytes) := by
  rw [parseFrames, if_pos h]

/-- A frame is the same whatever follows it. -/
theorem frameAt_append (h : Whole bytes) :
    frameAt (bytes ++ tail) = frameAt bytes := by
  obtain ⟨hlong, hlen⟩ := h
  rw [frameAt, frameAt, getD_append hlong (by omega),
    getD_append hlong (by omega), headerStream_append hlong,
    headerLength_append hlong, List.drop_append_of_le_length hlong,
    List.take_append_of_le_length (by rw [List.length_drop]; omega)]

theorem parseFrames_whole (h : Whole bytes) :
    parseFrames (bytes ++ tail) =
      (frameAt bytes :: (parseFrames tail).1, (parseFrames tail).2) := by
  have hlen := @headerLength_append _ tail h.1
  have hwhole : ¬ Partial (bytes ++ tail) := by
    rw [Partial, hlen, List.length_append]
    have := h.1
    have := h.2
    omega
  have hdrop : (bytes ++ tail).drop (9 + headerLength (bytes ++ tail)) =
      tail := by
    rw [hlen, ← h.2, List.drop_left]
  rw [parseFrames, if_neg hwhole, hdrop, frameAt_append h]

/-- A stream is parsed piece by piece: what is left of one piece starts the
next. -/
theorem parseFrames_append (bytes tail : List UInt8) :
    parseFrames (bytes ++ tail) =
      ((parseFrames bytes).1 ++
          (parseFrames ((parseFrames bytes).2 ++ tail)).1,
        (parseFrames ((parseFrames bytes).2 ++ tail)).2) := by
  induction bytes using parseFrames.induct with
  | case1 bytes h =>
    rw [parseFrames_short h]
    rfl
  | case2 bytes h ih =>
    obtain ⟨n, hn⟩ : ∃ n, 9 + headerLength bytes = n := ⟨_, rfl⟩
    rw [hn] at ih
    have hle : n ≤ bytes.length := by
      rw [Partial, not_or] at h
      omega
    have hlong : 9 ≤ (bytes.take n).length := by
      rw [List.length_take]
      omega
    have hsplit := List.take_append_drop n bytes
    have hwhole : Whole (bytes.take n) := by
      refine ⟨hlong, ?_⟩
      rw [← @headerLength_append _ (bytes.drop n) hlong, hsplit, hn,
        List.length_take]
      omega
    have hparse : parseFrames bytes =
        (frameAt (bytes.take n) :: (parseFrames (bytes.drop n)).1,
          (parseFrames (bytes.drop n)).2) := by
      conv_lhs => rw [← hsplit]
      exact parseFrames_whole hwhole
    have hmore : parseFrames (bytes ++ tail) =
        (frameAt (bytes.take n) :: (parseFrames (bytes.drop n ++ tail)).1,
          (parseFrames (bytes.drop n ++ tail)).2) := by
      conv_lhs => rw [← hsplit, List.append_assoc]
      exact parseFrames_whole hwhole
    rw [hmore, ih, hparse]
    rfl

end Parse

section Exact

variable {β : Type u} (wireFrame : Frame → β → β)

/-- The calls for a list of frames, in order. -/
def callAll (frames : List Frame) (b : β) : β :=
  frames.foldl (fun b f => wireFrame f b) b

theorem scanPayload_prefaceLeft (s : Scan) (data : List UInt8) :
    (scanPayload s data).1.prefaceLeft = s.prefaceLeft := by
  simp only [scanPayload]
  split_ifs <;> rfl

theorem scanTurn_prefaceLeft (s : Scan) (data : List UInt8) :
    (scanTurn s data).1.prefaceLeft = s.prefaceLeft := by
  simp only [scanTurn]
  split_ifs
  · rfl
  · rfl
  · exact scanPayload_prefaceLeft _ _
  · exact scanPayload_prefaceLeft _ _

/-- The loop makes the calls of the frames that the data completes. -/
theorem scanLoop_exact {n : Nat} {s : Scan} {seen data : List UInt8}
    (hat : s.At seen) (hlen : data.length ≤ n) (b : β) :
    (scanLoop wireFrame n (s, b) data).2 =
        callAll wireFrame (parseFrames (seen ++ data)).1 b ∧
      (scanLoop wireFrame n (s, b) data).1.At
        (parseFrames (seen ++ data)).2 ∧
      (scanLoop wireFrame n (s, b) data).1.prefaceLeft = s.prefaceLeft := by
  induction n generalizing s seen data b with
  | zero =>
    have hnil : data = [] := List.length_eq_zero_iff.mp (by omega)
    rw [hnil, List.append_nil, parseFrames_short hat.some_left]
    exact ⟨rfl, hat, rfl⟩
  | succ n ih =>
    cases data with
    | nil =>
      rw [List.append_nil, parseFrames_short hat.some_left]
      exact ⟨rfl, hat, rfl⟩
    | cons x data =>
      obtain ⟨taken, hne, heq, hturned⟩ :=
        scanTurn_turned hat (List.cons_ne_nil x data)
      have hpos := List.length_pos_iff.mpr hne
      have hrest : (scanTurn s (x :: data)).2.2.length ≤ n := by
        have := congrArg List.length heq
        rw [List.length_append] at this
        omega
      rw [scanLoop]
      simp only
      rw [← scanTurn_prefaceLeft s (x :: data)]
      conv in seen ++ x :: data => rw [heq, ← List.append_assoc]
      conv in seen ++ x :: data => rw [heq, ← List.append_assoc]
      rcases hturned with ⟨hnone, hat'⟩ | ⟨hsome, hwhole, hat'⟩
      · rw [hnone]
        exact ih hat' hrest b
      · rw [hsome, parseFrames_whole hwhole]
        exact ih hat' hrest (wireFrame (frameAt (seen ++ taken)) b)

/-- The scan stands where the bytes of `stream` lead, the first `n` of which are
the preface. -/
def Scan.Stands (s : Scan) (n : Nat) (stream : List UInt8) : Prop :=
  s.prefaceLeft = n - stream.length ∧
    s.At (parseFrames (stream.drop n)).2

theorem Scan.stands_fresh (isServer : Bool) :
    (Scan.fresh isServer).Stands (if isServer then 24 else 0) [] := by
  refine ⟨by cases isServer <;> rfl, ?_⟩
  rw [List.drop_nil, parseFrames_short (.inl (by decide))]
  exact .inl ⟨by decide, by cases isServer <;> rfl⟩

/-- The frames that `data` completes after `stream`. -/
def completed (n : Nat) (stream data : List UInt8) : List Frame :=
  (parseFrames ((parseFrames (stream.drop n)).2 ++
    data.drop (n - stream.length))).1

theorem Scan.At.preface {s : Scan} {seen : List UInt8} (h : s.At seen)
    (left : Nat) : ({ s with prefaceLeft := left } : Scan).At seen := by
  rcases h with h | ⟨h, hleft⟩
  · exact .inl h
  · exact .inr ⟨⟨h.long, h.header, h.type, h.flags, h.stream, h.len, h.left,
      h.kept⟩, hleft⟩

/-- One feed makes the calls of the frames it completes. -/
theorem wireScan_exact {s : Scan} {n : Nat} {stream : List UInt8}
    (h : s.Stands n stream) (data : List UInt8) (b : β) :
    (wireScan wireFrame (s, b) data).2 =
        callAll wireFrame (completed n stream data) b ∧
      (wireScan wireFrame (s, b) data).1.Stands n (stream ++ data) := by
  obtain ⟨hpreface, hat⟩ := h
  obtain ⟨k, hk⟩ : ∃ k, min s.prefaceLeft data.length = k := ⟨_, rfl⟩
  have hdrop : data.drop k = data.drop (n - stream.length) := by
    rcases Nat.le_total (n - stream.length) data.length with hle | hle
    · congr 1
      omega
    · rw [List.drop_eq_nil_of_le hle, List.drop_eq_nil_of_le (by omega)]
  have hlen : (data.drop k).length ≤ data.length := by
    rw [List.length_drop]
    omega
  obtain ⟨hcalls, hthere, hleft⟩ := scanLoop_exact wireFrame
    (hat.preface (s.prefaceLeft - k)) hlen b
  have hsplit : (stream ++ data).drop n =
      stream.drop n ++ data.drop (n - stream.length) := List.drop_append
  rw [hdrop] at hcalls hthere hleft
  simp only [wireScan, hk, hdrop]
  refine ⟨hcalls, ?_, ?_⟩
  · rw [hleft, List.length_append]
    simp only
    omega
  · rw [hsplit, parseFrames_append]
    exact hthere

/-- All feeds together make the calls of the frames of the whole stream. -/
theorem feeds_exact (n : Nat) {s : Scan} {stream : List UInt8}
    (h : s.Stands n stream) (feeds : List (List UInt8)) (b : β) :
    (feeds.foldl (wireScan wireFrame)
        (s, callAll wireFrame (parseFrames (stream.drop n)).1 b)).2 =
      callAll wireFrame
        (parseFrames ((stream ++ feeds.flatten).drop n)).1 b := by
  induction feeds generalizing s stream with
  | nil => rw [List.flatten_nil, List.append_nil, List.foldl_nil]
  | cons data feeds ih =>
    obtain ⟨hcalls, hthere⟩ := wireScan_exact wireFrame h data
      (callAll wireFrame (parseFrames (stream.drop n)).1 b)
    have hmore : callAll wireFrame (completed n stream data)
        (callAll wireFrame (parseFrames (stream.drop n)).1 b) =
        callAll wireFrame (parseFrames ((stream ++ data).drop n)).1 b := by
      rw [List.drop_append, parseFrames_append, callAll, callAll, callAll,
        List.foldl_append]
      rfl
    have hnext := ih hthere
    rw [List.foldl_cons, List.flatten_cons, ← List.append_assoc, ← hnext,
      ← hmore, ← hcalls]

end Exact

end Http2
end Beans
