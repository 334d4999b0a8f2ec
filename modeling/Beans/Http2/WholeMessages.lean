import Beans.Http2.StreamShape

/-!
# Only whole messages, each once

On a connection every stream is assembled from its own history, whatever the other
streams send in between and however the queue is cut.  By induction on the events
a stream is reset exactly when its history breaks a rule, and what is delivered
for it is its one whole message.

**Input.**  The events of the bridge to nghttp2 in any order it allows, cut into queues.

**Results.**
* `whole_messages`: whole messages, at most one for a stream, and one reset where a rule is
  broken.
-/

namespace Beans
namespace Http2

variable {rules : Rules} {t : Transport} {id other : Int64} {event : BridgeEvent}
  {events : List BridgeEvent} {message : Stream}

/-- How often a stream was reset. -/
def Transport.resetCount (t : Transport) (id : Int64) : ℕ :=
  (t.resets.map Prod.fst).count id

/-- The messages delivered for a stream. -/
def Transport.messagesOf (t : Transport) (id : Int64) : List Stream :=
  t.ready.filterMap fun event =>
    match event with
    | .message stream => if stream.id = id then some stream else none
    | _ => none

theorem history_snoc_self (h : event.stream? = some id) :
    history (events ++ [event]) id = history events id ++ [event] := by
  simp [history, h]

theorem history_snoc_other (h : event.stream? ≠ some id) :
    history (events ++ [event]) id = history events id := by
  simp [history, h]

theorem closed_snoc :
    Closed (events ++ [event]) ↔ Closed events ∨ event.closes = true := by
  simp [Closed, or_and_right, exists_or]

theorem BridgeOrder.prefix (h : BridgeOrder (events ++ [event])) : BridgeOrder events where
  once := by
    intro id
    have honce := h.once id
    rw [history, List.filter_append, List.filter_append, List.length_append] at honce
    exact (Nat.le_add_right _ _).trans honce
  last := by
    rintro past closing rest rfl hcloses later hlater
    exact h.last past closing (rest ++ [event]) (by simp) hcloses later
      (List.mem_append_left _ hlater)

/-- Nothing follows the close of a stream. -/
theorem BridgeOrder.open (h : BridgeOrder (events ++ [event]))
    (he : event.stream? = some id) :
    ¬ Closed (history events id) := by
  rintro ⟨closing, hmem, hcloses⟩
  rw [history, List.mem_filter, beq_iff_eq] at hmem
  obtain ⟨past, rest, rfl⟩ := List.append_of_mem hmem.1
  refine h.last past closing (rest ++ [event]) (by simp) hcloses event (by simp) ?_
  rw [he, hmem.2]

/-- A stream ends once. -/
theorem BridgeOrder.first (h : BridgeOrder (events ++ [event]))
    (he : event.stream? = some id)
    (hend : event.endsStream = true) :
    ¬ Ended (history events id) := by
  rintro ⟨earlier, hmem, hearlier⟩
  have honce := h.once id
  rw [history_snoc_self he, List.filter_append, List.length_append] at honce
  have hone : 0 < ((history events id).filter BridgeEvent.endsStream).length :=
    List.length_pos_of_mem (List.mem_filter.mpr ⟨hmem, hearlier⟩)
  have hlast : ([event].filter BridgeEvent.endsStream).length = 1 := by simp [hend]
  omega

open Classical in
/-- What is kept for a stream is what its history says. -/
structure StreamInv (rules : Rules) (events : List BridgeEvent) (t : Transport)
    (id : Int64) : Prop where
  building : ¬ Closed (history events id) →
    t.building id =
      if sinceEnd (history events id) = [] ∨ Broke rules id (history events id) then none
      else some (gathered rules.isServer id (sinceEnd (history events id)))
  rejected : ¬ Closed (history events id) →
    (t.isRejected id = true ↔ Broke rules id (history events id))
  closed : Closed (history events id) → t.building id = none ∧ t.rejected id = none
  resets : t.resetCount id = if Broke rules id (history events id) then 1 else 0
  messages : (t.messagesOf id).length ≤ 1
  pending : ¬ Ended (history events id) → t.messagesOf id = []

theorem streamInv_fresh (rules : Rules) (id : Int64) :
    StreamInv rules [] { rules := rules } id where
  building := by simp [history, sinceEnd]
  rejected := by simp [history, Transport.isRejected, not_broke_nil]
  closed := by simp [history, Closed]
  resets := by simp [history, Transport.resetCount, not_broke_nil]
  messages := by simp [Transport.messagesOf]
  pending := by simp [Transport.messagesOf]

/-- The exchange of an open stream is what its history has gathered. -/
theorem StreamInv.exchangeFor (h : StreamInv rules events t id)
    (hopen : ¬ Closed (history events id))
    (hrejected : t.isRejected id = false) :
    t.exchangeFor id = gathered rules.isServer id (sinceEnd (history events id)) ∧
      ¬ Broke rules id (history events id) := by
  have hbroke : ¬ Broke rules id (history events id) := by
    rw [← h.rejected hopen, hrejected]
    simp
  refine ⟨?_, hbroke⟩
  rw [Transport.exchangeFor, h.building hopen]
  by_cases hnil : sinceEnd (history events id) = []
  · rw [if_pos (Or.inl hnil), hnil]
    rfl
  · rw [if_neg (not_or.mpr ⟨hnil, hbroke⟩), Option.getD_some]

theorem gather_id (isServer : Bool) (s : Stream) (event : BridgeEvent) :
    (gather isServer s event).id = s.id := by
  have hdone := @gatherDone_counts isServer s
  cases event with
  | headersDone word endStream category => exact hdone.1
  | dataDone word => exact hdone.1
  | _ => rfl

theorem StreamInv.message_id (h : StreamInv rules events t id)
    (hopen : ¬ Closed (history events id))
    (hrejected : t.isRejected id = false)
    (htype : typeExchange t.rules.isServer
      { gather t.rules.isServer (t.exchangeFor id) event with complete := true } =
        some message) :
    message.id = id := by
  rw [(typeExchange_some htype).2.2.2]
  refine (gather_id _ _ _).trans ?_
  rw [(h.exchangeFor hopen hrejected).1]
  exact (gathered_counts ..).1

section Steps

variable {exchange : Stream} {code : ℕ}

theorem resetCount_resetStream :
    (t.resetStream id code).resetCount other =
      t.resetCount other + if id = other then 1 else 0 := by
  rw [Transport.resetCount, Transport.resetStream, List.map_append, List.count_append]
  by_cases h : id = other <;> simp [h, Transport.resetCount]

theorem messagesOf_deliver :
    (t.deliver id message).messagesOf other =
      t.messagesOf other ++ if message.id = other then [message] else [] := by
  rw [Transport.messagesOf, Transport.deliver, List.filterMap_append]
  by_cases h : message.id = other <;> simp [h, Transport.messagesOf]

/-- A connection keeps its rules. -/
theorem handle_rules (t : Transport) (arrival : Arrival) :
    (t.handle arrival).rules = t.rules := by
  have hpart : ∀ id flags exchange, (t.endPart id flags exchange).rules = t.rules := by
    intro id flags exchange
    unfold Transport.endPart
    split_ifs
    · cases typeExchange t.rules.isServer { exchange with complete := true } <;> rfl
    · rfl
  cases arrival with
  | header id nameLen valueLen name value =>
    change (t.onHeader id nameLen valueLen name value).rules = t.rules
    unfold Transport.onHeader
    simp only
    split_ifs
    · rfl
    · rfl
    · split <;> rfl
  | data id length payload =>
    change (t.onData id length payload).rules = t.rules
    unfold Transport.onData
    simp only
    split_ifs <;> rfl
  | headersDone id flags =>
    change (t.onHeadersDone id flags).rules = t.rules
    unfold Transport.onHeadersDone
    simp only
    split_ifs
    all_goals first | exact hpart _ _ _ | rfl
  | _ => rfl

theorem received_rules (t : Transport) (events : List BridgeEvent) :
    (t.received events).rules = t.rules := by
  induction events generalizing t with
  | nil => rfl
  | cons event events ih => rw [Transport.received_cons, ih, handle_rules]

end Steps

/-- The invariant of a stream looks only at what is kept for it. -/
theorem StreamInv.congr {t' : Transport} {events' : List BridgeEvent}
    (h : StreamInv rules events t id)
    (hhistory : history events' id = history events id)
    (hbuilding : t'.building id = t.building id)
    (hrejected : t'.rejected id = t.rejected id)
    (hresets : t'.resetCount id = t.resetCount id)
    (hmessages : t'.messagesOf id = t.messagesOf id) :
    StreamInv rules events' t' id := by
  have hflag : t'.isRejected id = t.isRejected id := by
    rw [Transport.isRejected, hrejected]
    rfl
  constructor
  · rw [hhistory, hbuilding]
    exact h.building
  · rw [hhistory, hflag]
    exact h.rejected
  · rw [hhistory, hbuilding, hrejected]
    exact h.closed
  · rw [hhistory, hresets]
    exact h.resets
  · rw [hmessages]
    exact h.messages
  · rw [hhistory, hmessages]
    exact h.pending

theorem messagesOf_close {word code : UInt64} :
    (t.handle (BridgeEvent.arrival (.streamClosed word code))).messagesOf id =
      t.messagesOf id := by
  simp [Transport.messagesOf, Transport.handle, BridgeEvent.arrival]

/-- The close of a stream. -/
theorem StreamInv.close {word code : UInt64} (h : StreamInv rules events t id)
    (he : word.toInt64 = id) :
    StreamInv rules (events ++ [.streamClosed word code])
      (t.handle (BridgeEvent.arrival (.streamClosed word code))) id := by
  subst he
  have hself : history (events ++ [.streamClosed word code]) word.toInt64 =
      history events word.toInt64 ++ [.streamClosed word code] := history_snoc_self rfl
  have hclosed : Closed (history (events ++ [.streamClosed word code]) word.toInt64) := by
    rw [hself, closed_snoc]
    exact Or.inr rfl
  have hbroke : Broke rules word.toInt64
      (history (events ++ [.streamClosed word code]) word.toInt64) ↔
        Broke rules word.toInt64 (history events word.toInt64) := by
    rw [hself, broke_snoc]
    exact or_iff_left not_false
  have hresets : (t.handle (BridgeEvent.arrival (.streamClosed word code))).resetCount
      word.toInt64 = t.resetCount word.toInt64 := rfl
  refine ⟨fun hnot => absurd hclosed hnot, fun hnot => absurd hclosed hnot,
    fun _ => ⟨Function.update_self .., Function.update_self ..⟩, ?_, ?_, fun hend => ?_⟩
  · rw [hresets, h.resets]
    by_cases hbefore : Broke rules word.toInt64 (history events word.toInt64)
    · rw [if_pos hbefore, if_pos (hbroke.mpr hbefore)]
    · rw [if_neg hbefore, if_neg (mt hbroke.mp hbefore)]
  · rw [messagesOf_close]
    exact h.messages
  · rw [hself, ended_snoc, not_or] at hend
    rw [messagesOf_close]
    exact h.pending hend.1

/-- An event of the stream itself. -/
theorem StreamInv.step (h : StreamInv rules events t id)
    (hrules : t.rules = rules)
    (horder : BridgeOrder (events ++ [event]))
    (he : event.stream? = some id)
    (hsize : event.bytes.length < 2 ^ 63) :
    StreamInv rules (events ++ [event]) (t.handle event.arrival) id ∧
      (Broke rules id (history events id) →
        (t.handle event.arrival).messagesOf id = t.messagesOf id) ∧
      ∀ message, .message message ∈ (t.handle event.arrival).ready →
        .message message ∈ t.ready ∨
          message.id = id ∧ event.endsStream = true ∧
            (t.handle event.arrival).resetCount id = 0 ∧
            WholeMessage rules (history (events ++ [event]) id) message := by
  have hopen := horder.open he
  have hself := @history_snoc_self id event events he
  subst hrules
  cases hcloses : event.closes with
  | true =>
    cases event with
    | streamClosed word code =>
      refine ⟨h.close (Option.some.inj he), fun _ => messagesOf_close,
        fun message hmem => Or.inl ?_⟩
      simpa [Transport.handle, BridgeEvent.arrival] using hmem
    | _ => exact absurd hcloses (by simp [BridgeEvent.closes])
  | false =>
    have hnotClosed : ¬ Closed (history (events ++ [event]) id) := by
      rw [hself, closed_snoc, hcloses]
      simpa using hopen
    have hended : Ended (history (events ++ [event]) id) ↔
        Ended (history events id) ∨ event.endsStream = true := by
      rw [hself, ended_snoc]
    have hsince : sinceEnd (history (events ++ [event]) id) =
        if event.endsStream then [] else sinceEnd (history events id) ++ [event] := by
      rw [hself, sinceEnd_snoc]
    have hbroke : Broke t.rules id (history (events ++ [event]) id) ↔
        Broke t.rules id (history events id) ∨
          Breaks t.rules
            (gathered t.rules.isServer id (sinceEnd (history events id))) event := by
      rw [hself, broke_snoc]
    cases hrejected : t.isRejected id with
    | true =>
      rw [handle_rejected he hrejected hcloses]
      have hbefore := (h.rejected hopen).mp hrejected
      have hnow := hbroke.mpr (Or.inl hbefore)
      refine ⟨⟨fun _ => ?_, fun _ => iff_of_true hrejected hnow,
        fun hnot => absurd hnot hnotClosed, ?_, h.messages, fun hend => ?_⟩,
        fun _ => rfl, fun message hmem => Or.inl hmem⟩
      · rw [if_pos (Or.inr hnow), h.building hopen, if_pos (Or.inr hbefore)]
      · rw [if_pos hnow, h.resets, if_pos hbefore]
      · rw [hended, not_or] at hend
        exact h.pending hend.1
    | false =>
      obtain ⟨hexchange, hbefore⟩ := h.exchangeFor hopen hrejected
      have hzero : t.resetCount id = 0 := by rw [h.resets, if_neg hbefore]
      have hstep := handle_step he hrejected hcloses hsize
      generalize t.handle event.arrival = t' at hstep ⊢
      cases hstep with
      | reset code hbreaks =>
        have hnow : Broke t.rules id (history (events ++ [event]) id) := by
          rw [hbroke, ← hexchange]
          exact Or.inr hbreaks
        refine ⟨⟨fun _ => ?_, fun _ => iff_of_true ?_ hnow,
          fun hnot => absurd hnot hnotClosed, ?_, h.messages, fun hend => ?_⟩,
          fun hbad => absurd hbad hbefore, fun message hmem => Or.inl hmem⟩
        · rw [if_pos (Or.inr hnow)]
          exact Function.update_self ..
        · simp [Transport.isRejected, Transport.resetStream]
        · rw [resetCount_resetStream, hzero, if_pos rfl, if_pos hnow]
        · rw [hended, not_or] at hend
          exact h.pending hend.1
      | keep hkept hends =>
        have hnow : ¬ Broke t.rules id (history (events ++ [event]) id) := by
          rw [hbroke, ← hexchange, not_or]
          exact ⟨hbefore, hkept⟩
        have hflag : (t.keep id (gather t.rules.isServer (t.exchangeFor id)
            event)).isRejected id = false := hrejected
        refine ⟨⟨fun _ => ?_, fun _ => iff_of_false (by simp [hflag]) hnow,
          fun hnot => absurd hnot hnotClosed, ?_, h.messages, fun hend => ?_⟩,
          fun _ => rfl, fun message hmem => Or.inl hmem⟩
        · have hmore : sinceEnd (history (events ++ [event]) id) =
              sinceEnd (history events id) ++ [event] := by
            rw [hsince, hends]
            rfl
          rw [if_neg (not_or.mpr ⟨by simp [hmore], hnow⟩), hmore, gathered_snoc,
            ← hexchange]
          exact Function.update_self ..
        · rw [if_neg hnow]
          exact hzero
        · rw [hended, not_or] at hend
          exact h.pending hend.1
      | @deliver message hkept hends htype =>
        have hfirst := horder.first he hends
        have hid := h.message_id hopen hrejected htype
        have hnow : ¬ Broke t.rules id (history (events ++ [event]) id) := by
          rw [hbroke, ← hexchange, not_or]
          exact ⟨hbefore, hkept⟩
        have hflag : (t.deliver id message).isRejected id = false := hrejected
        refine ⟨⟨fun _ => ?_, fun _ => iff_of_false (by simp [hflag]) hnow,
          fun hnot => absurd hnot hnotClosed, ?_, ?_,
          fun hnot => absurd (hended.mpr (Or.inr hends)) hnot⟩,
          fun hbad => absurd hbad hbefore, fun other hmem => ?_⟩
        · rw [if_pos (Or.inl (by rw [hsince, if_pos hends]))]
          exact Function.update_self ..
        · rw [if_neg hnow]
          exact hzero
        · rw [messagesOf_deliver, h.pending hfirst, if_pos hid]
          rfl
        · rcases List.mem_append.mp hmem with hmem | hmem
          · exact Or.inl hmem
          · rw [List.mem_singleton, Http2Event.message.injEq] at hmem
            subst hmem
            refine Or.inr ⟨hid, hends, hzero, ?_⟩
            rw [hexchange, sinceEnd_of_not_ended hfirst] at htype
            rw [hself] at hnow ⊢
            exact (wholeMessage_of_not_broke hnow hfirst hends htype).2

/-- An event of another stream, or of none. -/
theorem handle_other (h : ∀ id, StreamInv rules events t id)
    (horder : BridgeOrder (events ++ [event]))
    (hsize : event.bytes.length < 2 ^ 63)
    (he : event.stream? ≠ some other) :
    (t.handle event.arrival).building other = t.building other ∧
      (t.handle event.arrival).rejected other = t.rejected other ∧
      (t.handle event.arrival).resetCount other = t.resetCount other ∧
      (t.handle event.arrival).messagesOf other = t.messagesOf other := by
  cases hid : event.stream? with
  | none =>
    have hplain : (t.handle event.arrival).messagesOf other = t.messagesOf other := by
      cases event <;>
        simp_all [BridgeEvent.stream?, Transport.messagesOf, Transport.handle,
          BridgeEvent.arrival]
    cases event with
    | goaway last code => exact ⟨rfl, rfl, rfl, hplain⟩
    | settingsAck => exact ⟨rfl, rfl, rfl, hplain⟩
    | _ => simp [BridgeEvent.stream?] at hid
  | some id =>
    have hne : other ≠ id := by
      rintro rfl
      exact he hid
    cases hcloses : event.closes with
    | true =>
      cases event with
      | streamClosed word code =>
        have hword : word.toInt64 = id := Option.some.inj hid
        subst hword
        exact ⟨Function.update_of_ne hne .., Function.update_of_ne hne .., rfl,
          messagesOf_close⟩
      | _ => exact absurd hcloses (by simp [BridgeEvent.closes])
    | false =>
      cases hrejected : t.isRejected id with
      | true =>
        rw [handle_rejected hid hrejected hcloses]
        exact ⟨rfl, rfl, rfl, rfl⟩
      | false =>
        have hstep := handle_step hid hrejected hcloses hsize
        generalize t.handle event.arrival = t' at hstep ⊢
        cases hstep with
        | reset code hbreaks =>
          refine ⟨Function.update_of_ne hne .., Function.update_of_ne hne .., ?_, rfl⟩
          rw [resetCount_resetStream, if_neg hne.symm, Nat.add_zero]
        | keep hkept hends => exact ⟨Function.update_of_ne hne .., rfl, rfl, rfl⟩
        | @deliver message hkept hends htype =>
          refine ⟨Function.update_of_ne hne .., rfl, rfl, ?_⟩
          rw [messagesOf_deliver,
            (h id).message_id (horder.open hid) hrejected htype, if_neg hne.symm,
            List.append_nil]

theorem ready_other (he : event.stream? = none)
    (hmem : .message message ∈ (t.handle event.arrival).ready) :
    .message message ∈ t.ready := by
  cases event with
  | goaway last code =>
    rcases List.mem_append.mp hmem with hmem | hmem
    · exact hmem
    · simp at hmem
  | settingsAck => exact hmem
  | _ => simp [BridgeEvent.stream?] at he

/-- A message is the whole of its stream up to the event that ended it, and the
stream was not reset until then. -/
def DeliveredWhole (rules : Rules) (events : List BridgeEvent) (message : Stream) : Prop :=
  ∃ past event rest, events = past ++ event :: rest ∧
    event.stream? = some message.id ∧ event.endsStream = true ∧
    (Transport.received { rules := rules } (past ++ [event])).resetCount message.id = 0 ∧
    WholeMessage rules (history (past ++ [event]) message.id) message

theorem received_snoc (rules : Rules) (events : List BridgeEvent) (event : BridgeEvent) :
    Transport.received { rules := rules } (events ++ [event]) =
      (Transport.received { rules := rules } events).handle event.arrival :=
  Transport.received_append ..

theorem received_inv (horder : BridgeOrder events)
    (hsize : ∀ event ∈ events, event.bytes.length < 2 ^ 63) :
    (∀ id, StreamInv rules events (Transport.received { rules := rules } events) id) ∧
      ∀ message, .message message ∈ (Transport.received { rules := rules } events).ready →
        DeliveredWhole rules events message := by
  induction events using List.reverseRecOn with
  | nil => exact ⟨streamInv_fresh rules, by simp⟩
  | append_singleton events event ih =>
    obtain ⟨hinv, hwhole⟩ := ih horder.prefix fun event hmem =>
      hsize event (List.mem_append_left _ hmem)
    have hevent := hsize event (by simp)
    have hrules := received_rules { rules := rules } events
    have hlater : ∀ message, DeliveredWhole rules events message →
        DeliveredWhole rules (events ++ [event]) message := by
      rintro message ⟨past, last, rest, rfl, hrest⟩
      exact ⟨past, last, rest ++ [event], by simp, hrest⟩
    rw [received_snoc]
    refine ⟨fun id => ?_, fun message hmem => ?_⟩
    · by_cases he : event.stream? = some id
      · exact ((hinv id).step hrules horder he hevent).1
      · obtain ⟨hbuilding, hrejected, hresets, hmessages⟩ :=
          handle_other hinv horder hevent he
        exact (hinv id).congr (history_snoc_other he) hbuilding hrejected hresets hmessages
    · cases he : event.stream? with
      | none => exact hlater _ (hwhole _ (ready_other he hmem))
      | some id =>
        rcases ((hinv id).step hrules horder he hevent).2.2 message hmem with
          hbefore | ⟨hid, hends, hreset, hmessage⟩
        · exact hlater _ (hwhole _ hbefore)
        · subst hid
          refine ⟨events, event, [], rfl, he, hends, ?_, hmessage⟩
          rw [received_snoc]
          exact hreset

variable {rest : List BridgeEvent}

theorem BridgeOrder.take (h : BridgeOrder (events ++ rest)) :
    BridgeOrder events := by
  induction rest using List.reverseRecOn with
  | nil => rwa [List.append_nil] at h
  | append_singleton rest event ih =>
    rw [← List.append_assoc] at h
    exact ih h.prefix

theorem broke_append (h : Broke rules id events) :
    Broke rules id (events ++ rest) := by
  obtain ⟨past, event, later, rfl, hbreaks⟩ := h
  exact ⟨past, event, later ++ rest, by simp, hbreaks⟩

/-- A stream that broke a rule yields nothing more. -/
theorem messagesOf_broke (horder : BridgeOrder (events ++ rest))
    (hsize : ∀ event ∈ events ++ rest, event.bytes.length < 2 ^ 63)
    (hbroke : Broke rules id (history events id)) :
    (Transport.received { rules := rules } (events ++ rest)).messagesOf id =
      (Transport.received { rules := rules } events).messagesOf id := by
  induction rest using List.reverseRecOn with
  | nil => rw [List.append_nil]
  | append_singleton rest event ih =>
    rw [← List.append_assoc] at horder hsize ⊢
    have hearlier := fun event hmem => hsize event (List.mem_append_left _ hmem)
    have hinv := (@received_inv rules _ horder.prefix hearlier).1
    have hevent := hsize event (by simp)
    rw [← ih horder.prefix hearlier, received_snoc]
    by_cases he : event.stream? = some id
    · refine ((hinv id).step (received_rules ..) horder he hevent).2.1 ?_
      rw [history, List.filter_append]
      exact broke_append hbroke
    · exact (handle_other hinv horder hevent he).2.2.2

theorem event_bytes_le (h : event ∈ events) :
    event.bytes.length ≤ (queueBytes events).length := by
  obtain ⟨past, rest, rfl⟩ := List.append_of_mem h
  simp only [queueBytes, List.flatMap_append, List.flatMap_cons, List.length_append]
  omega

open Classical in
/-- However the events of the bridge are cut into queues, a server or a client
delivers only whole messages, at most one for a stream.  A stream is reset once when
its history breaks a rule and yields nothing from then on, and its close leaves
nothing of it. -/
theorem whole_messages (rules : Rules) (queues : List (List BridgeEvent))
    (horder : BridgeOrder queues.flatten)
    (hsize : ∀ events ∈ queues, (queueBytes events).length < 2 ^ 63) :
    let run := fun events => Transport.received { rules := rules } events
    Transport.drainAll (queues.map queueBytes) { rules := rules } =
        (.ok (), run queues.flatten) ∧
      (∀ message, .message message ∈ (run queues.flatten).ready →
        DeliveredWhole rules queues.flatten message) ∧
      (∀ id, ((run queues.flatten).messagesOf id).length ≤ 1) ∧
      ∀ past rest id, queues.flatten = past ++ rest →
        (run past).resetCount id = (if Broke rules id (history past id) then 1 else 0) ∧
          (Broke rules id (history past id) →
            (run queues.flatten).messagesOf id = (run past).messagesOf id) ∧
          (Closed (history past id) →
            (run past).building id = none ∧ (run past).rejected id = none) := by
  intro run
  have hevents : ∀ event ∈ queues.flatten, event.bytes.length < 2 ^ 63 := by
    intro event hmem
    obtain ⟨events, hqueue, hevent⟩ := List.mem_flatten.mp hmem
    exact (event_bytes_le hevent).trans_lt (hsize events hqueue)
  obtain ⟨hinv, hwhole⟩ := received_inv horder hevents
  refine ⟨Transport.drainAll_queues queues _ hsize, hwhole, fun id => (hinv id).messages,
    fun past rest id hsplit => ?_⟩
  rw [hsplit] at horder hevents ⊢
  have hearlier := fun event hmem => hevents event (List.mem_append_left _ hmem)
  have hpast := (@received_inv rules past horder.take hearlier).1 id
  exact ⟨hpast.resets, messagesOf_broke horder hevents, hpast.closed⟩

/-- A request cut into two queues, and the close of its stream. -/
def getRequest : List (List BridgeEvent) :=
  [[.header 1 [58, 109, 101, 116, 104, 111, 100] [71, 69, 84],
      .header 1 [58, 115, 99, 104, 101, 109, 101] [104]],
    [.header 1 [58, 112, 97, 116, 104] [47], .headersDone 1 true 1, .streamClosed 1 0]]

theorem getRequest_order : BridgeOrder getRequest.flatten where
  once := by
    intro id
    have hsub := (List.filter_sublist (l := getRequest.flatten)
      (p := fun event => event.stream? == some id)).filter BridgeEvent.endsStream
    exact hsub.length_le.trans (by decide)
  last := by
    intro past event rest hsplit hcloses later hlater
    have hlast : getRequest.flatten.dropLast.all (fun event => !event.closes) = true := by
      decide
    rw [hsplit, List.dropLast_append_of_ne_nil (List.cons_ne_nil event rest),
      List.dropLast_cons_of_ne_nil (List.ne_nil_of_mem hlater)] at hlast
    simp [hcloses] at hlast

/-- The `GET` of `getRequest` is delivered once, and whole. -/
theorem whole_messages_get :
    ∃ message, (Transport.received { rules := { isServer := true } }
        getRequest.flatten).messagesOf 1 = [message] ∧ message.complete = true ∧
      DeliveredWhole { isServer := true } getRequest.flatten message := by
  let message : Stream :=
    { id := 1
      headers := [(ascii ":method", ascii "GET"), (ascii ":scheme", ascii "h"),
        (ascii ":path", ascii "/")]
      request := some { method := ascii "GET", target := ascii "/", major := 2, minor := 0 }
      complete := true
      headerBytes := 24
      headerCount := 3
      initialHeadersDone := true }
  exact ⟨message, by decide, rfl,
    (whole_messages { isServer := true } getRequest getRequest_order (by decide)).2.1 message
      (by decide)⟩

end Http2
end Beans
