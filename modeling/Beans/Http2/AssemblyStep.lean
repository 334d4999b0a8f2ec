import Beans.Http2.StreamHistory

/-!
# One event of an open stream

The checks of the transport are the rules of the history: an event of a stream
that is not rejected resets it exactly when it breaks a rule, and is gathered or
completes the message otherwise.
-/

namespace Beans
namespace Http2

variable {isServer : Bool} {s message : Stream} {name value : Text} {headers : Headers}
  {t : Transport} {event : BridgeEvent} {id : Int64}

theorem textOr_ne_nil (value : Option Text) :
    (textOr value []).length ≠ 0 ↔ ∃ text, value = some text ∧ text ≠ [] := by
  cases value <;> simp [textOr]

theorem checkReceivedHeader_of_admitted (h : FieldAdmitted isServer s (name, value)) :
    checkReceivedHeader isServer s name value =
      some { s with regularSeen := s.regularSeen || !pseudoName name } := by
  obtain ⟨⟨hname, hvalue, hgeneral, htrailers⟩, hpseudo⟩ := h
  simp only at hname hvalue hgeneral htrailers hpseudo
  rw [checkReceivedHeader, hname, hvalue, validH2Name_lower hname]
  cases hp : pseudoName name with
  | true =>
    obtain ⟨hinitial, hregular, hhas, hallowed⟩ := hpseudo hp
    have hsame : { s with regularSeen := s.regularSeen || !true } = s := by
      rw [Bool.not_true, Bool.or_false]
    rw [hsame]
    simp [hinitial, hregular, hhas, hallowed]
  | false =>
    have hspecific := hgeneral hp
    by_cases hte : name = ascii "te"
    · simp [hspecific, htrailers hte]
    · simp [hspecific, hte]

theorem checkReceivedHeader_of_not_admitted (h : ¬ FieldAdmitted isServer s (name, value)) :
    checkReceivedHeader isServer s name value = none := by
  unfold checkReceivedHeader
  cases hname : validH2Name name with
  | false => rfl
  | true =>
    cases hvalue : fieldIsSafe value with
    | false => rfl
    | true =>
      rw [validH2Name_lower hname]
      have hte : pseudoName (ascii "te") = false := by decide
      cases hp : pseudoName name with
      | true =>
        have hother : name ≠ ascii "te" := by
          rintro rfl
          rw [hte] at hp
          exact absurd hp (by simp)
        have hrefused : ¬ (s.initialHeadersDone = false ∧ s.regularSeen = false ∧
            s.headers.has name = false ∧ allowedPseudo isServer name = true) :=
          fun hall => h ⟨⟨hname, hvalue, fun hn => by simp [hp] at hn,
            fun heq => absurd heq hother⟩, fun _ => hall⟩
        cases hinitial : s.initialHeadersDone <;> cases hregular : s.regularSeen <;>
          cases hhas : s.headers.has name <;>
            cases hallowed : allowedPseudo isServer name <;> simp_all
      | false =>
        have hrefused : ¬ (connectionSpecific name = false ∧
            (name = ascii "te" → strToLower (strTrim value) = ascii "trailers")) :=
          fun hall => h ⟨⟨hname, hvalue, fun _ => hall.1, hall.2⟩,
            fun hn => by simp [hp] at hn⟩
        cases hspecific : connectionSpecific name <;> simp_all

/-- The check does not look at the counts. -/
theorem checkReceivedHeader_counted (s : Stream) (count bytes : ℤ) (name value : Text) :
    checkReceivedHeader isServer { s with headerCount := count, headerBytes := bytes } name
        value =
      (checkReceivedHeader isServer s name value).map fun s =>
        { s with headerCount := count, headerBytes := bytes } := by
  unfold checkReceivedHeader
  simp only
  split_ifs <;> rfl

theorem checkRequiredHeaders_iff :
    checkRequiredHeaders isServer headers = true ↔ RequiredHeaders isServer headers := by
  unfold checkRequiredHeaders RequiredHeaders
  cases isServer with
  | true =>
    simp only [if_true]
    cases hmethod : headers.get (ascii ":method") with
    | none => simp [textOr]
    | some method =>
      simp only [textOr, Option.getD_some, Option.some.injEq, exists_eq_left']
      by_cases hempty : method = []
      · simp [hempty]
      · by_cases hconnect : method = ascii "CONNECT"
        · have := textOr_ne_nil (headers.get (ascii ":authority"))
          subst hconnect
          simp only [textOr] at this
          simp [← this, hempty, and_assoc]
        · have hscheme := textOr_ne_nil (headers.get (ascii ":scheme"))
          have hpath := textOr_ne_nil (headers.get (ascii ":path"))
          simp only [textOr] at hscheme hpath
          simp [← hscheme, ← hpath, hempty, hconnect]
  | false =>
    simp only [Bool.false_eq_true, if_false]
    cases hstatus : headers.get (ascii ":status") with
    | none => simp [textOr]
    | some text =>
      have hvalue : statusOf headers = (strToInt text).getD 0 := by
        rw [statusOf, hstatus]
        rfl
      change (!(text.length != 3 || decide ((strToInt text).getD 0 < 100) ||
        decide (599 < (strToInt text).getD 0))) = true ↔ _
      simp only [hvalue, Option.some.injEq, exists_eq_left', Bool.not_eq_true',
        Bool.or_eq_false_iff, bne_eq_false_iff_eq, and_assoc, decide_eq_false_iff_not, not_lt]

theorem typeExchange_eq_none_iff :
    typeExchange isServer s = none ↔ ¬ LengthKept isServer s.headers s.body := by
  unfold typeExchange LengthKept
  cases hdeclared : contentLengthFor (ordinaryHeaders isServer s.headers) with
  | none => simp [hdeclared]
  | some declared =>
    cases declared with
    | none => cases isServer <;> simp [hdeclared]
    | some length =>
      by_cases hlength : length = s.body.length <;>
        cases isServer <;> simp [hdeclared, hlength]

/-- A typed exchange has the head of its fields, and is otherwise as it was. -/
theorem typeExchange_some (h : typeExchange isServer s = some message) :
    HeadOf isServer message ∧ message.headers = s.headers ∧ message.body = s.body ∧
      message.id = s.id := by
  unfold typeExchange at h
  cases hdeclared : contentLengthFor (ordinaryHeaders isServer s.headers) with
  | none => simp [hdeclared] at h
  | some declared =>
    simp only [hdeclared] at h
    split_ifs at h with hlength hserver
    · cases h
      refine ⟨?_, rfl, rfl, rfl⟩
      rw [HeadOf, if_pos hserver]
      exact ⟨_, rfl, rfl, rfl, rfl⟩
    · cases h
      refine ⟨?_, rfl, rfl, rfl⟩
      rw [HeadOf, if_neg hserver]
      exact ⟨_, rfl, rfl, rfl⟩

/-- What an event of an open stream does. -/
inductive Step (t : Transport) (id : Int64) (event : BridgeEvent) : Transport → Prop
  | reset (code : ℕ)
      (h : Breaks t.rules (t.exchangeFor id) event) :
      Step t id event (t.resetStream id code)
  | keep
      (h : ¬ Breaks t.rules (t.exchangeFor id) event)
      (hend : event.endsStream = false) :
      Step t id event (t.keep id (gather t.rules.isServer (t.exchangeFor id) event))
  | deliver {message : Stream}
      (h : ¬ Breaks t.rules (t.exchangeFor id) event)
      (hend : event.endsStream = true)
      (htype : typeExchange t.rules.isServer
        { gather t.rules.isServer (t.exchangeFor id) event with complete := true } =
          some message) :
      Step t id event (t.deliver id message)

theorem headersFlags_odd (endStream : Bool) (category : Fin 4) :
    (headersFlags endStream category).toInt64 % 2 = 1 ↔ endStream = true := by
  revert endStream category
  decide

/-- The end of a part, with the flags of its event. -/
theorem onHeadersDone_step {flags : Int64} (hopen : t.isRejected id = false)
    (hflags : flags % 2 = 1 ↔ event.endsStream = true)
    (hgather : gather t.rules.isServer (t.exchangeFor id) event =
      gatherDone t.rules.isServer (t.exchangeFor id))
    (hbreaks : Breaks t.rules (t.exchangeFor id) event ↔
      ((t.exchangeFor id).initialHeadersDone = false ∧
        (¬ RequiredHeaders t.rules.isServer (t.exchangeFor id).headers ∨
          InformationalStatus t.rules.isServer (t.exchangeFor id).headers ∧
            (statusOf (t.exchangeFor id).headers = 101 ∨ event.endsStream = true))) ∨
      event.endsStream = true ∧
        ¬ LengthKept t.rules.isServer (t.exchangeFor id).headers (t.exchangeFor id).body) :
    Step t id event (t.onHeadersDone id flags) := by
  have hinformational : InformationalStatus t.rules.isServer (t.exchangeFor id).headers ↔
      (!t.rules.isServer) = true ∧ 100 ≤ statusOf (t.exchangeFor id).headers ∧
        statusOf (t.exchangeFor id).headers < 200 := by
    rw [InformationalStatus, Bool.not_eq_true']
  -- an exchange past its opening block, or with the block just completed
  have hpart : ∀ exchange : Stream, exchange = gatherDone t.rules.isServer (t.exchangeFor id) →
      exchange.headers = (t.exchangeFor id).headers →
      exchange.body = (t.exchangeFor id).body →
      (Breaks t.rules (t.exchangeFor id) event ↔ event.endsStream = true ∧
        ¬ LengthKept t.rules.isServer (t.exchangeFor id).headers (t.exchangeFor id).body) →
      Step t id event (t.endPart id flags exchange) := by
    intro exchange hexchange hheaders hbody hrule
    have htype : typeExchange t.rules.isServer { exchange with complete := true } = none ↔
        ¬ LengthKept t.rules.isServer (t.exchangeFor id).headers (t.exchangeFor id).body := by
      rw [typeExchange_eq_none_iff, ← hheaders, ← hbody]
    unfold Transport.endPart
    by_cases hend : event.endsStream = true
    · rw [if_pos (hflags.mpr hend)]
      cases hresult : typeExchange t.rules.isServer { exchange with complete := true } with
      | none => exact .reset 1 (hrule.mpr ⟨hend, htype.mp hresult⟩)
      | some message =>
        refine .deliver (fun hbroke => ?_) hend (by rw [hgather, ← hexchange, hresult])
        rw [htype.mpr (hrule.mp hbroke).2] at hresult
        exact absurd hresult (by simp)
    · rw [if_neg fun hodd => hend (hflags.mp hodd), hexchange, ← hgather]
      exact .keep (fun hbroke => hend (hrule.mp hbroke).1) (by simpa using hend)
  unfold Transport.onHeadersDone
  rw [hopen, if_neg (by simp)]
  simp only
  cases hinitial : (t.exchangeFor id).initialHeadersDone with
  | true =>
    refine hpart _ ?_ rfl rfl ?_
    · unfold gatherDone
      rw [if_pos hinitial]
    · rw [hbreaks, hinitial]
      simp
  | false =>
    simp only [Bool.false_eq_true, if_false]
    by_cases hrequired : RequiredHeaders t.rules.isServer (t.exchangeFor id).headers
    · rw [checkRequiredHeaders_iff.mpr hrequired, if_neg (by simp)]
      by_cases hstatus : InformationalStatus t.rules.isServer (t.exchangeFor id).headers
      · rw [if_pos (hinformational.mp hstatus)]
        split_ifs with hswitching
        · rw [hflags] at hswitching
          exact .reset 1 (hbreaks.mpr (Or.inl ⟨hinitial, Or.inr ⟨hstatus, hswitching⟩⟩))
        · rw [hflags, not_or] at hswitching
          have hkept : ¬ Breaks t.rules (t.exchangeFor id) event := by
            rw [hbreaks]
            rintro (⟨-, hmissing | ⟨-, hother⟩⟩ | ⟨hend, -⟩)
            · exact hmissing hrequired
            · exact hother.elim hswitching.1 hswitching.2
            · exact hswitching.2 hend
          have hdone : gather t.rules.isServer (t.exchangeFor id) event =
              { id := (t.exchangeFor id).id, body := (t.exchangeFor id).body,
                request := (t.exchangeFor id).request, response := (t.exchangeFor id).response,
                complete := (t.exchangeFor id).complete,
                headerBytes := (t.exchangeFor id).headerBytes,
                headerCount := (t.exchangeFor id).headerCount,
                initialHeadersDone := (t.exchangeFor id).initialHeadersDone } := by
            rw [hgather]
            unfold gatherDone
            rw [if_neg (by simp [hinitial]), if_pos hstatus]
          have hkeep := Step.keep hkept (by simpa using hswitching.2)
          rw [hdone, hinitial] at hkeep
          exact hkeep
      · rw [if_neg (mt hinformational.mpr hstatus)]
        refine hpart _ ?_ rfl rfl ?_
        · unfold gatherDone
          rw [if_neg (by simp [hinitial]), if_neg hstatus]
        · rw [hbreaks]
          simp [hrequired, hstatus]
    · have hcheck : checkRequiredHeaders t.rules.isServer (t.exchangeFor id).headers = false := by
        simpa using mt checkRequiredHeaders_iff.mp hrequired
      rw [hcheck, if_pos (by simp)]
      exact .reset 1 (hbreaks.mpr (Or.inl ⟨hinitial, Or.inl hrequired⟩))

/-- An event of an open stream is handled by its own rule. -/
theorem handle_step (he : event.stream? = some id)
    (hopen : t.isRejected id = false)
    (hclose : event.closes = false)
    (hsize : event.bytes.length < 2 ^ 63) :
    Step t id event (t.handle event.arrival) := by
  cases event with
  | header word name value =>
    cases he
    simp only [BridgeEvent.bytes, List.length_append, List.length_cons] at hsize
    have hname : (Int64.ofNat name.length).toInt = name.length :=
      Bytes.toInt_ofNat_of_lt (by omega)
    have hvalue : (Int64.ofNat value.length).toInt = value.length :=
      Bytes.toInt_ofNat_of_lt (by omega)
    change Step t word.toInt64 _ (t.onHeader word.toInt64 (Int64.ofNat name.length)
      (Int64.ofNat value.length) (bytesToString name) (bytesToString value))
    unfold Transport.onHeader
    rw [hopen, if_neg (by simp), hname, hvalue]
    simp only
    split_ifs with hlimit
    · exact .reset 11 (hlimit.imp id Or.inl)
    · rw [not_or] at hlimit
      rw [checkReceivedHeader_counted]
      by_cases hadmitted : FieldAdmitted t.rules.isServer (t.exchangeFor word.toInt64)
          (bytesToString name, bytesToString value)
      · rw [checkReceivedHeader_of_admitted hadmitted]
        refine .keep ?_ rfl
        rintro (hbad | hbad | hbad)
        · exact hlimit.1 hbad
        · exact hlimit.2 hbad
        · exact hbad hadmitted
      · rw [checkReceivedHeader_of_not_admitted hadmitted]
        exact .reset 1 (Or.inr (Or.inr hadmitted))
  | data word payload =>
    cases he
    simp only [BridgeEvent.bytes, List.length_append] at hsize
    have hlength : (Int64.ofNat payload.length).toInt = payload.length :=
      Bytes.toInt_ofNat_of_lt (by omega)
    change Step t word.toInt64 _ (t.onData word.toInt64 (Int64.ofNat payload.length) payload)
    unfold Transport.onData
    rw [hopen, if_neg (by simp), hlength]
    simp only
    split_ifs with hlimit
    · exact .reset 11 hlimit
    · exact .keep hlimit rfl
  | headersDone word endStream category =>
    cases he
    exact onHeadersDone_step hopen (headersFlags_odd endStream category) rfl Iff.rfl
  | dataDone word =>
    cases he
    exact onHeadersDone_step hopen (by simp [BridgeEvent.endsStream]) rfl Iff.rfl
  | streamClosed word code => exact absurd hclose (by simp [BridgeEvent.closes])
  | goaway last code => exact absurd he (by simp [BridgeEvent.stream?])
  | settingsAck => exact absurd he (by simp [BridgeEvent.stream?])

/-- What is queued for a rejected stream is passed over. -/
theorem handle_rejected (he : event.stream? = some id)
    (hrejected : t.isRejected id = true)
    (hclose : event.closes = false) :
    t.handle event.arrival = t := by
  cases event with
  | header word name value =>
    cases he
    exact if_pos hrejected
  | data word payload =>
    cases he
    exact if_pos hrejected
  | headersDone word endStream category =>
    cases he
    exact if_pos hrejected
  | dataDone word =>
    cases he
    exact if_pos hrejected
  | streamClosed word code => exact absurd hclose (by simp [BridgeEvent.closes])
  | goaway last code => exact absurd he (by simp [BridgeEvent.stream?])
  | settingsAck => exact absurd he (by simp [BridgeEvent.stream?])

end Http2
end Beans
