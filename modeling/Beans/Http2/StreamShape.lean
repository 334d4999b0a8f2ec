import Beans.Http2.AssemblyStep

/-!
# What an unbroken history has gathered

As long as no event breaks a rule, what a stream has gathered is split into
informational blocks, an opening block and what follows it.  The event that ends
the stream then completes a whole message.
-/

namespace Beans
namespace Http2

variable {rules : Rules} {isServer : Bool} {id : Int64} {events : List BridgeEvent}
  {event : BridgeEvent} {s message : Stream}

@[simp] theorem fieldsOf_append (a b : List BridgeEvent) :
    fieldsOf (a ++ b) = fieldsOf a ++ fieldsOf b :=
  List.filterMap_append

theorem gathered_snoc (isServer : Bool) (id : Int64) (events : List BridgeEvent)
    (event : BridgeEvent) :
    gathered isServer id (events ++ [event]) =
      gather isServer (gathered isServer id events) event := by
  rw [gathered, List.foldl_append]
  rfl

theorem ended_snoc :
    Ended (events ++ [event]) ↔ Ended events ∨ event.endsStream = true := by
  simp [Ended, or_and_right, exists_or]

theorem not_ended_dropLast (h : ¬ Ended events) : ¬ Ended events.dropLast :=
  fun ⟨event, hmem, hends⟩ => h ⟨event, List.mem_of_mem_dropLast hmem, hends⟩

theorem sinceEnd_snoc (events : List BridgeEvent) (event : BridgeEvent) :
    sinceEnd (events ++ [event]) =
      if event.endsStream then [] else sinceEnd events ++ [event] := by
  rw [sinceEnd, List.foldl_append]
  rfl

theorem sinceEnd_of_not_ended (h : ¬ Ended events) : sinceEnd events = events := by
  induction events using List.reverseRecOn with
  | nil => rfl
  | append_singleton events event ih =>
    rw [ended_snoc, not_or] at h
    rw [sinceEnd_snoc, if_neg h.2, ih h.1]

theorem broke_snoc :
    Broke rules id (events ++ [event]) ↔
      Broke rules id events ∨
        Breaks rules (gathered rules.isServer id (sinceEnd events)) event := by
  constructor
  · rintro ⟨past, broken, rest, hsplit, hbreaks⟩
    rcases List.eq_nil_or_concat rest with rfl | ⟨rest', last, rfl⟩
    · obtain ⟨rfl, heq⟩ := List.append_inj' hsplit rfl
      cases heq
      exact Or.inr hbreaks
    · rw [List.concat_eq_append, ← List.cons_append, ← List.append_assoc] at hsplit
      obtain ⟨rfl, -⟩ := List.append_inj' hsplit rfl
      exact Or.inl ⟨past, broken, rest', rfl, hbreaks⟩
  · rintro (⟨past, broken, rest, rfl, hbreaks⟩ | hbreaks)
    · exact ⟨past, broken, rest ++ [event], by simp, hbreaks⟩
    · exact ⟨events, event, [], rfl, hbreaks⟩

theorem not_broke_nil : ¬ Broke rules id [] := by
  rintro ⟨past, event, rest, hsplit, -⟩
  exact absurd hsplit (by simp)

theorem gatherDone_counts (s : Stream) :
    (gatherDone isServer s).id = s.id ∧ (gatherDone isServer s).headerCount = s.headerCount ∧
      (gatherDone isServer s).headerBytes = s.headerBytes ∧
      (gatherDone isServer s).body = s.body := by
  unfold gatherDone
  split_ifs <;> exact ⟨rfl, rfl, rfl, rfl⟩

/-- What has been counted is what the history says. -/
theorem gathered_counts (isServer : Bool) (id : Int64) (events : List BridgeEvent) :
    (gathered isServer id events).id = id ∧
      (gathered isServer id events).headerCount = (fieldsOf events).length ∧
      (gathered isServer id events).headerBytes = fieldBytes events ∧
      (gathered isServer id events).body = bodyOf events := by
  induction events using List.reverseRecOn with
  | nil => exact ⟨rfl, rfl, rfl, rfl⟩
  | append_singleton events event ih =>
    obtain ⟨hid, hcount, hbytes, hbody⟩ := ih
    have hdone := @gatherDone_counts isServer (gathered isServer id events)
    rw [gathered_snoc]
    cases event with
    | header word name value =>
      simp [gather, hid, hcount, hbytes, hbody, fieldsOf, fieldBytes, bodyOf]
    | data word payload =>
      simp [gather, hid, hcount, hbytes, hbody, fieldsOf, fieldBytes, bodyOf]
    | headersDone word endStream category =>
      simp [gather, hdone, hid, hcount, hbytes, hbody, fieldsOf, fieldBytes, bodyOf]
    | dataDone word =>
      simp [gather, hdone, hid, hcount, hbytes, hbody, fieldsOf, fieldBytes, bodyOf]
    | _ => simp [gather, hid, hcount, hbytes, hbody, fieldsOf, fieldBytes, bodyOf]

theorem breaks_header {word : UInt64} {name value : Bytes} :
    Breaks rules s (.header word name value) ↔
      rules.maxHeaderCount < s.headerCount + 1 ∨
        rules.maxHeaderBytes < s.headerBytes + (name.length + value.length : ℤ) ∨
        ¬ FieldAdmitted rules.isServer s (bytesToString name, bytesToString value) :=
  Iff.rfl

theorem breaks_data {word : UInt64} {payload : Bytes} :
    Breaks rules s (.data word payload) ↔ rules.maxBody < s.body.length + payload.length :=
  Iff.rfl

theorem isDone_of_ends (h : event.endsStream = true) : event.isDone = true := by
  cases event <;> simp_all [BridgeEvent.endsStream, BridgeEvent.isDone]

theorem gather_of_done (h : event.isDone = true) :
    gather isServer s event = gatherDone isServer s := by
  cases event <;> simp_all [BridgeEvent.isDone, gather]

theorem breaks_of_done (h : event.isDone = true) :
    Breaks rules s event ↔
      (s.initialHeadersDone = false ∧
        (¬ RequiredHeaders rules.isServer s.headers ∨
          InformationalStatus rules.isServer s.headers ∧
            (statusOf s.headers = 101 ∨ event.endsStream = true))) ∨
      event.endsStream = true ∧ ¬ LengthKept rules.isServer s.headers s.body := by
  cases event with
  | headersDone word endStream category => exact Iff.rfl
  | dataDone word => exact Iff.rfl
  | _ => exact absurd h (by simp [BridgeEvent.isDone])

/-- The limits hold of what has been counted. -/
theorem limits_of_not_broke (h : ¬ Broke rules id events)
    (hopen : ¬ Ended events.dropLast) :
    (fieldsOf events ≠ [] → ((fieldsOf events).length : ℤ) ≤ rules.maxHeaderCount ∧
        fieldBytes events ≤ rules.maxHeaderBytes) ∧
      ((bodyOf events).length : ℤ) ≤ max rules.maxBody 0 := by
  induction events using List.reverseRecOn with
  | nil => exact ⟨fun h => absurd rfl h, by simp [bodyOf]⟩
  | append_singleton events event ih =>
    rw [List.dropLast_concat] at hopen
    rw [broke_snoc, not_or, sinceEnd_of_not_ended hopen] at h
    obtain ⟨hfields, hbody⟩ := ih h.1 (not_ended_dropLast hopen)
    obtain ⟨-, hcount, hbytes, hlength⟩ := gathered_counts rules.isServer id events
    have hkept := h.2
    cases event with
    | header word name value =>
      rw [breaks_header, not_or, not_or, not_lt, not_lt, hcount, hbytes] at hkept
      refine ⟨fun _ => ⟨?_, ?_⟩, by simpa [bodyOf] using hbody⟩
      · simpa [fieldsOf] using hkept.1
      · simpa [fieldBytes] using hkept.2.1
    | data word payload =>
      rw [breaks_data, not_lt, hlength] at hkept
      refine ⟨by simpa [fieldsOf, fieldBytes] using hfields, ?_⟩
      refine le_max_of_le_left ?_
      simpa [bodyOf] using hkept
    | _ =>
      exact ⟨by simpa [fieldsOf, fieldBytes] using hfields, by simpa [bodyOf] using hbody⟩

/-- The blocks of a history, as far as they have come. -/
inductive Shaped (isServer : Bool) : List BridgeEvent → Stream → Prop
  | opening {events : List BridgeEvent} {s : Stream}
      (informational opening : List BridgeEvent)
      (hsplit : events = informational ++ opening)
      (hinitial : s.initialHeadersDone = false)
      (hbefore : Informational isServer informational)
      (hopening : ∀ event ∈ opening, event.isDone = false)
      (hfields : OpeningFields isServer (fieldsOf opening))
      (hheaders : s.headers = fieldsOf opening)
      (hregular : s.regularSeen = false →
        ∀ field ∈ fieldsOf opening, pseudoName field.1 = true) :
      Shaped isServer events s
  | opened {events : List BridgeEvent} {s : Stream}
      (informational opening rest : List BridgeEvent)
      (done : BridgeEvent)
      (hinitial : s.initialHeadersDone = true)
      (hblocks : Blocks isServer events s.headers informational opening rest done) :
      Shaped isServer events s

theorem OpeningFields.nil : OpeningFields isServer [] where
  sound := fun _ h => absurd h List.not_mem_nil
  permitted := fun _ h => absurd h List.not_mem_nil
  unique := List.nodup_nil
  precede := List.Pairwise.nil

/-- An admitted field goes on with the opening block. -/
theorem OpeningFields.snoc {fields : Headers} {field : Text × Text}
    (h : OpeningFields isServer fields)
    (hregular : s.regularSeen = false → ∀ field ∈ fields, pseudoName field.1 = true)
    (hheaders : s.headers = fields)
    (hadmitted : FieldAdmitted isServer s field) :
    OpeningFields isServer (fields ++ [field]) := by
  obtain ⟨hsound, hpseudo⟩ := hadmitted
  refine ⟨?_, ?_, ?_, ?_⟩
  · rw [List.forall_mem_append]
    exact ⟨h.sound, by simpa using hsound⟩
  · rw [List.forall_mem_append]
    exact ⟨h.permitted, by simpa using fun hp => (hpseudo hp).2.2.2⟩
  · rw [List.filter_append, List.map_append]
    cases hp : pseudoName field.1 with
    | false => simpa [hp] using h.unique
    | true =>
      have hnew := (hpseudo hp).2.2.1
      rw [hheaders, ← Bool.not_eq_true, has_iff] at hnew
      rw [List.nodup_append]
      refine ⟨h.unique, by simp [hp], ?_⟩
      intro name hname name' hname' heq
      obtain ⟨other, hother, rfl⟩ := List.mem_map.mp hname
      simp only [hp, List.filter_cons_of_pos, List.filter_nil, List.map_cons, List.map_nil,
        List.mem_singleton] at hname'
      exact hnew ⟨other, (List.mem_filter.mp hother).1, by rw [heq, hname']⟩
  · rw [List.pairwise_append]
    refine ⟨h.precede, List.pairwise_singleton _ _, fun a ha b hb hp => ?_⟩
    rw [List.mem_singleton] at hb
    subst hb
    exact hregular (hpseudo hp).2.1 a ha

theorem fieldsOf_done (hdone : event.isDone = true) : fieldsOf [event] = [] := by
  cases event <;> simp_all [fieldsOf, BridgeEvent.isDone]

/-- An event that changes neither fields nor blocks. -/
theorem Shaped.extend {s' : Stream} (h : Shaped isServer events s)
    (hdone : event.isDone = false)
    (hfields : fieldsOf [event] = [])
    (hheaders : s'.headers = s.headers)
    (hinitial : s'.initialHeadersDone = s.initialHeadersDone)
    (hregular : s'.regularSeen = s.regularSeen) :
    Shaped isServer (events ++ [event]) s' := by
  cases h with
  | opening informational opening hsplit hopen hbefore hopening hopeningFields hgathered
      hseen =>
      have hsame : fieldsOf (opening ++ [event]) = fieldsOf opening := by
        rw [fieldsOf_append, hfields, List.append_nil]
      refine .opening informational (opening ++ [event]) (by rw [hsplit, List.append_assoc])
        (by rw [hinitial, hopen]) hbefore ?_ (by rwa [hsame])
        (by rw [hsame, hheaders, hgathered]) (by rw [hsame, hregular]; exact hseen)
      rw [List.forall_mem_append]
      exact ⟨hopening, by simpa using hdone⟩
  | opened informational opening rest done hopen hblocks =>
    refine .opened informational opening (rest ++ [event]) done
      (by rw [hinitial, hopen]) ?_
    obtain ⟨rfl, hbefore, hopening, hover, hopeningFields, hrequired, hfinal, htrailers,
      hjoined⟩ := hblocks
    have hsame : fieldsOf (rest ++ [event]) = fieldsOf rest := by
      rw [fieldsOf_append, hfields, List.append_nil]
    exact ⟨by simp, hbefore, hopening, hover, hopeningFields, hrequired, hfinal,
      by rwa [hsame], by rw [hheaders, hjoined, hsame]⟩

/-- The end of a block or of the DATA. -/
theorem Shaped.done (h : Shaped rules.isServer events s)
    (hdone : event.isDone = true)
    (hkept : ¬ (s.initialHeadersDone = false ∧
      (¬ RequiredHeaders rules.isServer s.headers ∨
        InformationalStatus rules.isServer s.headers ∧
          (statusOf s.headers = 101 ∨ event.endsStream = true)))) :
    Shaped rules.isServer (events ++ [event]) (gatherDone rules.isServer s) ∧
      (event.endsStream = true →
        (gatherDone rules.isServer s).initialHeadersDone = true ∧
          (gatherDone rules.isServer s).headers = s.headers) := by
  have hfields := fieldsOf_done hdone
  cases h with
  | opening informational opening hsplit hopen hbefore hopening hopeningFields hgathered
      hseen =>
      simp only [hopen, true_and, not_or, not_not, not_and] at hkept
      obtain ⟨hrequired, hother⟩ := hkept
      rw [hgathered] at hrequired hother
      unfold gatherDone
      rw [if_neg (by simp [hopen]), hgathered]
      split_ifs with hstatus
      · obtain ⟨hswitching, hend⟩ := hother hstatus
        refine ⟨?_, fun h => absurd h hend⟩
        have hblock := Informational.block hbefore hopening hopeningFields hrequired hstatus
          hswitching hdone (by simpa using hend)
        rw [← List.append_assoc, ← hsplit] at hblock
        exact .opening _ [] (List.append_nil _).symm hopen hblock
          (fun _ h => absurd h List.not_mem_nil) OpeningFields.nil rfl
          (fun _ _ h => absurd h List.not_mem_nil)
      · refine ⟨.opened informational opening [] event rfl ?_, fun _ => ⟨rfl, rfl⟩⟩
        exact ⟨by simp [hsplit], hbefore, hopening, hdone, hopeningFields, hrequired, hstatus,
          fun _ h => absurd h List.not_mem_nil, by simp [fieldsOf]⟩
  | opened informational opening rest done hopen hblocks =>
    have hsame : gatherDone rules.isServer s = s := if_pos hopen
    rw [hsame]
    refine ⟨.opened informational opening (rest ++ [event]) done hopen ?_,
      fun _ => ⟨hopen, rfl⟩⟩
    obtain ⟨rfl, hbefore, hopening, hover, hopeningFields, hrequired, hfinal, htrailers,
      hjoined⟩ := hblocks
    have hrest : fieldsOf (rest ++ [event]) = fieldsOf rest := by
      rw [fieldsOf_append, hfields, List.append_nil]
    exact ⟨by simp, hbefore, hopening, hover, hopeningFields, hrequired, hfinal,
      by rwa [hrest], by rw [hjoined, hrest]⟩

/-- A header that keeps the rules. -/
theorem Shaped.header {word : UInt64} {name value : Bytes} {s' : Stream}
    (h : Shaped isServer events s)
    (hadmitted : FieldAdmitted isServer s (bytesToString name, bytesToString value))
    (hheaders : s'.headers = s.headers ++ [(bytesToString name, bytesToString value)])
    (hinitial : s'.initialHeadersDone = s.initialHeadersDone)
    (hregular : s'.regularSeen = (s.regularSeen || !pseudoName (bytesToString name))) :
    Shaped isServer (events ++ [.header word name value]) s' := by
  have hfield : fieldsOf [.header word name value] =
      [(bytesToString name, bytesToString value)] := rfl
  cases h with
  | opening informational opening hsplit hopen hbefore hopening hopeningFields hgathered
      hseen =>
      refine .opening informational (opening ++ [.header word name value])
        (by rw [hsplit, List.append_assoc]) (by rw [hinitial, hopen]) hbefore ?_ ?_ ?_ ?_
      · rw [List.forall_mem_append]
        exact ⟨hopening, by simp [BridgeEvent.isDone]⟩
      · rw [fieldsOf_append, hfield]
        exact hopeningFields.snoc hseen hgathered hadmitted
      · rw [fieldsOf_append, hfield, hheaders, hgathered]
      · intro hnone
        rw [hregular, Bool.or_eq_false_iff, Bool.not_eq_false'] at hnone
        rw [fieldsOf_append, hfield, List.forall_mem_append]
        exact ⟨hseen hnone.1, by simpa using hnone.2⟩
  | opened informational opening rest done hopen hblocks =>
    refine .opened informational opening (rest ++ [.header word name value]) done
      (by rw [hinitial, hopen]) ?_
    obtain ⟨rfl, hbefore, hopening, hover, hopeningFields, hrequired, hfinal, htrailers,
      hjoined⟩ := hblocks
    refine ⟨by simp, hbefore, hopening, hover, hopeningFields, hrequired, hfinal, ?_, ?_⟩
    · rw [fieldsOf_append, hfield, List.forall_mem_append]
      refine ⟨htrailers, ?_⟩
      have hordinary : pseudoName (bytesToString name) = false := by
        by_contra hp
        have := (hadmitted.2 (by simpa using hp)).1
        rw [hopen] at this
        exact absurd this (by simp)
      simpa using ⟨hadmitted.1, hordinary⟩
    · rw [hheaders, hjoined, fieldsOf_append, hfield, List.append_assoc]

/-- As long as no rule is broken the blocks are in order. -/
theorem shaped_of_not_broke (h : ¬ Broke rules id events) (hopen : ¬ Ended events) :
    Shaped rules.isServer events (gathered rules.isServer id events) := by
  induction events using List.reverseRecOn with
  | nil =>
    exact .opening [] [] rfl rfl Informational.nil
      (fun _ h => absurd h List.not_mem_nil) OpeningFields.nil rfl
      (fun _ _ h => absurd h List.not_mem_nil)
  | append_singleton events event ih =>
    rw [ended_snoc, not_or] at hopen
    rw [broke_snoc, not_or, sinceEnd_of_not_ended hopen.1] at h
    have hshape := ih h.1 hopen.1
    have hkept := h.2
    rw [gathered_snoc]
    cases event with
    | header word name value =>
      rw [breaks_header, not_or, not_or, not_not] at hkept
      exact hshape.header hkept.2.2 rfl rfl rfl
    | data word payload => exact hshape.extend rfl rfl rfl rfl rfl
    | headersDone word endStream category =>
      exact (hshape.done rfl fun hbad => hkept (Or.inl hbad)).1
    | dataDone word => exact (hshape.done rfl fun hbad => hkept (Or.inl hbad)).1
    | streamClosed word code => exact hshape.extend rfl rfl rfl rfl rfl
    | goaway last code => exact hshape.extend rfl rfl rfl rfl rfl
    | settingsAck => exact hshape.extend rfl rfl rfl rfl rfl

theorem not_requiredHeaders_nil : ¬ RequiredHeaders isServer [] := by
  unfold RequiredHeaders
  cases isServer <;> simp [Headers.get]

/-- The message that ends an unbroken history is whole. -/
theorem wholeMessage_of_not_broke (h : ¬ Broke rules id (events ++ [event]))
    (hopen : ¬ Ended events)
    (hend : event.endsStream = true)
    (htype : typeExchange rules.isServer
      { gather rules.isServer (gathered rules.isServer id events) event with
        complete := true } = some message) :
    message.id = id ∧ WholeMessage rules (events ++ [event]) message := by
  have hdone := isDone_of_ends hend
  obtain ⟨hhead, hheaders, hbody, hid⟩ := typeExchange_some htype
  obtain ⟨hcountId, -, -, hcountBody⟩ := gathered_counts rules.isServer id (events ++ [event])
  obtain ⟨hlimits, hbound⟩ := limits_of_not_broke h (by rwa [List.dropLast_concat])
  rw [gathered_snoc] at hcountId hcountBody
  simp only at hheaders hbody hid
  have hkept := h
  rw [broke_snoc, not_or, sinceEnd_of_not_ended hopen, breaks_of_done hdone, not_or,
    not_and_not_right] at hkept
  have hshape := shaped_of_not_broke hkept.1 hopen
  obtain ⟨hnext, hopened⟩ := hshape.done hdone hkept.2.1
  obtain ⟨hinitial, hsame⟩ := hopened hend
  have hlength := hkept.2.2 hend
  rw [gather_of_done hdone] at hheaders hbody hid hcountId hcountBody
  obtain ⟨-, -, -, hbodySame⟩ := @gatherDone_counts rules.isServer
    (gathered rules.isServer id events)
  have hblocks : ∃ informational opening rest done, Blocks rules.isServer
      (events ++ [event]) message.headers informational opening rest done := by
    cases hnext with
    | opening _ _ _ hopen =>
      rw [hinitial] at hopen
      exact absurd hopen (by simp)
    | opened informational opening rest done _ hblocks =>
      exact ⟨informational, opening, rest, done, by rw [hheaders]; exact hblocks⟩
  have hsome : fieldsOf (events ++ [event]) ≠ [] := by
    obtain ⟨informational, opening, rest, done, hparts⟩ := hblocks
    intro hnone
    rw [hparts.split, fieldsOf_append, fieldsOf_append, List.append_eq_nil_iff,
      List.append_eq_nil_iff] at hnone
    have hrequired := hparts.required
    rw [hnone.2.1] at hrequired
    exact not_requiredHeaders_nil hrequired
  exact ⟨by rw [hid, hcountId], ⟨events, event, rfl, hend⟩, hblocks, by rw [hbody, hcountBody],
    by rwa [hheaders, hsame, hbody, hbodySame], hhead, (hlimits hsome).1, (hlimits hsome).2,
    by rwa [hbody, hcountBody]⟩

end Http2
end Beans
