import NymphRpc.Client.CallMethod
import NymphRpc.Message.DestroyedOnce

/-!
# What becomes of a received reply

The listener gives up a message when it has matched it to a request: the response has a pointer
to the message, and deleting the response decrements the reference count of the message, which
counts strings, arrays and structs only. So the message is deleted with its response if that is
one of these and comes back from the call, and never otherwise.

From the wait of a call to the removal of its request the listener matches messages under
`messagesMutex` and stores them under the mutex of the request, so one match is one event here.
The first event ends the wait, and those after it come before the removal.
-/

namespace NymphRpc

open NymphType NymphMessage Destruction

/-- What happens to a request: the listener matches a message to it, or the wait times out. -/
inductive RequestEvent
  | matched (m : NymphMessage)
  | timeOut

/-- A request in the pending messages. The flag tells whether the wait was ended by the signal. -/
structure Reception where
  request : NymphRequest
  messages : List NymphMessage
  ended : Option Bool

namespace Reception

/-- The request that a call waits with. -/
def start (e : NymphException) (handle : ℕ) (messageId : UInt64) : Reception :=
  ⟨.prepare e handle messageId, [], none⟩

/-- An event. A message that follows another one overwrites what that left in the request. -/
def step (s : Reception) : RequestEvent → Reception
  | .matched m => ⟨s.request.store s.messages.length m, s.messages ++ [m], s.ended <|> some true⟩
  | .timeOut => { s with ended := s.ended <|> some false }

/-- What the call returns once its wait has ended and its request is removed. -/
def outcome (s : Reception) : Option CallOutcome := s.ended.map s.request.result

/-- What the caller destroys of the message at a position by deleting the value it got. -/
def destroyed (s : Reception) (fuel k : ℕ) (m : NymphMessage) : List Destroyed :=
  match s.outcome with
  | some (.value (some i)) => if i = k then Disposal.response.run fuel m else []
  | _ => []

/-- The message at a position is destroyed once, together with its data buffer. -/
def Reclaims (s : Reception) (k : ℕ) (m : NymphMessage) : Prop :=
  (∀ fuel, (s.destroyed fuel k m).count .message = 1) ∧ m.dataBuffer ≠ none ∧ 0 < m.bufferLength

end Reception

/-- A message that a listener matches: it came in a frame, whose length is a 32-bit word, and is
neither corrupt nor a callback. -/
structure Matchable (m : NymphMessage) : Prop where
  decoded : ∃ u um fuel binmsg, binmsg.length < 2 ^ 32 ∧
    (decode u um fuel binmsg).result = .ok m
  intact : m.corrupt = false
  notCallback : m.isCallback = false

/-- The events of a request with matchable messages. -/
def Plausible (events : List RequestEvent) : Prop := ∀ m, .matched m ∈ events → Matchable m

/-- The messages among events. -/
def matchedMessages (events : List RequestEvent) : List NymphMessage :=
  events.filterMap fun | .matched m => some m | .timeOut => none

/-- The messages of plausible events can be matched. -/
theorem Plausible.matchable {events : List RequestEvent} (h : Plausible events) {m : NymphMessage}
    (hm : m ∈ matchedMessages events) : Matchable m := by
  obtain ⟨event, hevent, heq⟩ := List.mem_filterMap.mp hm
  cases event with
  | matched _ =>
    cases heq
    exact h m hevent
  | timeOut => cases heq

/-- The message is a reply whose response is a string, an array or a struct. -/
def CountsReference (m : NymphMessage) : Prop :=
  m.isReply = true ∧ ∃ r, m.response = some r ∧ counted r = true

/-- The message at a position comes before the time-out and last, and none is an exception. -/
structure ComesLast (events : List RequestEvent) (k : ℕ) : Prop where
  first : events.head? ≠ some .timeOut
  last : k + 1 = (matchedMessages events).length
  noException : ∀ m ∈ matchedMessages events, m.isReply = true ∨ m.isException = false

/-! ### The message of a deleted response -/

section

variable {u : ℤ → Uninit} {um : MessageUninit} {binmsg : Bytes}

/-- The message keeps its data buffer. -/
def KeepsBuffer (m m' : NymphMessage) : Prop :=
  m'.dataBuffer = m.dataBuffer ∧ m'.bufferLength = m.bufferLength

/-- The parameter loop keeps the data buffer. -/
theorem keepsBuffer_parseParameters (fuel : ℕ) (index : ℤ) (m : NymphMessage) :
    OnReturn (parseParameters u fuel binmsg index m) (KeepsBuffer m) := by
  induction fuel generalizing index m with
  | zero => exact .fault trivial
  | succ fuel ih =>
    rw [parseParameters]
    split_ifs
    · exact .pure ⟨rfl, rfl⟩
    · apply ensures_readByte_bind (fun _ => trivial)
      intro tc _
      split_ifs
      · exact .pure ⟨rfl, rfl⟩
      · apply ((parse_unlinked u fuel).value (fresh (u index)) _ _ _ rfl).bind
        intro val _
        refine Traced.Ensures.tell_bind fun _ => ⟨trivial, ?_⟩
        split_ifs
        · exact .pure ⟨rfl, rfl⟩
        · exact ih _ _

/-- The data buffer of a decoded message is the buffer it was decoded from, and not empty. -/
theorem onReturn_decode_buffer (fuel : ℕ) : OnReturn (decode u um fuel binmsg) fun m =>
    binmsg ≠ [] ∧ m.dataBuffer = some binmsg ∧ m.bufferLength = .ofNat binmsg.length := by
  refine ensures_readByte_bind (fun _ => trivial) fun version hversion =>
    ensures_memcpy_bind (fun _ => trivial) fun methodId _ => ?_
  have hne : binmsg ≠ [] := by
    rintro rfl
    cases hversion
  have hkeeps : ∀ {m m' : NymphMessage}, m.dataBuffer = some binmsg →
      m.bufferLength = .ofNat binmsg.length → KeepsBuffer m m' →
        binmsg ≠ [] ∧ m'.dataBuffer = some binmsg ∧ m'.bufferLength = .ofNat binmsg.length :=
    fun hbuffer hlength h => ⟨hne, h.1.trans hbuffer, h.2.trans hlength⟩
  dsimp only
  split_ifs
  · exact .pure ⟨hne, rfl, rfl⟩
  · refine ensures_memcpy_bind (fun _ => trivial) fun flags _ =>
      ensures_memcpy_bind (fun _ => trivial) fun messageId _ => ?_
    split_ifs
    · refine ensures_memcpy_bind (fun _ => trivial) fun responseId _ =>
        ensures_readByte_bind (fun _ => trivial) fun tc _ => ?_
      apply ((parse_unlinked u fuel).value (fresh (u 25)) _ _ _ rfl).bind
      intro val _
      split_ifs
      · exact .pure ⟨hne, rfl, rfl⟩
      · apply ensures_readByte_bind (fun _ => trivial)
        intro terminator _
        split_ifs <;> exact .pure ⟨hne, rfl, rfl⟩
    · refine ensures_memcpy_bind (fun _ => trivial) fun responseId _ =>
        ensures_readByte_bind (fun _ => trivial) fun tc _ => ?_
      apply ((parse_unlinked u fuel).value (fresh (u 17)) _ _ _ rfl).bind
      intro val hval
      apply ensures_readByte_bind (fun _ => trivial)
      intro tc' _
      apply ((parse_unlinked u fuel).value _ _ _ _ hval).bind
      intro text _
      unfold stringOr
      split_ifs
      · exact ensures_readString_bind (fun _ => trivial) fun _ => .pure ⟨hne, rfl, rfl⟩
      · exact .pure ⟨hne, rfl, rfl⟩
    · apply ensures_readByte_bind (fun _ => trivial)
      intro tc _
      apply ((parse_unlinked u fuel).value (fresh (u 17)) _ _ _ rfl).bind
      intro val _
      unfold stringOr
      split_ifs
      · exact ensures_readString_bind (fun _ => trivial) fun _ =>
          (keepsBuffer_parseParameters fuel _ _).mono (fun _ h => hkeeps rfl rfl h) fun _ h => h
      · exact (keepsBuffer_parseParameters fuel _ _).mono (fun _ h => hkeeps rfl rfl h) fun _ h => h
    · rw [decodeRegular]
      split_ifs
      · exact .pure ⟨hne, rfl, rfl⟩
      · exact (keepsBuffer_parseParameters fuel _ _).mono (fun _ h => hkeeps rfl rfl h) fun _ h => h

end

namespace Matchable

variable {m : NymphMessage} (h : Matchable m)

include h

/-- The destructor of the message deletes its data buffer. -/
theorem buffer : m.dataBuffer ≠ none ∧ 0 < m.bufferLength := by
  obtain ⟨u, um, fuel, binmsg, hlen, hdecode⟩ := h.decoded
  have honReturn : OnReturn (decode u um fuel binmsg) _ := onReturn_decode_buffer fuel
  obtain ⟨hne, hbuffer, hlength⟩ := (honReturn fun _ _ => trivial).1 m hdecode
  have hpos := List.length_pos_iff.mpr hne
  refine ⟨by simp [hbuffer], ?_⟩
  rw [hlength, UInt32.lt_iff_toNat_lt, UInt32.toNat_ofNat_of_lt' hlen]
  exact hpos

/-- A reply has a response. -/
theorem response_ne_none (hreply : m.isReply = true) : m.response ≠ none := by
  obtain ⟨u, um, fuel, binmsg, -, hdecode⟩ := h.decoded
  exact ((routed_of_decode hdecode).response h.intact).mp hreply

/-- Deleting the response deletes the message, once, if its type is counted. -/
theorem count_message (fuel : ℕ) {r : NymphType} (hr : m.response = some r) :
    (Disposal.response.run fuel m).count .message = if counted r then 1 else 0 := by
  obtain ⟨u, um, fuel', binmsg, -, hdecode⟩ := h.decoded
  rcases holding_of_decode hdecode with ⟨ts, hts⟩ | ⟨t, ht⟩
  · rw [hts.response] at hr
    cases hr
  · have hlinked : r = linked t := by
      have hresponse := ht.response
      rw [h.intact, if_neg Bool.false_ne_true, hr] at hresponse
      exact Option.some.inj hresponse
    subst hlinked
    have hrefCount := ht.refCount h.intact
    simp only [Disposal.run, getResponse, hr, counted_linked]
    rw [destroyType_linked [1] ht.unlinked]
    change entries _ = _
    rw [entries_recordAll]
    split_ifs with hcounted
    · rw [if_pos hcounted] at hrefCount
      simp only [decrementReferenceCount, record, ht.deleted, hrefCount]
      cases fuel with
      | zero => rfl
      | succ fuel =>
        simp [destroyMessage, record, ht.values, destroyValues, destroyResponse, entries]
    · rfl

end Matchable

/-! ### What the call returns -/

namespace Reception

variable {e : NymphException} {handle : ℕ} {messageId : UInt64}

/-- The request after events. -/
def run (e : NymphException) (handle : ℕ) (messageId : UInt64) (events : List RequestEvent) :
    Reception :=
  events.foldl step (start e handle messageId)

/-- The response that the last message leaves in the request. -/
def lastResponse (messages : List NymphMessage) : Option ℕ :=
  match messages.getLast? with
  | some m => if m.isReply then m.response.map fun _ => messages.length - 1 else none
  | none => none

/-- What the events leave in the request. -/
structure Tells (events : List RequestEvent) (s : Reception) : Prop where
  messages : s.messages = matchedMessages events
  ended : s.ended = events.head?.map fun | .matched _ => true | .timeOut => false
  response : s.request.response = lastResponse (matchedMessages events)
  exception : s.request.exception = true ↔
    ∃ m ∈ matchedMessages events, m.isReply = false ∧ m.isException = true

/-- One more event. -/
theorem Tells.step {events : List RequestEvent} {s : Reception} (h : Tells events s)
    (event : RequestEvent) : Tells (events ++ [event]) (s.step event) := by
  have hended : (s.step event).ended =
      (events ++ [event]).head?.map fun | .matched _ => true | .timeOut => false := by
    cases events <;> cases event <;> simp [Reception.step, h.ended]
  cases event with
  | timeOut =>
    have hsame : matchedMessages (events ++ [.timeOut]) = matchedMessages events := by
      simp [matchedMessages]
    exact ⟨hsame ▸ h.messages, hended, hsame ▸ h.response, hsame ▸ h.exception⟩
  | matched m =>
    have hmore : matchedMessages (events ++ [.matched m]) = matchedMessages events ++ [m] := by
      simp [matchedMessages]
    refine ⟨?_, hended, ?_, ?_⟩
    · rw [hmore]
      simp [Reception.step, h.messages]
    · rw [hmore]
      simp only [Reception.step, NymphRequest.store, lastResponse, h.messages,
        List.getLast?_append, List.getLast?_singleton, Option.some_or, List.length_append,
        List.length_singleton, Nat.add_sub_cancel]
      split_ifs <;> rfl
    · rw [hmore]
      simp only [Reception.step, NymphRequest.store, List.mem_append, List.mem_singleton]
      split_ifs with hreply hexception
      · constructor
        · intro hs
          obtain ⟨m', hm', hm''⟩ := h.exception.mp hs
          exact ⟨m', .inl hm', hm''⟩
        · rintro ⟨m', hm' | rfl, hnot, hexc⟩
          · exact h.exception.mpr ⟨m', hm', hnot, hexc⟩
          · rw [hreply] at hnot
            cases hnot
      · exact ⟨fun _ => ⟨m, .inr rfl, by simpa using hreply, hexception⟩, fun _ => rfl⟩
      · constructor
        · intro hs
          obtain ⟨m', hm', hm''⟩ := h.exception.mp hs
          exact ⟨m', .inl hm', hm''⟩
        · rintro ⟨m', hm' | rfl, hnot, hexc⟩
          · exact h.exception.mpr ⟨m', hm', hnot, hexc⟩
          · exact absurd hexc hexception

/-- What a run of events leaves in the request. -/
theorem tells_run (e : NymphException) (handle : ℕ) (messageId : UInt64)
    (events : List RequestEvent) : Tells events (run e handle messageId events) := by
  induction events using List.reverseRecOn with
  | nil => exact ⟨rfl, rfl, rfl, by simp [run, start, NymphRequest.prepare, matchedMessages]⟩
  | append_singleton events event ih =>
    rw [run, List.foldl_append]
    exact ih.step event

/-- The last message leaves its response if it is a reply. -/
theorem lastResponse_eq_some_iff {messages : List NymphMessage} {k : ℕ} {m : NymphMessage}
    (hm : messages[k]? = some m) (hresponse : m.isReply = true → m.response ≠ none) :
    lastResponse messages = some k ↔ m.isReply = true ∧ k + 1 = messages.length := by
  obtain ⟨hlt, hget⟩ := List.getElem?_eq_some_iff.mp hm
  have hne : messages ≠ [] := List.ne_nil_of_mem (List.mem_of_getElem? hm)
  have hlast : k + 1 = messages.length → messages.getLast hne = m := by
    intro hk
    rw [List.getLast_eq_getElem]
    simpa [← hk] using hget
  rw [lastResponse, List.getLast?_eq_some_getLast hne]
  constructor
  · intro h
    simp only at h
    split_ifs at h with hreply
    obtain ⟨_, -, hk⟩ := Option.map_eq_some_iff.mp h
    have hk' : k + 1 = messages.length := by omega
    exact ⟨hlast hk' ▸ hreply, hk'⟩
  · rintro ⟨hreply, hk⟩
    obtain ⟨r, hr⟩ := Option.ne_none_iff_exists'.mp (hresponse hreply)
    simp only [hlast hk, hreply, if_true, hr, Option.map_some]
    exact congrArg some (by omega)

/-- The call returns the response of a message exactly if the message is a reply that comes before
the time-out and last, and no exception came. -/
theorem outcome_run_iff {events : List RequestEvent} (hevents : Plausible events) {k : ℕ}
    {m : NymphMessage} (hm : (matchedMessages events)[k]? = some m) :
    (run e handle messageId events).outcome = some (.value (some k)) ↔
      m.isReply = true ∧ ComesLast events k := by
  obtain ⟨-, hended, hresponse, hexception⟩ := tells_run e handle messageId events
  have hmem : m ∈ matchedMessages events := List.mem_of_getElem? hm
  have hnone : (∀ m' ∈ matchedMessages events, m'.isReply = true ∨ m'.isException = false) ↔
      (run e handle messageId events).request.exception = false := by
    rw [← Bool.not_eq_true, hexception]
    push Not
    apply forall₂_congr
    intro m' _
    cases m'.isReply <;> cases m'.isException <;> simp
  have hlast := lastResponse_eq_some_iff hm (hevents.matchable hmem).response_ne_none
  have hfirst : events.head? ≠ some .timeOut ↔
      (run e handle messageId events).ended = some true := by
    rw [hended]
    cases events with
    | nil => cases hmem
    | cons event events => cases event <;> simp
  rw [outcome]
  constructor
  · intro h
    obtain ⟨signalled, hsignalled, hresult⟩ := Option.map_eq_some_iff.mp h
    cases signalled with
    | false => cases hresult
    | true =>
      simp only [NymphRequest.result, NymphRequest.outcome, if_true] at hresult
      split_ifs at hresult with hexc
      have hvalue := CallOutcome.value.inj hresult
      rw [hresponse, hlast] at hvalue
      exact ⟨hvalue.1, hfirst.mpr hsignalled, hvalue.2, hnone.mpr (by simpa using hexc)⟩
  · rintro ⟨hreply, hhead, hk, hno⟩
    rw [hfirst.mp hhead, Option.map_some, NymphRequest.result, if_pos rfl, NymphRequest.outcome,
      hnone.mp hno, if_neg Bool.false_ne_true, hresponse, hlast.mpr ⟨hreply, hk⟩]

end Reception

open Reception

/-- A message that the listener matches is reclaimed exactly if it is a reply whose response is a
string, an array or a struct, it comes before the time-out and last, and no exception came. -/
theorem reclaims_iff (e : NymphException) (handle : ℕ) (messageId : UInt64)
    {events : List RequestEvent} (hevents : Plausible events) {k : ℕ} {m : NymphMessage}
    (hm : (matchedMessages events)[k]? = some m) :
    (run e handle messageId events).Reclaims k m ↔ CountsReference m ∧ ComesLast events k := by
  have hmatchable : Matchable m := hevents.matchable (List.mem_of_getElem? hm)
  have houtcome : (run e handle messageId events).outcome = some (.value (some k)) ↔
      m.isReply = true ∧ ComesLast events k := outcome_run_iff hevents hm
  constructor
  · rintro ⟨hcount, -⟩
    have hone := hcount 0
    unfold destroyed at hone
    split at hone
    · next i hi =>
      split_ifs at hone with hik
      · subst hik
        obtain ⟨hreply, hlast⟩ := houtcome.mp hi
        obtain ⟨r, hr⟩ := Option.ne_none_iff_exists'.mp (hmatchable.response_ne_none hreply)
        rw [hmatchable.count_message 0 hr] at hone
        exact ⟨⟨hreply, r, hr, by simpa using hone⟩, hlast⟩
      · cases hone
    · cases hone
  · rintro ⟨⟨hreply, r, hr, hcounted⟩, hlast⟩
    refine ⟨fun fuel => ?_, hmatchable.buffer⟩
    rw [destroyed, houtcome.mpr ⟨hreply, hlast⟩]
    simp only [if_true]
    rw [hmatchable.count_message fuel hr, if_pos hcounted]

/-- A reply to the message ID 1 with these bytes for its response. -/
def replyOf (response : Bytes) : Bytes :=
  [0x00, 0, 0, 0, 0, 0x01, 0, 0, 0] ++ 0x02 :: List.replicate 7 0x00 ++
    0x01 :: List.replicate 7 0x00 ++ (response ++ [0x01])

/-- An empty string that is returned is reclaimed. -/
theorem reclaims_emptyString : ∃ m, Matchable m ∧
    (run ⟨0, []⟩ 0 1 [.matched m]).Reclaims 0 m := by
  obtain ⟨m, hmatchable, hcounts⟩ : ∃ m, Matchable m ∧ CountsReference m :=
    ⟨_, ⟨⟨fun _ => ⟨0, 0⟩, ⟨0, 0⟩, 2, replyOf [0x0f], by decide, rfl⟩, rfl, rfl⟩, rfl, _, rfl, rfl⟩
  have hevents : Plausible [.matched m] := by
    intro m' hm'
    cases List.mem_singleton.mp hm'
    exact hmatchable
  refine ⟨m, hmatchable, (reclaims_iff ⟨0, []⟩ 0 1 hevents (k := 0) rfl).mpr ⟨hcounts, ?_⟩⟩
  refine ⟨nofun, rfl, fun m' hm' => .inl ?_⟩
  cases List.mem_singleton.mp hm'
  exact hcounts.1

/-- A boolean that is returned, and an exception, are not. -/
theorem not_reclaims_boolean :
    (∃ m, Matchable m ∧ m.isReply = true ∧ ¬(run ⟨0, []⟩ 0 1 [.matched m]).Reclaims 0 m) ∧
      ∃ m, Matchable m ∧ m.isException = true ∧
        ¬(run ⟨0, []⟩ 0 1 [.matched m]).Reclaims 0 m := by
  refine ⟨⟨_, ⟨⟨fun _ => ⟨0, 0⟩, ⟨0, 0⟩, 2, replyOf [0x03], by decide, rfl⟩, rfl, rfl⟩, rfl, ?_⟩,
    ⟨_, ⟨⟨fun _ => ⟨0, 0⟩, ⟨0, 0⟩, 2, [0x00, 0, 0, 0, 0, 0x02, 0, 0, 0] ++ 0x02 ::
      List.replicate 7 0x00 ++ 0x01 :: List.replicate 7 0x00, by decide, rfl⟩, rfl, rfl⟩, rfl, ?_⟩⟩
  · rintro ⟨hcount, -⟩
    cases hcount 0
  · rintro ⟨hcount, -⟩
    cases hcount 0

end NymphRpc
