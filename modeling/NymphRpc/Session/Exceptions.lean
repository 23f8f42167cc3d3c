import NymphRpc.Client.CallMethod
import NymphRpc.Message.DecodeAccepts
import NymphRpc.Session.Run

/-!
# Exceptions raised by a handler

A handler reports an exception by setting it on the reply it returns. Without a result the
server refuses that reply, or dereferences the missing result. With one the reply flag is set as
well, and it wins: what is sent is the result, and the client stores a response.
-/

namespace NymphRpc

open LittleEndian Buffer NymphMessage NymphRemoteClient NymphSession

/-- The response to the message is a reply with an exception, without or after a result. -/
inductive Raises (msg : NymphMessage) (id : UInt32) (text : Bytes) : NymphMessage → Prop
  | alone (um) : Raises msg id text ((msg.getReplyMessage um).setException id text)
  | afterResult (um t) :
      Raises msg id text (((msg.getReplyMessage um).setResultValue t).setException id text)

/-- A client that receives the message finds the request of the ID, and marks it as having an
exception. -/
def MarksException (sent : NymphMessage) (messageId : UInt64) : Prop :=
  ∃ u um fuel m, (decode u um fuel sent.body).result = .ok m ∧ m.corrupt = false ∧
    m.isCallback = false ∧ m.responseId = messageId ∧
    ∀ e h k, ((NymphRequest.prepare e h messageId).store k m).exception = true

/-- A raised exception reaches the caller: the server accepts the response, sends exactly one
message, in reply to the request and with the exception flag, and the client marks the request. -/
structure ExceptionReaches (s : NymphRemoteClient) (handle : ℤ) (fuel : ℕ) (w : Surroundings)
    (call : ℕ) (body : Bytes) (msg : NymphMessage) : Prop where
  accepted : ∃ response,
    callMethodCallback s w.response call handle msg.methodId msg = .ok (some response)
  sends : ∃ sent, (serve s handle fuel w call body).log = [sent] ∧
    sent.responseId = msg.messageId ∧ sent.isException = true ∧ MarksException sent msg.messageId

namespace NymphMessage

variable {u : ℤ → Uninit} {um : MessageUninit} {fuel : ℕ} {binmsg : Bytes} {m m' : NymphMessage}

/-- A message whose header was not read to its end is corrupt. -/
theorem corrupt_or_length_of_decode (h : (decode u um fuel binmsg).result = .ok m) :
    m.corrupt = true ∨ 17 ≤ binmsg.length := by
  obtain ⟨version, -, h⟩ := Traced.result_bind_eq_ok.mp h
  obtain ⟨methodId, -, h⟩ := Traced.result_bind_eq_ok.mp h
  dsimp only at h
  split_ifs at h
  · cases h
    exact .inl rfl
  all_goals
    obtain ⟨flags, -, h⟩ := Traced.result_bind_eq_ok.mp h
    obtain ⟨messageId, hid, -⟩ := Traced.result_bind_eq_ok.mp h
    unfold memcpy at hid
    cases hslice : Buffer.slice? binmsg 9 8 with
    | none =>
      rw [hslice] at hid
      cases hid
    | some bs =>
      have hbounds := bounds_of_slice? hslice (by decide)
      exact .inr (by omega)

/-- The reply branch keeps the flags. -/
theorem flags_of_decodeReply (h : (decodeReply u fuel binmsg m).result = .ok m') :
    m'.flags = m.flags := by
  obtain ⟨responseId, -, h⟩ := Traced.result_bind_eq_ok.mp h
  obtain ⟨tc, -, h⟩ := Traced.result_bind_eq_ok.mp h
  obtain ⟨val, -, h⟩ := Traced.result_bind_eq_ok.mp h
  dsimp only at h
  split_ifs at h
  · cases h
    rfl
  · obtain ⟨terminator, -, h⟩ := Traced.result_bind_eq_ok.mp h
    split_ifs at h
    · cases h
      rfl
    · cases h
      rfl

/-- A buffer that is long enough starts with the header. -/
theorem holds_header_of_serialize {s : NymphMessage} {freshId : UInt64} {heap : ℕ → UInt8}
    (h : m.serialize freshId heap = some s) (hlength : 17 ≤ s.body.length) :
    Holds s.body 0 s.header := by
  obtain ⟨payload, hpayload, rfl⟩ := Option.map_eq_some_iff.mp h
  let w := (m.assignId freshId).written payload
  let n := (m.messageLength + 8).toNat
  have hbody : ∀ b : Bytes, b = (allocated heap n w).drop 8 → 17 ≤ b.length →
      Holds b 0 (m.assignId freshId).header := by
    rintro b rfl hlength
    rw [List.length_drop, allocated_length] at hlength
    have hw : w.length = payload.length + 26 := written_length _ _
    have hprefix : (w.take n).drop 8 <+: (allocated heap n w).drop 8 :=
      (List.prefix_append _ _).drop 8
    have hheader : (m.assignId freshId).header <+: (w.take n).drop 8 := by
      rw [List.drop_take, written_drop]
      exact List.prefix_take_iff.mpr ⟨List.prefix_append _ _, by rw [header_length]; omega⟩
    exact hheader.trans hprefix
  exact hbody _ rfl hlength

/-- A client that decodes a message with the reply flag stores no exception. -/
theorem not_marksException {s : NymphMessage} {freshId : UInt64} {heap : ℕ → UInt8}
    (h : m.serialize freshId heap = some s) (hreply : m.isReply = true) (messageId : UInt64) :
    ¬MarksException s messageId := by
  rintro ⟨u, um, fuel, m', hm', hintact, -, -, hmarks⟩
  have hlength := (corrupt_or_length_of_decode hm').resolve_left (by simp [hintact])
  have hflags : s.flags = m.flags := by
    obtain ⟨payload, -, rfl⟩ := Option.map_eq_some_iff.mp h
    rfl
  have hsent : s.isReply = true := by rwa [isReply, hflags]
  rw [decode_of_header (holds_header_of_serialize h hlength), if_pos hsent] at hm'
  have hflags' := flags_of_decodeReply hm'
  have hreply' : m'.isReply = true := by rwa [isReply, hflags']
  have hstored := hmarks ⟨0, []⟩ 0 0
  rw [NymphRequest.store, if_pos hreply'] at hstored
  cases hstored

end NymphMessage

/-- Every part of a session that sends one message serialises it from an accepted response. -/
theorem serialize_of_serve {s : NymphRemoteClient} {handle : ℤ} {fuel : ℕ} {w : Surroundings}
    {call : ℕ} {body : Bytes} {msg sent : NymphMessage}
    (hdecode : (decode w.uninit w.request fuel body).result = .ok msg)
    (hlog : (serve s handle fuel w call body).log = [sent]) :
    ∃ response, callMethodCallback s w.response call handle msg.methodId msg = .ok (some response) ∧
      response.serialize w.freshId w.heap = some sent := by
  rw [serve_of_decode hdecode, serveMessage] at hlog
  split_ifs at hlog
  · cases hlog
  · cases hlog
  · split at hlog
    · cases hlog
    · cases hlog
    · rename_i response hresponse
      refine ⟨response, hresponse, ?_⟩
      unfold respond at hlog
      split at hlog
      · cases hlog
      · rename_i s' hs'
        cases hlog
        exact hs'

/-- A response that raises an exception is not accepted, or has the reply flag. -/
theorem Raises.refused_or_isReply {msg response accepted : NymphMessage} {id : UInt32}
    {text : Bytes} {m : NymphMethod}
    {callback : NymphMethodCallback → Except CallFault NymphMessage}
    (h : Raises msg id text response) (hcallback : callback m.callback = .ok response)
    (haccepted : m.callCallback callback = .ok (some accepted)) : accepted.isReply = true := by
  cases h with
  | alone um =>
    rw [NymphMethod.callCallback_of_no_result hcallback rfl] at haccepted
    split_ifs at haccepted
    cases haccepted
  | afterResult um t =>
    rw [NymphMethod.callCallback_of_result hcallback rfl] at haccepted
    split_ifs at haccepted
    · cases haccepted
    · have hflags : accepted.flags = 0 ||| flagReply ||| flagException := by
        cases haccepted
        rfl
      rw [isReply, hflags]
      decide

/-- No exception that a handler raises reaches its caller. -/
theorem not_exceptionReaches {s : NymphRemoteClient} {handle : ℤ} (fuel : ℕ) {w : Surroundings}
    {call : ℕ} {body : Bytes} {msg response : NymphMessage} {m : NymphMethod} {id : UInt32}
    {text : Bytes} (hdecode : (decode w.uninit w.request fuel body).result = .ok msg)
    (hm : s.methodOf msg.methodId = some m)
    (hcallback : callback s w.response call handle msg m.callback = .ok response)
    (hraises : Raises msg id text response) :
    ¬ExceptionReaches s handle fuel w call body msg := by
  rintro ⟨-, sent, hlog, -, -, hmarks⟩
  obtain ⟨accepted, hcall, hserialize⟩ := serialize_of_serve hdecode hlog
  rw [callMethodCallback_of_methodOf hm] at hcall
  have hreply := hraises.refused_or_isReply hcallback hcall
  exact not_marksException hserialize hreply _ hmarks

/-- A method without a result whose callback raises an exception. -/
def raisingMethod : NymphMethod :=
  .make [0x63] [] .null (.application fun _ _ msg =>
    some ((msg.getReplyMessage ⟨0, 0⟩).setException 5 [0x78]))

/-- The body of a request without parameters for the method 1, with the ID 7. -/
def raisingBody : Bytes := [0, 1, 0, 0, 0, 0, 0, 0, 0, 7, 0, 0, 0, 0, 0, 0, 0, 1]

/-- What the server meets when it serves that body. -/
def raisingSurroundings : Surroundings := ⟨fun _ => ⟨0, 0⟩, ⟨0, 0⟩, ⟨0, 0⟩, 9, fun _ => 0⟩

/-- The exception of the method does not reach its caller. -/
theorem not_exceptionReaches_raising : ∃ msg,
    (decode (fun _ => ⟨0, 0⟩) ⟨0, 0⟩ 19 raisingBody).result = .ok msg ∧
      ¬ExceptionReaches (serverOf raisingMethod) 0 19 raisingSurroundings 0 raisingBody msg :=
  ⟨_, rfl, not_exceptionReaches 19 rfl rfl rfl (.alone ⟨0, 0⟩)⟩

/-- The server dereferences the missing result instead. -/
theorem raising_nullResult : ∃ msg,
    (decode (fun _ => ⟨0, 0⟩) ⟨0, 0⟩ 19 raisingBody).result = .ok msg ∧
      callMethodCallback (serverOf raisingMethod) ⟨0, 0⟩ 0 0 msg.methodId msg = .error .nullResult ∧
      ¬ExceptionReaches (serverOf raisingMethod) 0 19 raisingSurroundings 0 raisingBody msg := by
  refine ⟨_, rfl, rfl, ?_⟩
  rintro ⟨⟨response, haccepted⟩, -⟩
  cases haccepted

end NymphRpc
