import NymphRpc.Message.Holdings
import NymphRpc.Message.RoundTrip
import NymphRpc.Session.Run

/-!
# Answering requests

A session over methods whose callbacks reply with a value. Each request is answered on its own:
with one message if its ID stands for a method and the value has the declared type, and with
none otherwise. The decoder counts its position in 31 bits, so a value whose encoding leaves no
room for the 26 bytes around it does not come back from the wire.
-/

namespace NymphRpc

open LittleEndian Buffer NymphMessage NymphRemoteClient NymphSession

/-- The frame of a request: a regular message in its documented layout. -/
structure RequestFrame (frame : Bytes) (q : NymphMessage) (vs : List Value) : Prop where
  framed : Frame frame (frame.drop 8)
  announced : Content.Announced q (.regular vs)
  header : Holds (frame.drop 8) 0 q.header
  payload : ∃ payload, DenotesContent payload (.regular vs) ∧
    Holds (frame.drop 8) 17 (payload ++ [NymphInternalTypes.none.toByte])

/-- The response is a reply to the message with the value as its result. -/
inductive RepliesWith (msg : NymphMessage) (v : Value) : NymphMessage → Prop
  | mk (um t) (h : Constructs v t) : RepliesWith msg v ((msg.getReplyMessage um).setResultValue t)

/-- Every callback of the application replies with a value that has the property. -/
def Replying (s : NymphRemoteClient) (P : Value → Prop) : Prop :=
  ∀ id m answer, s.methodOf id = some m → m.callback = .application answer →
    ∀ call handle msg, ∃ v response, answer call handle msg = some response ∧
      RepliesWith msg v response ∧ P v

/-- The encoding of the value and its recorded size leave room for what is around them. -/
def Fits (v : Value) : Prop := v.encode.length + 26 ≤ 2 ^ 31 ∧ v.size + 34 < 2 ^ 32

instance (v : Value) : Decidable (Fits v) := inferInstanceAs (Decidable (_ ∧ _))

/-- The message answers the request with the value. -/
structure IsAnswer (q : NymphMessage) (v : Value) (sent : NymphMessage) : Prop where
  isReply : sent.isReply = true
  responseId : sent.responseId = q.messageId
  messageId : sent.messageId = q.messageId + 1
  decodes : ∀ u um fuel, sent.body.length ≤ fuel → ∃ m,
    (decode u um fuel sent.body).result = .ok m ∧
      NymphMessage.Received sent (.reply q.messageId v) m

section

variable (s : NymphRemoteClient) (handle : ℤ) (fuel : ℕ) (w : Surroundings) (call : ℕ)

/-- The callback of the method gets the message of the request and replies with the value. -/
def CallbackReplies (frame : Bytes) (q : NymphMessage) (vs : List Value) (m : NymphMethod)
    (v : Value) : Prop :=
  ∃ msg response, (decode w.uninit w.request fuel (frame.drop 8)).result = .ok msg ∧
    NymphMessage.Received q (.regular vs) msg ∧
    callback s w.response call handle msg m.callback = .ok response ∧ RepliesWith msg v response

/-- What is sent for a request: one answer, or nothing. -/
inductive Answered (frame : Bytes) (q : NymphMessage) (vs : List Value) :
    List NymphMessage → Prop
  | unknown (h : s.methodOf q.methodId = none) : Answered frame q vs []
  | refused {m v} (hm : s.methodOf q.methodId = some m)
      (hv : CallbackReplies s handle fuel w call frame q vs m v)
      (htype : v.valuetype ≠ m.returnType) : Answered frame q vs []
  | answered {m v sent} (hm : s.methodOf q.methodId = some m)
      (hv : CallbackReplies s handle fuel w call frame q vs m v)
      (htype : v.valuetype = m.returnType) (hsent : IsAnswer q v sent) :
      Answered frame q vs [sent]

end

/-- A request decodes to its message. -/
theorem RequestFrame.decode {frame : Bytes} {q : NymphMessage} {vs : List Value}
    (h : RequestFrame frame q vs) (hlong : frame.length < 2 ^ 31 + 8) {fuel : ℕ}
    (hfuel : frame.length ≤ fuel) (u : ℤ → Uninit) (um : MessageUninit) :
    ∃ msg, (NymphMessage.decode u um fuel (frame.drop 8)).result = .ok msg ∧
      NymphMessage.Received q (.regular vs) msg := by
  obtain ⟨payload, hdenotes, hpayload⟩ := h.payload
  have hend := hpayload.add_length_le (by simp)
  rw [List.length_append, List.length_singleton, List.length_drop] at hend
  exact decode_accepts hdenotes h.announced (by simp) h.header hpayload (by omega) (by omega)

/-- A reply with a constructed result is ready to be serialised, when its size fits 32 bits. -/
theorem RepliesWith.ready {msg response : NymphMessage} {v : Value}
    (h : RepliesWith msg v response) (hsize : v.size + 34 < 2 ^ 32) (owned : Bool) :
    Ready (.reply msg.messageId v) { response with responseOwned := owned } := by
  cases h with
  | mk um t h => exact Ready.reply rfl rfl rfl h rfl (by simp only [Content.size]; omega)

/-- The payload of a reply is the response ID and the encoding of the value. -/
theorem RepliesWith.payload {msg response : NymphMessage} {v : Value}
    (h : RepliesWith msg v response) (hsize : v.size + 34 < 2 ^ 32) (owned : Bool) :
    { response with responseOwned := owned }.payload =
      some (toBytes 8 msg.messageId.toNat ++ v.encode) := by
  cases h with
  | mk um t h =>
    have hreply := (announced_reply (m := { (msg.getReplyMessage um).setResultValue t with
      responseOwned := owned }) rfl).1
    rw [NymphMessage.payload, hreply, ← (h.represents (by omega)).serialize]
    rfl

/-- A reply is accepted if its result has the declared type. -/
theorem RepliesWith.callCallback {msg response : NymphMessage} {v : Value} {m : NymphMethod}
    {callback : NymphMethodCallback → Except CallFault NymphMessage}
    (h : RepliesWith msg v response) (hcallback : callback m.callback = .ok response) :
    m.callCallback callback =
      .ok (if v.valuetype ≠ m.returnType then none
        else some { response with responseOwned := true }) := by
  cases h with
  | mk um t h =>
    rw [NymphMethod.callCallback_of_result hcallback rfl, h.valuetype]
    split_ifs <;> rfl

/-- What a reply is sent as. -/
theorem RepliesWith.respond {msg response : NymphMessage} {v : Value}
    (h : RepliesWith msg v response) (hsize : v.size + 34 < 2 ^ 32) (w : Surroundings) :
    ∃ sent payload, NymphSession.respond w { response with responseOwned := true } =
        Traced.tell sent ∧
      payload = toBytes 8 msg.messageId.toNat ++ v.encode ∧
      Sent (.reply msg.messageId v) { response with responseOwned := true } sent payload ∧
      sent.responseId = msg.messageId ∧ sent.messageId = msg.messageId + 1 := by
  have hready := h.ready hsize true
  obtain ⟨sent, payload, hserialize, hsent⟩ := hready.serialize
    (by simp only [Content.size]; omega) w.freshId w.heap
  have hpayload := Option.some.inj ((hsent.source.symm.trans (h.payload hsize true)))
  refine ⟨sent, payload, by rw [NymphSession.respond, hserialize], hpayload, hsent, ?_, ?_⟩
  · rw [hsent.responseId]
    cases h
    rfl
  · rw [hsent.messageId hready.announced]
    cases h
    rfl

/-- A value whose encoding leaves room for the bytes around it comes back. -/
theorem RepliesWith.isAnswer {msg response q sent : NymphMessage} {v : Value} {payload : Bytes}
    (h : RepliesWith msg v response) (hfits : Fits v) (hid : msg.messageId = q.messageId)
    (hpayload : payload = toBytes 8 msg.messageId.toNat ++ v.encode)
    (hsent : Sent (.reply msg.messageId v) { response with responseOwned := true } sent payload)
    (hresponse : sent.responseId = msg.messageId) (hmessage : sent.messageId = msg.messageId + 1) :
    IsAnswer q v sent where
  isReply := hsent.announced (h.ready hfits.2 true)
  responseId := hresponse.trans hid
  messageId := by rw [hmessage, hid]
  decodes := by
    intro u um fuel hfuel
    have hlength : payload.length = 8 + v.encode.length := by
      rw [hpayload, List.length_append, toBytes_length]
    have hroom := hfits.1
    rw [← hid]
    exact hsent.decode (h.ready hfits.2 true) (by omega) u um hfuel

/-- The callback of a registered method replies with a value. -/
theorem exists_callback {s : NymphRemoteClient} {P : Value → Prop} (hs : s.Intact)
    (hreplying : Replying s P) (htable : ∀ methods, serializedMethods s = some methods →
      P (.string methods)) {id : UInt32} {m : NymphMethod} (hm : s.methodOf id = some m)
    (um : MessageUninit) (call : ℕ) (handle : ℤ) (msg : NymphMessage) :
    ∃ v response, callback s um call handle msg m.callback = .ok response ∧
      RepliesWith msg v response ∧ P v := by
  cases hcallback : m.callback with
  | syncMethods =>
    obtain ⟨hmethods, -⟩ := serializedMethods_eq hs
    refine ⟨_, _, ?_, .mk um _ (.string _ false), htable _ hmethods⟩
    rw [callback, syncMethods, hmethods]
  | application answer =>
    obtain ⟨v, response, hanswer, hreplies, hv⟩ :=
      hreplying id m answer hm hcallback call handle msg
    refine ⟨v, response, ?_, hreplies, hv⟩
    rw [callback, hanswer]

/-- A reply is sent if its result has the declared type. -/
theorem serve_of_replies {s : NymphRemoteClient} {handle : ℤ} {fuel : ℕ} {w : Surroundings}
    {call : ℕ} {body : Bytes} {q msg response : NymphMessage} {vs : List Value} {m : NymphMethod}
    {v : Value} (hdecode : (decode w.uninit w.request fuel body).result = .ok msg)
    (hreceived : NymphMessage.Received q (.regular vs) msg) (hm : s.methodOf q.methodId = some m)
    (hcallback : callback s w.response call handle msg m.callback = .ok response)
    (hreplies : RepliesWith msg v response) :
    serve s handle fuel w call body =
      if v.valuetype = m.returnType then respond w { response with responseOwned := true }
      else pure () := by
  have hstate := (routed_of_decode hdecode).state hreceived.corrupt
  have hcall := (callMethodCallback_of_methodOf hm).trans (hreplies.callCallback hcallback)
  rw [← hreceived.methodId] at hcall
  rw [serve_of_decode hdecode, serveMessage_of_ok hreceived.corrupt hstate hcall]
  by_cases htype : v.valuetype = m.returnType
  · rw [if_pos htype, if_neg (not_not.mpr htype)]
    rfl
  · rw [if_neg htype, if_pos htype]
    rfl

/-- A request is answered, or refused. -/
theorem serve_answered {s : NymphRemoteClient} (hs : s.Intact) (hreplying : Replying s Fits)
    (htable : ∀ methods, serializedMethods s = some methods → Fits (.string methods))
    {frame : Bytes} {q : NymphMessage} {vs : List Value} (hrequest : RequestFrame frame q vs)
    (hlong : frame.length < 2 ^ 31 + 8) {fuel : ℕ} (hfuel : frame.length ≤ fuel) (handle : ℤ)
    (w : Surroundings) (call : ℕ) :
    (serve s handle fuel w call (frame.drop 8)).result = .ok () ∧
      Answered s handle fuel w call frame q vs (serve s handle fuel w call (frame.drop 8)).log := by
  obtain ⟨msg, hdecode, hreceived⟩ := hrequest.decode hlong hfuel w.uninit w.request
  cases hm : s.methodOf q.methodId with
  | none =>
    have hstate := (routed_of_decode hdecode).state hreceived.corrupt
    have hcall : callMethodCallback s w.response call handle q.methodId msg = .ok none :=
      callMethodCallback_of_methodOf_none hs hm
    rw [← hreceived.methodId] at hcall
    rw [serve_of_decode hdecode, serveMessage_of_ok hreceived.corrupt hstate hcall]
    exact ⟨rfl, .unknown hm⟩
  | some m =>
    obtain ⟨v, response, hcallback, hreplies, hfits⟩ :=
      exists_callback hs hreplying htable hm w.response call handle msg
    have hreplied : CallbackReplies s handle fuel w call frame q vs m v :=
      ⟨msg, response, hdecode, hreceived, hcallback, hreplies⟩
    rw [serve_of_replies hdecode hreceived hm hcallback hreplies]
    split_ifs with htype
    · obtain ⟨sent, payload, hrespond, hpayload, hsent, hresponse, hmessage⟩ :=
        hreplies.respond hfits.2 w
      rw [hrespond]
      exact ⟨rfl, .answered hm hreplied htype
        (hreplies.isAnswer hfits hreceived.messageId hpayload hsent hresponse hmessage)⟩
    · exact ⟨rfl, .refused hm hreplied htype⟩

/-- A session answers every request whose frame arrives whole once, in the order of the requests
and each on its own, as long as the values leave room for the bytes around their encoding. -/
theorem run_answers {s : NymphRemoteClient} (hs : Registered s) (hreplying : Replying s Fits)
    (htable : ∀ methods, serializedMethods s = some methods → Fits (.string methods))
    {requests : List (Bytes × NymphMessage × List Value)}
    (hrequests : ∀ r ∈ requests, RequestFrame r.1 r.2.1 r.2.2) {arrived : ℕ → ℕ}
    (harrive : ArriveWhole arrived (requests.map Prod.fst)) {fuel : ℕ}
    (hfuel : (requests.map Prod.fst).flatten.length < fuel) (handle : ℤ) (w : ℕ → Surroundings) :
    (run s handle fuel w arrived (requests.map Prod.fst).flatten).result = .ok () ∧
      (run s handle fuel w arrived (requests.map Prod.fst).flatten).log =
        ((requests.map Prod.fst).mapIdx fun i f =>
          (serve s handle fuel (w i) i (f.drop 8)).log).flatten ∧
      ∀ i r, requests[i]? = some r → Answered s handle fuel (w i) i r.1 r.2.1 r.2.2
        (serve s handle fuel (w i) i (r.1.drop 8)).log := by
  have hserve : ∀ i r, requests[i]? = some r →
      (serve s handle fuel (w i) i (r.1.drop 8)).result = .ok () ∧
        Answered s handle fuel (w i) i r.1 r.2.1 r.2.2
          (serve s handle fuel (w i) i (r.1.drop 8)).log := by
    intro i r hr
    have hmem := List.mem_of_getElem? hr
    have hframe := List.mem_map_of_mem (f := Prod.fst) hmem
    have hle := (List.sublist_flatten_of_mem hframe).length_le
    exact serve_answered hs.intact hreplying htable (hrequests r hmem) (harrive.1 _ hframe).2
      (by omega) handle (w i) i
  have hframed : ∀ f ∈ requests.map Prod.fst, Framed f := by
    intro f hf
    obtain ⟨r, hr, rfl⟩ := List.mem_map.mp hf
    exact .inr (hrequests r hr).framed
  have hserved : ∀ i f, (requests.map Prod.fst)[i]? = some f →
      (serve s handle fuel (w i) i (f.drop 8)).result = .ok () := by
    intro i f hf
    rw [List.getElem?_map] at hf
    obtain ⟨r, hr, rfl⟩ := Option.map_eq_some_iff.mp hf
    exact (hserve i r hr).1
  obtain ⟨hresult, hlog⟩ := run_frames hframed harrive hfuel hserved
  exact ⟨hresult, hlog, fun i r hr => (hserve i r hr).2⟩

/-- A serialised regular message is the frame of a request. -/
theorem requestFrame_of_prepared {um : MessageUninit} {methodId : UInt32} {vs : List Value}
    {m : NymphMessage} (h : Prepared um methodId (.regular vs) m)
    (hsize : (Content.regular vs).size < 2 ^ 32) (freshId : UInt64) (heap : ℕ → UInt8) :
    ∃ q, m.serialize freshId heap = some q ∧ RequestFrame q.frame q vs ∧ q.methodId = methodId ∧
      q.frame.length = (Content.regular vs).size := by
  obtain ⟨q, payload, hq, hsent⟩ := (h.ready hsize).serialize hsize freshId heap
  have hlength := hsent.length
  rw [body, List.length_drop] at hlength
  have hle : 26 ≤ (Content.regular vs).size := by
    rw [Content.size]
    omega
  have hframed := (framed_of_serialize hq).resolve_left (by omega)
  exact ⟨q, hq, ⟨hframed, hsent.announced (h.ready hsize), hsent.header,
    payload, hsent.denotes, hsent.payload⟩, hsent.methodId.trans h.methodId_eq, by omega⟩

/-! ### Servers with one method -/

/-- A callback that always replies with the same result. -/
def constant (t : NymphType) : NymphMethodCallback :=
  .application fun _ _ msg => some ((msg.getReplyMessage ⟨0, 0⟩).setResultValue t)

/-- The method 'c', which always replies with the same result. -/
def constantMethod (t : NymphType) : NymphMethod := .make [0x63] [] t.valuetype (constant t)

/-- A server whose only method of the application is 'c'. -/
def constantServer (t : NymphType) : NymphRemoteClient := serverOf (constantMethod t)

/-- The server replies with the value. -/
theorem replying_constantServer {t : NymphType} {v : Value} {P : Value → Prop}
    (h : Constructs v t) (hv : P v) : Replying (constantServer t) P := by
  intro id m answer hm hcallback call handle msg
  rcases methodOf_serverOf hm with hsync | ⟨-, rfl⟩
  · cases hsync.symm.trans hcallback
  · cases hcallback
    exact ⟨v, _, rfl, .mk ⟨0, 0⟩ t h, hv⟩

/-- A request for the method 'c', sent from fresh memory. -/
def constantRequest : Option NymphMessage :=
  (NymphMessage.ofMethodId ⟨0, 0⟩ 1).serialize 7 fun _ => 0

theorem constantRequest_frame : ∃ q, constantRequest = some q ∧ RequestFrame q.frame q [] ∧
    q.methodId = 1 ∧ q.frame.length = 26 :=
  requestFrame_of_prepared (.regular .nil) (by decide) _ _

/-- Memory that is blank, and a counter that hands out 9. -/
def blankSurroundings : Surroundings := ⟨fun _ => ⟨0, 0⟩, ⟨0, 0⟩, ⟨0, 0⟩, 9, fun _ => 0⟩

/-- A request for a method that the server does not have. -/
def unknownRequest : Option NymphMessage :=
  (NymphMessage.ofMethodId ⟨0, 0⟩ 5).serialize 8 fun _ => 0

/-- A server that always answers true answers the first of two requests and says nothing to the
other, though they arrive in pieces of eight bytes. -/
theorem run_answers_two : ∃ (q q' : NymphMessage) (log log' : List NymphMessage),
    constantRequest = some q ∧ unknownRequest = some q' ∧
    (run (constantServer (.ofBool ⟨0, 0⟩ true)) 0 53 (fun _ => blankSurroundings) (fun _ => 8)
      (q.frame ++ q'.frame)).result = .ok () ∧
    (run (constantServer (.ofBool ⟨0, 0⟩ true)) 0 53 (fun _ => blankSurroundings) (fun _ => 8)
      (q.frame ++ q'.frame)).log = log ++ log' ∧
    Answered (constantServer (.ofBool ⟨0, 0⟩ true)) 0 53 blankSurroundings 0 q.frame q [] log ∧
    Answered (constantServer (.ofBool ⟨0, 0⟩ true)) 0 53 blankSurroundings 1 q'.frame q' []
      log' := by
  obtain ⟨q, hq, hframe, -, hlength⟩ := constantRequest_frame
  obtain ⟨q', hq', hframe', -, hlength'⟩ : ∃ q, unknownRequest = some q ∧
      RequestFrame q.frame q [] ∧ q.methodId = 5 ∧ q.frame.length = 26 :=
    requestFrame_of_prepared (.regular .nil) (by decide) _ _
  obtain ⟨hresult, hlog, hanswered⟩ := @run_answers (constantServer (.ofBool ⟨0, 0⟩ true))
    (.registerMethod .init _ _)
    (replying_constantServer (.boolean ⟨0, 0⟩ true) (by decide))
    (by
      rintro methods hmethods
      cases hmethods
      decide +kernel)
    [(q.frame, q, []), (q'.frame, q', [])] (by simpa using ⟨hframe, hframe'⟩) (fun _ => 8)
    ⟨by simp [hlength, hlength'], fun _ _ _ => le_rfl⟩ 53 (by simp [hlength, hlength']) 0
    (fun _ => blankSurroundings)
  have hstream : ([(q.frame, q, ([] : List Value)), (q'.frame, q', [])].map Prod.fst).flatten =
      q.frame ++ q'.frame := by
    simp
  rw [hstream] at hresult hlog
  refine ⟨q, q', _, _, hq, hq', hresult, ?_, hanswered 0 _ rfl, hanswered 1 _ rfl⟩
  rw [hlog]
  simp

/-- The decoder takes an answer for corrupt whose string ends between 2^31 and 2^32. -/
theorem not_isAnswer_of_long {msg response sent q : NymphMessage} {str payload : Bytes}
    (hlow : 2 ^ 31 ≤ 31 + str.length) (hhigh : str.length < 2 ^ 31)
    (hpayload : payload = toBytes 8 msg.messageId.toNat ++ (Value.string str).encode)
    (hsent : Sent (.reply msg.messageId (.string str)) { response with responseOwned := true } sent
      payload) : ¬IsAnswer q (.string str) sent := by
  intro hanswer
  obtain ⟨m, hm, hreceived⟩ := hanswer.decodes (fun _ => ⟨0, 0⟩) ⟨0, 0⟩ _ le_rfl
  have hne : str ≠ [] := List.ne_nil_of_length_pos (by omega)
  have htag : LengthTag.shortest str.length = .uint32 := by
    rw [LengthTag.shortest, if_neg (by omega), if_neg (by omega), if_pos (by omega)]
  have hlength : (taggedString .uint32 str).length = 6 + str.length := by
    simp only [taggedString, List.length_cons, List.length_append, toBytes_length,
      LengthTag.width, LengthTag.scalar, Scalar.width]
    omega
  have hholds := hsent.payload
  rw [hpayload, Value.encode, Value.encodeString_of_ne_nil hne, htag, List.append_assoc] at hholds
  obtain ⟨hid, hholds⟩ := Holds.append_iff.mp hholds
  obtain ⟨hstring, -⟩ := Holds.append_iff.mp hholds
  rw [toBytes_length] at hstring
  rw [decode_of_header hsent.header, if_pos hanswer.isReply] at hm
  have hcorrupt := corrupt_of_decodeReply hid hstring (by omega) (by omega) (by omega) hm
  cases hcorrupt.symm.trans hreceived.corrupt

/-- A string of 2^31 - 10 characters. -/
def longString : Bytes := List.replicate (2 ^ 31 - 10) 0x61

/-- The answer to a request is lost whose result is a string of 2^31 - 10 characters, though its
encoding is shorter than 2^31 bytes. -/
theorem run_answers_long : ∃ q, constantRequest = some q ∧ RequestFrame q.frame q [] ∧
    (Value.string longString).encode.length < 2 ^ 31 ∧
    Registered (constantServer (.ofString longString false)) ∧
    Replying (constantServer (.ofString longString false)) (fun v => v = .string longString) ∧
    (constantServer (.ofString longString false)).methodOf q.methodId =
      some ((constantMethod (.ofString longString false)).setId 1) ∧
    (constantMethod (.ofString longString false)).returnType = .string ∧
    ∀ sent ∈ (run (constantServer (.ofString longString false)) 0 27 (fun _ => blankSurroundings)
      (fun _ => 26) [q.frame].flatten).log, ¬IsAnswer q (.string longString) sent := by
  have hlong : longString.length = 2147483638 := List.length_replicate
  generalize longString = str at hlong ⊢
  obtain ⟨q, hq, hrequest, hid, hlength⟩ := constantRequest_frame
  have hne : str ≠ [] := List.ne_nil_of_length_pos (by omega)
  have hstringSize : Value.stringSize str.length = 2147483644 := by
    rw [hlong]
    rfl
  have hencode : (Value.string str).encode.length = 2147483644 :=
    ((Value.length_encodeString str (by omega)).2 hne).trans hstringSize
  have hsize : (Value.string str).size + 34 < 2 ^ 32 := by
    rw [Value.size]
    omega
  have hconstructs := Constructs.string str false
  have hm : (constantServer (.ofString str false)).methodOf q.methodId =
      some ((constantMethod (.ofString str false)).setId 1) := by
    rw [hid]
    rfl
  refine ⟨q, hq, hrequest, by omega, .registerMethod .init _ _,
    replying_constantServer hconstructs rfl, hm, rfl, ?_⟩
  have hshort : q.frame.length ≤ 27 := by omega
  obtain ⟨msg, hdecode, hreceived⟩ := hrequest.decode (by omega) hshort blankSurroundings.uninit
    blankSurroundings.request
  have hreplies : RepliesWith msg (.string str)
      ((msg.getReplyMessage ⟨0, 0⟩).setResultValue (.ofString str false)) :=
    .mk ⟨0, 0⟩ _ hconstructs
  obtain ⟨sent, payload, hrespond, hpayload, hsent, -, -⟩ :=
    hreplies.respond hsize blankSurroundings
  have hserve : serve (constantServer (.ofString str false)) 0 27 blankSurroundings 0
      (q.frame.drop 8) = Traced.tell sent := by
    have htype : (Value.string str).valuetype =
        ((constantMethod (.ofString str false)).setId 1).returnType := rfl
    rw [serve_of_replies hdecode hreceived hm rfl hreplies, if_pos htype, hrespond]
  have hframed : ∀ f ∈ [q.frame], Framed f := by
    intro f hf
    rw [List.mem_singleton.mp hf]
    exact .inr hrequest.framed
  have harrive : ArriveWhole (fun _ => 26) [q.frame] :=
    ⟨by simp [hlength], fun _ _ _ => (by decide : 8 ≤ 26)⟩
  have hserved : ∀ (i : ℕ) f, [q.frame][i]? = some f →
      (serve (constantServer (.ofString str false)) 0 27 blankSurroundings i
        (f.drop 8)).result = .ok () := by
    rintro (_ | i) f hf
    · cases hf
      rw [hserve]
      rfl
    · cases hf
  obtain ⟨-, hlog⟩ := run_frames hframed harrive (by simp [hlength]) hserved
  intro sent' hsent'
  rw [hlog, List.mapIdx_singleton, List.flatten_singleton, hserve] at hsent'
  rw [List.mem_singleton.mp hsent']
  exact not_isAnswer_of_long (by omega) (by omega) hpayload hsent

end NymphRpc
