import NymphRpc.Message.DecodeAccepts

/-!
# Decoding undoes encoding

A message prepared from constructed values is serialised within the buffer it allocates: the
recorded sizes bound the bytes written, and they exceed them only by the two bytes an empty
string is overestimated by. What is written is therefore the documented layout, followed by
whatever memory the buffer held, and the decoder stops at the terminator before it.
-/

namespace NymphRpc

open LittleEndian Buffer NymphType

/-- The message an application prepares for a content; an exception is never prepared here. -/
inductive Prepared (um : MessageUninit) (methodId : UInt32) : Content → NymphMessage → Prop
  | regular {vs ts} (h : ConstructsAll vs ts) :
      Prepared um methodId (.regular vs)
        (ts.foldl NymphMessage.addValue (.ofMethodId um methodId))
  | callback {vs ts} (name : Bytes) (h : ConstructsAll vs ts) :
      Prepared um methodId (.callback name vs)
        (ts.foldl NymphMessage.addValue ((NymphMessage.ofMethodId um methodId).setCallback name))
  | reply {v t} (id : UInt64) (h : Constructs v t) :
      Prepared um methodId (.reply id v)
        (((NymphMessage.ofMethodId um methodId).setInReplyTo id).setResultValue t)

/-- The size of the serialised message: 26 bytes around the payload, and the reserved sizes. -/
def Content.size : Content → ℕ
  | regular vs => 26 + Value.sizeAll vs
  | callback name vs => 26 + Value.stringSize name.length + Value.sizeAll vs
  | reply _ v => 34 + v.size
  | exception _ _ => 34

namespace NymphMessage

/-- Adding values one by one appends them and adds up their recorded sizes. -/
theorem foldl_addValue (ts : List NymphType) (m : NymphMessage) :
    ts.foldl addValue m =
      { m with
        values := m.values ++ ts
        bufferLength := m.bufferLength + (sumBytes ts).toUInt32 } := by
  induction ts generalizing m with
  | nil => simp [sumBytes]
  | cons t ts ih =>
    rw [List.foldl_cons, ih]
    have hsum : sumBytes (t :: ts) = t.bytes + sumBytes ts := by simp [sumBytes]
    simp only [addValue, List.append_assoc, List.singleton_append, hsum, UInt64.toUInt32_add,
      UInt32.add_assoc]

/-- A message without flags is a regular message. -/
theorem announced_regular {m : NymphMessage} (h : m.flags = 0) (vs : List Value) :
    Content.Announced m (.regular vs) := by
  simp [Content.Announced, isReply, isException, isCallback, h]

/-- A message whose only flag is the callback flag is a callback message. -/
theorem announced_callback {m : NymphMessage} (h : m.flags = 0 ||| flagCallback) (name : Bytes)
    (vs : List Value) : Content.Announced m (.callback name vs) := by
  rw [Content.Announced, isReply, isException, isCallback, h]
  decide

/-- A message whose only flag is the reply flag is a reply without an exception. -/
theorem announced_reply {m : NymphMessage} (h : m.flags = 0 ||| flagReply) :
    m.isReply = true ∧ m.isException = false ∧ m.isCallback = false := by
  rw [isReply, isException, isCallback, h]
  decide

/-- Converting a recorded size to 32 bits keeps it when it fits. -/
theorem toUInt32_toNat {x : UInt64} (h : x.toNat < 2 ^ 32) : x.toUInt32.toNat = x.toNat := by
  rw [UInt64.toNat_toUInt32]
  exact Nat.mod_eq_of_lt h

/-- What is known of a message ready to be serialised: its flags announce its content, the
reserved size is the content's, and the payload is a byte string of the content that fits. -/
structure Ready (c : Content) (m : NymphMessage) : Prop where
  announced : c.Announced m
  decodable : ∀ id e, c ≠ .exception id e
  reserved : m.messageLength.toNat + 8 = c.size
  payload : ∃ payload, m.payload = some payload ∧ DenotesContent payload c ∧
    payload.length + 26 ≤ c.size

/-- A message without flags is ready when its values are constructed and its buffer length is
their recorded size. -/
theorem Ready.regular {m : NymphMessage} {vs : List Value} (hflags : m.flags = 0)
    (h : ConstructsAll vs m.values) (hlength : m.bufferLength = (sumBytes m.values).toUInt32)
    (hsize : (Content.regular vs).size < 2 ^ 32) : Ready (.regular vs) m := by
  simp only [Content.size] at hsize
  obtain ⟨hser, hbytes, -, heq⟩ := h.represents (by omega)
  obtain ⟨hden, hlen⟩ := h.encode (by omega)
  have hcount := hden.length_le
  obtain ⟨hr, he, hc⟩ := announced_regular hflags vs
  refine ⟨⟨hr, he, hc⟩, by simp, ?_, Value.encodeAll vs, ?_, .regular hden, ?_⟩
  · simp only [messageLength, hr, he, hc, hlength, Bool.false_eq_true, if_false, UInt32.add_zero,
      UInt32.toNat_add, toUInt32_toNat (x := sumBytes m.values) (by omega), hbytes,
      UInt32.reduceToNat, Content.size]
    omega
  · simp only [NymphMessage.payload, hr, he, hc, Bool.false_eq_true, if_false]
    rw [serializedValues_eq (by omega), hser]
  · simp only [Content.size]
    omega

/-- A message with the callback flag is ready when its values are constructed and its buffer
length is their recorded size. -/
theorem Ready.callback {m : NymphMessage} {name : Bytes} {vs : List Value}
    (hflags : m.flags = 0 ||| flagCallback) (hcallback : m.callbackName = name)
    (h : ConstructsAll vs m.values) (hlength : m.bufferLength = (sumBytes m.values).toUInt32)
    (hsize : (Content.callback name vs).size < 2 ^ 32) : Ready (.callback name vs) m := by
  subst hcallback
  simp only [Content.size] at hsize
  obtain ⟨hser, hbytes, -, heq⟩ := h.represents (by omega)
  obtain ⟨hden, hlen⟩ := h.encode (by omega)
  have hcount := hden.length_le
  have hname := (Constructs.string m.callbackName false).represents (by rw [Value.size]; omega)
  obtain ⟨hnameDen, hnameLen⟩ :=
    (Constructs.string m.callbackName false).encode (by rw [Value.size]; omega)
  have hnameBytes := hname.bytes
  rw [Value.size] at hnameLen hnameBytes
  obtain ⟨hr, he, hc⟩ := announced_callback hflags m.callbackName vs
  refine ⟨⟨hr, he, hc⟩, by simp, ?_, _, ?_, .callback hnameDen hden, ?_⟩
  · simp only [messageLength, hr, he, hc, hlength, Bool.false_eq_true, if_false, if_true,
      UInt32.add_zero, UInt32.toNat_add, toUInt32_toNat (x := sumBytes m.values) (by omega),
      toUInt32_toNat (x := (ofString m.callbackName false).bytes) (by omega), hbytes, hnameBytes,
      UInt32.reduceToNat, Content.size]
    omega
  · simp only [NymphMessage.payload, hr, he, hc, Bool.false_eq_true, if_false, if_true]
    rw [serializedValues_eq (by omega), hser, hname.serialize]
  · simp only [Content.size, List.length_append]
    omega

/-- A message with the reply flag is ready when its response is constructed and its buffer
length is the recorded size. -/
theorem Ready.reply {m : NymphMessage} {id : UInt64} {v : Value} {t : NymphType}
    (hflags : m.flags = 0 ||| flagReply) (hid : m.responseId = id) (hresponse : m.response = some t)
    (h : Constructs v t) (hlength : m.bufferLength = t.bytes.toUInt32)
    (hsize : (Content.reply id v).size < 2 ^ 32) : Ready (.reply id v) m := by
  subst hid
  simp only [Content.size] at hsize
  obtain ⟨hser, hbytes, -⟩ := h.represents (by omega)
  obtain ⟨hden, hlen⟩ := h.encode (by omega)
  obtain ⟨hr, he, hc⟩ := announced_reply hflags
  refine ⟨hr, by simp, ?_, _, ?_, .reply m.responseId hden, ?_⟩
  · simp only [messageLength, hr, he, hc, hlength, Bool.false_eq_true, if_false, if_true,
      UInt32.add_zero, UInt32.toNat_add, toUInt32_toNat (x := t.bytes) (by omega), hbytes,
      UInt32.reduceToNat, Content.size]
    omega
  · simp only [NymphMessage.payload, hr, if_true, hresponse, Option.map_some, hser]
  · simp only [Content.size, List.length_append, toBytes_length]
    omega

/-- What serialising a ready message leaves behind: the header fields, a buffer of the size of
the content, and in it the header, a byte string of the content and the terminator. -/
structure Sent (c : Content) (m s : NymphMessage) (payload : Bytes) : Prop where
  methodId : s.methodId = m.methodId
  flags : s.flags = m.flags
  messageId : m.isReply = true → s.messageId = m.messageId
  responseId : s.responseId = m.responseId
  source : m.payload = some payload
  bufferLength : s.bufferLength.toNat = c.size
  length : s.body.length + 8 = c.size
  header : Holds s.body 0 s.header
  denotes : DenotesContent payload c
  fits : payload.length + 26 ≤ c.size
  payload : Holds s.body 17 (payload ++ [NymphInternalTypes.none.toByte])

/-- A ready message is serialised into the documented layout of its content. -/
theorem Ready.serialize {c : Content} {m : NymphMessage} (h : Ready c m) (hsize : c.size < 2 ^ 32)
    (freshId : UInt64) (heap : ℕ → UInt8) :
    ∃ s payload, m.serialize freshId heap = some s ∧ Sent c m s payload := by
  obtain ⟨payload, hpayload, hden, hfits⟩ := h.payload
  have hreserved : (m.messageLength + 8).toNat = c.size := by
    have hlt := h.reserved
    rw [UInt32.toNat_add]
    change (m.messageLength.toNat + 8) % 2 ^ 32 = _
    omega
  let w := (m.assignId freshId).written payload
  let tail := ((List.range c.size).drop w.length).map heap
  have hw : w.length = payload.length + 26 := written_length _ _
  obtain ⟨s, hs⟩ : ∃ s, m.serialize freshId heap = some s := by
    rw [NymphMessage.serialize, hpayload]
    exact ⟨_, rfl⟩
  have hfields : s.methodId = m.methodId ∧ s.flags = m.flags ∧
      s.messageId = (m.assignId freshId).messageId ∧ s.responseId = m.responseId ∧
      s.bufferLength.toNat = c.size ∧ s.header = (m.assignId freshId).header ∧
      s.dataBuffer = some (allocated heap c.size w) := by
    rw [NymphMessage.serialize, hpayload] at hs
    rw [← Option.some.inj hs, ← hreserved]
    exact ⟨rfl, rfl, rfl, rfl, rfl, rfl, rfl⟩
  obtain ⟨hmethod, hflags, hid, hresponse, hlength, hheader, hbuffer⟩ := hfields
  have hbody : s.body = s.header ++ ((payload ++ [NymphInternalTypes.none.toByte]) ++ tail) := by
    rw [body, frame, hbuffer, Option.getD_some, allocated_eq_append (by omega),
      List.drop_append_of_le_length (by omega), written_drop, hheader, List.append_assoc]
  refine ⟨s, payload, hs, hmethod, hflags, ?_, hresponse, hpayload, hlength, ?_, ?_, hden, hfits,
    ?_⟩
  · intro hreply
    rw [hid, assignId, hreply, if_pos rfl]
  · rw [body, frame, hbuffer, Option.getD_some, List.length_drop, allocated_length]
    omega
  · rw [hbody]
    exact Holds.self _ _
  · have happend := Holds.append s.header (payload ++ [NymphInternalTypes.none.toByte]) tail
    rwa [header_length, ← hbody] at happend

/-- The flags of a sent message announce its content. -/
theorem Sent.announced {c : Content} {m s : NymphMessage} {payload : Bytes}
    (h : Sent c m s payload) (hready : Ready c m) : c.Announced s := by
  have hann := hready.announced
  simp only [Content.Announced, isReply, isException, isCallback, h.flags] at hann ⊢
  exact hann

/-- The buffer of a sent message decodes to its content, when the payload ends below 2^31. -/
theorem Sent.decode {c : Content} {m s : NymphMessage} {payload : Bytes} (h : Sent c m s payload)
    (hready : Ready c m) (hbound : 17 + payload.length < 2 ^ 31) (u : ℤ → Uninit)
    (um : MessageUninit) {fuel : ℕ} (hfuel : s.body.length ≤ fuel) :
    ∃ m', (NymphMessage.decode u um fuel s.body).result = .ok m' ∧ Received s c m' := by
  have hlength := h.length
  have hfits := h.fits
  exact decode_accepts h.denotes (h.announced hready) hready.decodable h.header h.payload hbound
    (by omega)

end NymphMessage

open NymphMessage

/-- A prepared message is ready to be serialised. -/
theorem Prepared.ready {um : MessageUninit} {methodId : UInt32} {c : Content} {m : NymphMessage}
    (h : Prepared um methodId c m) (hsize : c.size < 2 ^ 32) : Ready c m := by
  cases h with
  | regular h =>
    rw [foldl_addValue]
    refine Ready.regular rfl ?_ ?_ hsize
    · simpa [ofMethodId] using h
    · simp [ofMethodId]
  | callback name h =>
    rw [foldl_addValue]
    refine Ready.callback rfl rfl ?_ ?_ hsize
    · simpa [ofMethodId, setCallback] using h
    · simp [ofMethodId, setCallback]
  | reply id h => exact Ready.reply rfl rfl rfl h rfl hsize

/-- A prepared message has the method ID it was made for. -/
theorem Prepared.methodId_eq {um : MessageUninit} {methodId : UInt32} {c : Content}
    {m : NymphMessage} (h : Prepared um methodId c m) : m.methodId = methodId := by
  cases h with
  | regular h => rw [foldl_addValue]; rfl
  | callback name h => rw [foldl_addValue]; rfl
  | reply id h => rfl

/-- Serialising a prepared message and decoding its buffer behind the first eight bytes gives
back the header fields and the content, when the serialised message is shorter than 2^31
bytes. -/
theorem decode_serialize {um um' : MessageUninit} {methodId : UInt32} {c : Content}
    {m : NymphMessage} (h : Prepared um methodId c m) (hsize : c.size < 2 ^ 31)
    (u : ℤ → Uninit) (freshId : UInt64) (heap : ℕ → UInt8) :
    ∃ s, m.serialize freshId heap = some s ∧ s.methodId = methodId ∧ s.flags = m.flags ∧
      s.bufferLength.toNat = c.size ∧ s.body.length = s.bufferLength.toNat - 8 ∧
      ∀ fuel, s.body.length ≤ fuel → ∃ m',
        (NymphMessage.decode u um' fuel s.body).result = .ok m' ∧
          NymphMessage.Received s c m' := by
  have hready := h.ready (by omega)
  obtain ⟨s, payload, hs, hsent⟩ := hready.serialize (by omega) freshId heap
  have hlength := hsent.length
  have hfits := hsent.fits
  have hbuffer := hsent.bufferLength
  refine ⟨s, hs, hsent.methodId.trans h.methodId_eq, hsent.flags, hbuffer, by omega, ?_⟩
  intro fuel hfuel
  exact hsent.decode hready (by omega) u um' hfuel

/-- A callback with an array of an empty string and a struct comes back from the wire. -/
theorem decode_serialize_callback :
    ∃ s, ([ofVector ⟨0, 0⟩ [ofString [] false, ofMap ⟨0, 0⟩
          [.mk [0x6b] (ofString [0x6b] false) (ofBool ⟨0, 0⟩ true)] true] true].foldl addValue
        ((ofMethodId ⟨0, 0⟩ 3).setCallback [0x63])).serialize 9 (fun _ => 0xff) = some s ∧
      s.methodId = 3 ∧ s.flags = 4 ∧ s.bufferLength.toNat = 50 ∧
      s.body.length = s.bufferLength.toNat - 8 ∧
      ∀ fuel, s.body.length ≤ fuel → ∃ m',
        (NymphMessage.decode (fun _ => ⟨0, 0⟩) ⟨0, 0⟩ fuel s.body).result = .ok m' ∧
          NymphMessage.Received s (.callback [0x63]
            [.array [.string [], .struct [([0x6b], .boolean true)]]]) m' :=
  decode_serialize
    (.callback [0x63] (.cons (.array ⟨0, 0⟩ true (.cons (.string [] false)
      (.cons (.struct ⟨0, 0⟩ true
        (.cons (by simp) (.string [0x6b] false) (.boolean ⟨0, 0⟩ true) .nil)
        (by simp [OrderedMap.Sorted])) .nil))) .nil))
    (by decide) _ _ _

end NymphRpc
