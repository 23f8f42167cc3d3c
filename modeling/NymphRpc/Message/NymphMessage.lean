import NymphRpc.Types.NymphType

/-!
# Messages

A `NymphMessage` as an application prepares and serialises it. `serialize()` allocates the
buffer by the recorded sizes and then writes through a pointer that nothing compares with
the end of that buffer, so the bytes it writes and the buffer it allocates are two separate
things here: `written` is everything that is written from the start of the buffer on, and
`allocated` is what the buffer holds afterwards, uninitialised memory included.
-/

namespace NymphRpc

open LittleEndian

/-- `NYMPH_MESSAGE_REPLY`. -/
def flagReply : UInt32 := 0x01

/-- `NYMPH_MESSAGE_EXCEPTION`. -/
def flagException : UInt32 := 0x02

/-- `NYMPH_MESSAGE_CALLBACK`. -/
def flagCallback : UInt32 := 0x04

/-- The signature 'DRGN' of a frame. -/
def signature : ℕ := 0x4452474e

/-- `NymphException`. -/
structure NymphException where
  id : UInt32
  value : Bytes

/-- What the members that no constructor sets happen to hold. -/
structure MessageUninit where
  messageId : UInt64
  exceptionId : UInt32

/-- A message, prepared by an application or decoded from a buffer. -/
structure NymphMessage where
  values : List NymphType
  flags : UInt32
  methodId : UInt32
  state : ℤ
  corrupt : Bool
  messageId : UInt64
  responseId : UInt64
  exception : NymphException
  callbackName : Bytes
  response : Option NymphType
  dataBuffer : Option Bytes
  bufferLength : UInt32
  responseOwned : Bool
  refCount : UInt32
  deleted : Bool

namespace NymphMessage

/-- `NymphMessage(methodId)`. -/
def ofMethodId (um : MessageUninit) (methodId : UInt32) : NymphMessage where
  values := []
  flags := 0
  methodId := methodId
  state := 0
  corrupt := false
  messageId := um.messageId
  responseId := 0
  exception := ⟨um.exceptionId, []⟩
  callbackName := []
  response := none
  dataBuffer := none
  bufferLength := 0
  responseOwned := true
  refCount := 0
  deleted := false

/-- `isReply()`. -/
def isReply (m : NymphMessage) : Bool := m.flags &&& flagReply ≠ 0

/-- `isException()`. -/
def isException (m : NymphMessage) : Bool := m.flags &&& flagException ≠ 0

/-- `isCallback()`. -/
def isCallback (m : NymphMessage) : Bool := m.flags &&& flagCallback ≠ 0

/-- `addValue`. -/
def addValue (m : NymphMessage) (v : NymphType) : NymphMessage :=
  { m with values := m.values ++ [v], bufferLength := m.bufferLength + v.bytes.toUInt32 }

/-- `setInReplyTo`. -/
def setInReplyTo (m : NymphMessage) (msgId : UInt64) : NymphMessage :=
  { m with responseId := msgId, messageId := msgId + 1 }

/-- `setResultValue`. -/
def setResultValue (m : NymphMessage) (v : NymphType) : NymphMessage :=
  { m with flags := m.flags ||| flagReply, response := some v, bufferLength := v.bytes.toUInt32 }

/-- `getReplyMessage`. -/
def getReplyMessage (um : MessageUninit) (m : NymphMessage) : NymphMessage :=
  (ofMethodId um m.methodId).setInReplyTo m.messageId

/-- `setException`. -/
def setException (m : NymphMessage) (exceptionId : UInt32) (value : Bytes) : NymphMessage :=
  { m with flags := m.flags ||| flagException, exception := ⟨exceptionId, value⟩ }

/-- `setCallback`. -/
def setCallback (m : NymphMessage) (name : Bytes) : NymphMessage :=
  { m with flags := m.flags ||| flagCallback, callbackName := name }

/-- `getResponse(take)`. -/
def getResponse (m : NymphMessage) (take : Bool) : NymphMessage × Option NymphType :=
  ({ m with responseOwned := take }, m.response)

/-! ### Serialisation -/

/-- `message_length`, computed in 32 bits. -/
def messageLength (m : NymphMessage) : UInt32 :=
  18 + m.bufferLength + (if m.isReply then 8 else 0) +
    (if m.isException then 8
      else if m.isCallback then (NymphType.ofString m.callbackName false).bytes.toUInt32
      else 0)

/-- The values the serialisation loop visits; its bound is a 32-bit count. -/
def serializedValues (m : NymphMessage) : List NymphType :=
  m.values.take (UInt32.ofNat m.values.length).toNat

/-- The bytes between the header and the terminator.

The reply branch dereferences `response`, and there is no payload if it is null. -/
def payload (m : NymphMessage) : Option Bytes :=
  if m.isReply then
    m.response.map fun r => toBytes 8 m.responseId.toNat ++ r.serialize
  else if m.isException then
    some (toBytes 8 m.responseId.toNat ++ toBytes 4 m.exception.id.toNat ++
      (NymphType.ofString m.exception.value false).serialize)
  else if m.isCallback then
    some ((NymphType.ofString m.callbackName false).serialize ++
      NymphType.serializeAll m.serializedValues)
  else
    some (NymphType.serializeAll m.serializedValues)

/-- The header behind the length field: version, method ID, flags and message ID. -/
def header (m : NymphMessage) : Bytes :=
  0x00 :: (toBytes 4 m.methodId.toNat ++ (toBytes 4 m.flags.toNat ++ toBytes 8 m.messageId.toNat))

/-- Everything written from the start of the buffer, given the payload. -/
def written (m : NymphMessage) (payload : Bytes) : Bytes :=
  toBytes 4 signature ++ (toBytes 4 m.messageLength.toNat ++
    (m.header ++ (payload ++ [NymphInternalTypes.none.toByte])))

/-- A buffer of `n` bytes of uninitialised memory after bytes were written from its start on. -/
def allocated (heap : ℕ → UInt8) (n : ℕ) (written : Bytes) : Bytes :=
  written.take n ++ ((List.range n).drop written.length).map heap

/-- The message ID `serialize()` sends: a fresh one unless the message is a reply. -/
def assignId (m : NymphMessage) (freshId : UInt64) : NymphMessage :=
  { m with messageId := if m.isReply then m.messageId else freshId }

/-- `serialize()`, given the ID the counter would hand out and the contents of fresh memory. -/
def serialize (m : NymphMessage) (freshId : UInt64) (heap : ℕ → UInt8) : Option NymphMessage :=
  m.payload.map fun payload =>
    let m := m.assignId freshId
    { m with
      bufferLength := m.messageLength + 8
      dataBuffer := some (allocated heap (m.messageLength + 8).toNat (m.written payload)) }

/-- A message that is no reply is sent with the fresh ID. -/
@[grind →] theorem messageId_serialize {m s : NymphMessage} {freshId : UInt64} {heap : ℕ → UInt8}
    (h : m.serialize freshId heap = some s) (hm : m.isReply = false) : s.messageId = freshId := by
  obtain ⟨payload, -, rfl⟩ := Option.map_eq_some_iff.mp h
  simp [assignId, hm]

/-- The buffer that is sent. -/
def frame (m : NymphMessage) : Bytes := m.dataBuffer.getD []

/-- The buffer without the signature and the length field. -/
def body (m : NymphMessage) : Bytes := m.frame.drop 8

/-- The allocated buffer has the requested length. -/
theorem allocated_length (heap : ℕ → UInt8) (n : ℕ) (written : Bytes) :
    (allocated heap n written).length = n := by
  simp only [allocated, List.length_append, List.length_take, List.length_map, List.length_drop,
    List.length_range]
  omega

/-- What was written inside the buffer stands at its start. -/
theorem allocated_eq_append {heap : ℕ → UInt8} {n : ℕ} {written : Bytes}
    (h : written.length ≤ n) :
    allocated heap n written = written ++ ((List.range n).drop written.length).map heap := by
  rw [allocated, List.take_of_length_le h]

/-- All values are visited when their count fits 32 bits. -/
theorem serializedValues_eq {m : NymphMessage} (h : m.values.length < 2 ^ 32) :
    m.serializedValues = m.values := by
  rw [serializedValues, UInt32.toNat_ofNat', Nat.mod_eq_of_lt h, List.take_length]

@[simp] theorem header_length (m : NymphMessage) : m.header.length = 17 := by
  simp [header]

/-- The bytes written are 26 more than the payload. -/
theorem written_length (m : NymphMessage) (payload : Bytes) :
    (m.written payload).length = payload.length + 26 := by
  simp only [written, List.length_append, toBytes_length, header_length, List.length_singleton]
  omega

/-- Behind the signature and the length field the header, the payload and the terminator are
written. -/
theorem written_drop (m : NymphMessage) (payload : Bytes) :
    (m.written payload).drop 8 = m.header ++ (payload ++ [NymphInternalTypes.none.toByte]) := by
  rw [written, ← List.append_assoc]
  exact List.drop_left' (by simp)

end NymphMessage

end NymphRpc
