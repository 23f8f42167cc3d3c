import NymphRpc.Message.RoundTrip
import NymphRpc.Types.Sizes

/-!
# Serialising inside the buffer

`serialize()` allocates what the recorded sizes ask for and then writes without looking at the
end of the buffer. A message is assembled by the calls of an application into one of three
kinds; its parts are the values whose sizes are reserved and which are written. Around them
there are 26 bytes, and 34 in a reply, whose length is computed in 32 bits as well.
-/

namespace NymphRpc

open LittleEndian Buffer NymphType

/-- The kinds of message an application assembles. -/
inductive MessageKind
  | regular | callback | reply
  deriving DecidableEq, Repr

/-- The bytes around the parts: signature, length field, header and terminator, and in a reply
the message ID that it answers. -/
def MessageKind.overhead : MessageKind → ℕ
  | regular | callback => 26
  | reply => 34

namespace NymphMessage

/-- The values whose sizes are reserved. -/
def contents (m : NymphMessage) : MessageKind → List NymphType
  | .regular | .callback => m.values
  | .reply => m.response.toList

/-- The values that are written behind the header: the contents, after the name of a callback. -/
def parts (m : NymphMessage) : MessageKind → List NymphType
  | .callback => ofString m.callbackName false :: m.values
  | k => m.contents k

/-- What the calls establish for a kind of message: its flags, its reserved size, and the
response of a reply. -/
structure Reserves (k : MessageKind) (m : NymphMessage) : Prop where
  flags : m.flags = match k with
    | .regular => 0
    | .callback => flagCallback
    | .reply => flagReply
  bufferLength : m.bufferLength = (sumBytes (m.contents k)).toUInt32
  response : k = .reply → m.response.isSome

section

variable {k : MessageKind} {m : NymphMessage}

/-- The flags of a message announce its kind. -/
theorem Reserves.announces (h : Reserves k m) :
    m.isReply = decide (k = .reply) ∧ m.isException = false ∧
      m.isCallback = decide (k = .callback) := by
  simp only [isReply, isException, isCallback, h.flags]
  cases k <;> decide

/-- The length field holds the size of the parts and the overhead behind it, in 32 bits. -/
theorem Reserves.messageLength_eq (h : Reserves k m) :
    m.messageLength = (sumBytes (m.parts k)).toUInt32 + .ofNat (k.overhead - 8) := by
  obtain ⟨hr, he, hc⟩ := h.announces
  rw [messageLength, h.bufferLength, hr, he, hc]
  cases k with
  | regular => simp [parts, MessageKind.overhead, UInt32.add_comm]
  | callback =>
    have hsum : sumBytes (ofString m.callbackName false :: m.values) =
        (ofString m.callbackName false).bytes + sumBytes m.values := by simp [sumBytes]
    simp only [parts, hsum, UInt64.toUInt32_add, contents, reduceCtorEq, decide_false, decide_true,
      Bool.false_eq_true, if_false, if_true, UInt32.add_zero]
    change _ = _ + (18 : UInt32)
    ac_rfl
  | reply =>
    simp only [parts, reduceCtorEq, decide_false, decide_true, Bool.false_eq_true, if_false,
      if_true, UInt32.add_zero]
    change _ = _ + ((18 : UInt32) + 8)
    ac_rfl

/-- The allocated buffer has the size of the parts and the overhead, cut to 32 bits. -/
theorem Reserves.buffer_toNat (h : Reserves k m) :
    (m.messageLength + 8).toNat = ((sumBytes (m.parts k)).toNat + k.overhead) % 2 ^ 32 := by
  have h8 : (8 : UInt32).toNat = 8 := rfl
  rw [h.messageLength_eq, UInt32.toNat_add, UInt32.toNat_add, UInt64.toNat_toUInt32,
    UInt32.toNat_ofNat', h8]
  cases k <;> simp only [MessageKind.overhead] <;> omega

/-- What is written between the header and the terminator: the parts, after the message ID that a
reply answers. -/
theorem Reserves.payload_length (h : Reserves k m)
    (hcount : k ≠ .reply → m.values.length < 2 ^ 32) :
    ∃ payload, m.payload = some payload ∧
      payload.length + 26 = (serializeAll (m.parts k)).length + k.overhead := by
  obtain ⟨hr, he, hc⟩ := h.announces
  rw [NymphMessage.payload, hr, he, hc]
  cases k with
  | regular =>
    rw [serializedValues_eq (hcount (by decide))]
    exact ⟨_, rfl, rfl⟩
  | callback =>
    rw [serializedValues_eq (hcount (by decide))]
    refine ⟨_, rfl, ?_⟩
    simp [parts, serializeAll, MessageKind.overhead]
  | reply =>
    obtain ⟨r, hresponse⟩ := Option.isSome_iff_exists.mp (h.response rfl)
    rw [hresponse]
    refine ⟨_, rfl, ?_⟩
    simp only [parts, contents, hresponse, Option.toList_some, serializeAll, List.append_nil,
      List.length_append, toBytes_length, MessageKind.overhead]
    omega

/-- What `serialize()` leaves behind for a message of a kind: the buffer and its size, how much
was written from its start on, and the length field in it. -/
structure Writes (k : MessageKind) (m : NymphMessage) (heap : ℕ → UInt8) (s : NymphMessage)
    (written : Bytes) : Prop where
  dataBuffer : s.dataBuffer = some (allocated heap s.bufferLength.toNat written)
  bufferLength : s.bufferLength.toNat = ((sumBytes (m.parts k)).toNat + k.overhead) % 2 ^ 32
  length : written.length = (serializeAll (m.parts k)).length + k.overhead
  lengthField : Holds written 4 (toBytes 4 (s.bufferLength - 8).toNat)

/-- Serialising an assembled message writes its parts and the overhead around them. -/
theorem Reserves.serialize (h : Reserves k m) (hcount : k ≠ .reply → m.values.length < 2 ^ 32)
    (freshId : UInt64) (heap : ℕ → UInt8) : ∃ s payload, m.serialize freshId heap = some s ∧
      m.payload = some payload ∧ Writes k m heap s ((m.assignId freshId).written payload) := by
  obtain ⟨payload, hpayload, hlength⟩ := h.payload_length hcount
  refine ⟨_, payload, by rw [NymphMessage.serialize, hpayload]; rfl, hpayload, ?_⟩
  refine ⟨rfl, h.buffer_toNat, ?_, ?_⟩
  · rw [written_length, hlength]
  · change Holds _ 4 (toBytes 4 (m.messageLength + 8 - 8).toNat)
    rw [UInt32.add_sub_cancel]
    have happend := Holds.append (toBytes 4 signature) (toBytes 4 m.messageLength.toNat)
      ((m.assignId freshId).header ++ (payload ++ [NymphInternalTypes.none.toByte]))
    rwa [toBytes_length] at happend

end

/-- A reply with a string. -/
def stringReply (str : Bytes) : NymphMessage :=
  ((ofMethodId ⟨0, 0⟩ 1).setInReplyTo 7).setResultValue (ofString str false)

end NymphMessage

end NymphRpc
