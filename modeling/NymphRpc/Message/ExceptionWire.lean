import NymphRpc.Message.Decode

/-!
# Exceptions on the wire

The length that `serialize()` computes for an exception adds eight bytes to the header and the
terminator. The response ID takes all of them; the exception ID and the text are written behind
the end of the buffer. The decoder reads the typecodes of both from the place of the response
ID, where the encoder has put none.
-/

namespace NymphRpc

open LittleEndian NymphType

namespace NymphMessage

/-- The message a handler or a client prepares to report an exception. -/
def exceptionMessage (um : MessageUninit) (methodId : UInt32) (responseId : UInt64)
    (exceptionId : UInt32) (text : Bytes) : NymphMessage :=
  ((ofMethodId um methodId).setInReplyTo responseId).setException exceptionId text

/-- Serialising the message writes inside its buffer, and the decoder finds the exception there. -/
def ExceptionSurvives (m : NymphMessage) (freshId : UInt64) (heap : ℕ → UInt8) : Prop :=
  ∃ s payload, m.serialize freshId heap = some s ∧ m.payload = some payload ∧
    ((m.assignId freshId).written payload).length ≤ s.frame.length ∧
    ∃ u um fuel m', (decode u um fuel s.body).result = .ok m' ∧ m'.isException = true ∧
      m'.responseId = m.responseId ∧ m'.exception = m.exception

variable (um : MessageUninit) (methodId : UInt32) (responseId : UInt64) (exceptionId : UInt32)
  (text : Bytes)

/-- The flags announce an exception. -/
theorem flags_exceptionMessage :
    (exceptionMessage um methodId responseId exceptionId text).isReply = false ∧
      (exceptionMessage um methodId responseId exceptionId text).isException = true := by
  have hflags : (exceptionMessage um methodId responseId exceptionId text).flags =
      0 ||| flagException := rfl
  rw [isReply, isException, hflags]
  decide

/-- The computed length has no room for the exception ID and the text. -/
theorem messageLength_exceptionMessage :
    (exceptionMessage um methodId responseId exceptionId text).messageLength = 26 := by
  obtain ⟨hreply, hexception⟩ := flags_exceptionMessage um methodId responseId exceptionId text
  rw [messageLength, hreply, hexception]
  rfl

/-- The payload is the two IDs and the text. -/
theorem payload_exceptionMessage :
    (exceptionMessage um methodId responseId exceptionId text).payload =
      some (toBytes 8 responseId.toNat ++ toBytes 4 exceptionId.toNat ++
        (ofString text false).serialize) := by
  obtain ⟨hreply, hexception⟩ := flags_exceptionMessage um methodId responseId exceptionId text
  rw [payload, hreply, hexception]
  rfl

/-- A string is at least a typecode. -/
theorem serialize_ofString_pos (own : Bool) : 1 ≤ (ofString text own).serialize.length := by
  have hpos : ∀ (m : Members) (chars : CharPtr), 1 ≤ (serializeString m chars).length := by
    intro m chars
    rw [serializeString, List.length_append]
    split_ifs <;> simp only [List.length_cons] <;> omega
  exact hpos _ _

/-- An exception is written past the end of its buffer, by five bytes at least. -/
theorem overrun_exceptionMessage {s : NymphMessage} {payload : Bytes} {freshId : UInt64}
    {heap : ℕ → UInt8}
    (hs : (exceptionMessage um methodId responseId exceptionId text).serialize freshId heap =
      some s)
    (hpayload : (exceptionMessage um methodId responseId exceptionId text).payload = some payload) :
    s.frame.length + 5 ≤ (((exceptionMessage um methodId responseId exceptionId text).assignId
      freshId).written payload).length := by
  have htext := serialize_ofString_pos text false
  have hframe : s.frame.length = 34 := by
    obtain ⟨_, -, rfl⟩ := Option.map_eq_some_iff.mp hs
    have hlength : ((exceptionMessage um methodId responseId exceptionId text).assignId
        freshId).messageLength = 26 :=
      messageLength_exceptionMessage um methodId responseId exceptionId text
    exact (allocated_length _ _ _).trans (by rw [hlength]; rfl)
  rw [payload_exceptionMessage] at hpayload
  cases hpayload
  rw [hframe, written_length, List.length_append, List.length_append, toBytes_length,
    toBytes_length]
  omega

/-- No exception survives the wire. -/
theorem not_exceptionSurvives (freshId : UInt64) (heap : ℕ → UInt8) :
    ¬ExceptionSurvives (exceptionMessage um methodId responseId exceptionId text) freshId heap := by
  rintro ⟨s, payload, hs, hpayload, hle, -⟩
  have hoverrun := overrun_exceptionMessage um methodId responseId exceptionId text hs hpayload
  omega

/-- An exception with the ID 1 and an empty text does not survive the wire. -/
theorem not_exceptionSurvives_empty :
    ¬ExceptionSurvives (exceptionMessage ⟨0, 0⟩ 0 0 1 []) 7 fun _ => 0 := by
  rintro ⟨s, payload, hs, hpayload, hle, -⟩
  cases hs
  cases hpayload
  revert hle
  decide +kernel

end NymphMessage

end NymphRpc
