import NymphRpc.Message.NymphMessage
import NymphRpc.Types.ParseValue

/-!
# Decoding a message

The constructor `NymphMessage(binmsg, bytes)`, over a buffer of exactly `bytes` bytes. The
header takes 17 bytes; what follows depends on the flags, of which the reply flag wins over
the exception flag and that over the callback flag. Comparing `index` with `bytes` converts
the signed index to an unsigned 64-bit number, so a negative index counts as past the end.
-/

namespace NymphRpc

open LittleEndian Buffer NymphType

namespace NymphMessage

/-- `index >= bytes`. -/
def pastEnd (binmsg : Bytes) (index : ℤ) : Bool := index < 0 ∨ (binmsg.length : ℤ) ≤ index

/-- The types `triggerAddRC` and `~NymphType` count references for. -/
def counted (t : NymphType) : Bool :=
  t.valuetype = .array ∨ t.valuetype = .struct ∨ t.valuetype = .string

/-- `linkWithMessage(this)` on the value. -/
def linked (t : NymphType) : NymphType := t.setMembers { t.members with linkedMsg := true }

/-- `linkWithMessage(this)` on the message: `addReferenceCount` for a counted type. -/
def addReference (m : NymphMessage) (t : NymphType) : NymphMessage :=
  { m with refCount := m.refCount + if counted t then 1 else 0 }

/-- Link a value with the message and append it to the parameters. -/
def pushLinked (m : NymphMessage) (t : NymphType) : NymphMessage :=
  { m.addReference t with values := m.values ++ [linked t] }

/-- Mark the message as corrupt. -/
def setCorrupt (m : NymphMessage) : NymphMessage := { m with corrupt := true }

/-- The characters of a string value; any other value leaves the member as it was. -/
def stringOr (member : Bytes) (t : NymphType) : Decode Bytes :=
  if t.valuetype = .string then readString t else pure member

section

variable (u : ℤ → Uninit)

/-- The parameter loop. -/
def parseParameters : ℕ → Bytes → ℤ → NymphMessage → Decode NymphMessage
  | 0, _, _, _ => Traced.fault .outOfFuel
  | fuel + 1, binmsg, index, m =>
    if pastEnd binmsg index then pure m
    else do
      let typecode ← readByte binmsg index
      if typecode = NymphInternalTypes.none.toByte then
        pure m
      else
        let val ← parseValue u fuel (fresh (u index)) typecode binmsg (int32 (index + 1))
        Traced.tell (.call index val.index)
        if pastEnd binmsg val.index then
          pure (m.pushLinked val.value).setCorrupt
        else
          parseParameters fuel binmsg val.index (m.pushLinked val.value)

/-- The reply branch. -/
def decodeReply (fuel : ℕ) (binmsg : Bytes) (m : NymphMessage) : Decode NymphMessage := do
  let responseId ← memcpy binmsg 17 8
  let typecode ← readByte binmsg 25
  let val ← parseValue u fuel (fresh (u 25)) typecode binmsg 26
  let m := { m with responseId := .ofNat (ofBytes responseId), response := some val.value }
  if pastEnd binmsg val.index then
    pure m.setCorrupt
  else
    let terminator ← readByte binmsg val.index
    if terminator ≠ NymphInternalTypes.none.toByte then
      pure m.setCorrupt
    else
      pure { m.addReference val.value with response := some (linked val.value) }

/-- The exception branch; `index` stays before the response ID, and the same object parses
both values. -/
def decodeException (fuel : ℕ) (binmsg : Bytes) (m : NymphMessage) : Decode NymphMessage := do
  let responseId ← memcpy binmsg 17 8
  let typecode ← readByte binmsg 17
  let val ← parseValue u fuel (fresh (u 17)) typecode binmsg 18
  let id := match val.value with
    | .scalar _ .uint32 bits => .ofBitVec bits
    | _ => m.exception.id
  let typecode ← readByte binmsg val.index
  let text ← parseValue u fuel val.value typecode binmsg (int32 (val.index + 1))
  let value ← stringOr m.exception.value text.value
  pure { m with responseId := .ofNat (ofBytes responseId), exception := ⟨id, value⟩ }

/-- The callback branch. -/
def decodeCallback (fuel : ℕ) (binmsg : Bytes) (m : NymphMessage) : Decode NymphMessage := do
  let typecode ← readByte binmsg 17
  let val ← parseValue u fuel (fresh (u 17)) typecode binmsg 18
  let name ← stringOr m.callbackName val.value
  parseParameters u fuel binmsg val.index { m with callbackName := name }

/-- The branch of a regular message. -/
def decodeRegular (fuel : ℕ) (binmsg : Bytes) (m : NymphMessage) : Decode NymphMessage :=
  if pastEnd binmsg 17 then pure m.setCorrupt
  else parseParameters u fuel binmsg 17 m

/-- `NymphMessage(binmsg, bytes)`. -/
def decode (um : MessageUninit) (fuel : ℕ) (binmsg : Bytes) : Decode NymphMessage := do
  let version ← readByte binmsg 0
  let methodId ← memcpy binmsg 1 4
  let m : NymphMessage := { ofMethodId um (.ofNat (ofBytes methodId)) with
    dataBuffer := some binmsg, bufferLength := .ofNat binmsg.length }
  if version ≠ 0x00 then
    pure { m with state := -1, corrupt := true }
  else
    let flags ← memcpy binmsg 5 4
    let messageId ← memcpy binmsg 9 8
    let m := { m with
      flags := .ofNat (ofBytes flags), messageId := .ofNat (ofBytes messageId) }
    if m.isReply then decodeReply u fuel binmsg m
    else if m.isException then decodeException u fuel binmsg m
    else if m.isCallback then decodeCallback u fuel binmsg m
    else decodeRegular u fuel binmsg m

end

end NymphMessage

end NymphRpc
