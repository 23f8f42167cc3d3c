import NymphRpc.Message.NymphMessage
import NymphRpc.Types.Grammar

/-!
# The layouts of messages

What a message carries beside its header, and the byte strings that stand for it between the
header and the terminator. The flags announce which layout follows: the reply flag wins over
the exception flag, and that one over the callback flag. There are two layouts of an exception:
the encoder writes the text behind the ID, and the specification has the ID alone.
-/

namespace NymphRpc

open LittleEndian

/-- What a message carries beside its header. -/
inductive Content
  | regular (vs : List Value)
  | callback (name : Bytes) (vs : List Value)
  | reply (responseId : UInt64) (v : Value)
  | exception (responseId : UInt64) (exception : NymphException)

namespace Content

/-- The flags of the message announce the layout of the content. -/
def Announced (m : NymphMessage) : Content → Prop
  | regular _ => m.isReply = false ∧ m.isException = false ∧ m.isCallback = false
  | callback _ _ => m.isReply = false ∧ m.isException = false ∧ m.isCallback = true
  | reply _ _ => m.isReply = true
  | exception _ _ => m.isReply = false ∧ m.isException = true

/-- The message holds the content. -/
def CarriedBy (m : NymphMessage) : Content → Prop
  | regular vs => NymphType.valueAll m.values = vs
  | callback name vs => m.callbackName = name ∧ NymphType.valueAll m.values = vs
  | reply responseId v => m.responseId = responseId ∧ m.response.map NymphType.value = some v
  | exception responseId e => m.responseId = responseId ∧ m.exception = e

end Content

/-- The byte string stands for the content in the layout that the encoder writes, between the
header and the terminator. -/
inductive DenotesContent : Bytes → Content → Prop
  | regular {bs vs} (h : DenotesAll bs vs) : DenotesContent bs (.regular vs)
  | callback {cs bs name vs} (hname : Denotes cs (.string name)) (h : DenotesAll bs vs) :
      DenotesContent (cs ++ bs) (.callback name vs)
  | reply {bs v} (id : UInt64) (h : Denotes bs v) :
      DenotesContent (toBytes 8 id.toNat ++ bs) (.reply id v)
  | exception {bs text} (id : UInt64) (exceptionId : UInt32) (h : Denotes bs (.string text)) :
      DenotesContent (toBytes 8 id.toNat ++ (toBytes 4 exceptionId.toNat ++ bs))
        (.exception id ⟨exceptionId, text⟩)

/-- The byte string is the specification's body of a message with the content; an exception has
no text. The ID that the specification lists within the name of a callback is in no code. -/
inductive Specified : Bytes → Content → Prop
  | regular {bs vs} (h : DenotesAll bs vs) : Specified bs (.regular vs)
  | callback {cs bs name vs} (hname : Denotes cs (.string name)) (h : DenotesAll bs vs) :
      Specified (cs ++ bs) (.callback name vs)
  | reply {bs v} (id : UInt64) (h : Denotes bs v) :
      Specified (toBytes 8 id.toNat ++ bs) (.reply id v)
  | exception (id : UInt64) (exceptionId : UInt32) :
      Specified (toBytes 8 id.toNat ++ toBytes 4 exceptionId.toNat)
        (.exception id ⟨exceptionId, []⟩)

/-- A header, a body that its flags announce and the None typecode stand at the start. What follows
does not count, since the encoder reserves more than it writes. -/
def FollowsSpecification (binmsg : Bytes) : Prop :=
  ∃ (s : NymphMessage) (c : Content) (body : Bytes), c.Announced s ∧ Specified body c ∧
    Buffer.Holds binmsg 0 s.header ∧
    Buffer.Holds binmsg 17 (body ++ [NymphInternalTypes.none.toByte])

end NymphRpc
