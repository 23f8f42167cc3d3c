import NymphRpc.Message.BufferFill
import NymphRpc.Types.ObjectSizes

/-!
# Messages over objects

A message holds pointers to its values and adds up their sizes when it takes them; when it is
serialised, the values may have been set anew. Where the sizes are those of the time they were
taken, and every object is written in its recorded size, the length field counts the bytes behind
it and the buffer holds nothing that was not written.
-/

namespace NymphRpc

open LittleEndian Buffer NymphType

namespace NymphMessage

end NymphMessage

open NymphMessage

namespace Objects

end Objects

end NymphRpc
