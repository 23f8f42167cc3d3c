import NymphRpc.Base.Buffer
import NymphRpc.Server.Dispatch

/-!
# Synchronising the methods

`NymphServerInstance::sync` reads the table of the server and adds the methods to the client's
own tables, which count their IDs anew. The transmitted ID is only compared with 0, the ID of
the built-in method, which the client has from the start.
-/

namespace NymphRpc

open LittleEndian

/-- Why `sync` does not come back with `true`. The first four make it return `false`; the
others are an exception of `substr` and a read behind the end. -/
inductive SyncFault
  | short
  | noMethodsSignature
  | noMethods
  | noMethodSignature
  | outOfRange
  | outOfBounds
  deriving DecidableEq

/-- `binmsg.substr(pos, n)`. -/
def substr (binmsg : Bytes) (pos n : ℕ) : Except SyncFault Bytes :=
  if binmsg.length < pos then .error .outOfRange else .ok ((binmsg.drop pos).take n)

/-- The `n` bytes at `&binmsg[index]`; the characters of a string are followed by a null. -/
def bytesAt (binmsg : Bytes) (index n : ℕ) : Except SyncFault Bytes :=
  match Buffer.slice? (binmsg ++ [0]) index n with
  | some bs => .ok bs
  | none => .error .outOfBounds

/-- The tables of `NymphServerInstance`, which is the client's side of a connection. -/
abbrev NymphServerInstance := MethodTable

namespace NymphServerInstance

/-- `addMethod`. -/
def addMethod (c : NymphServerInstance) (name : Bytes) (method : NymphMethod) :
    NymphServerInstance :=
  MethodTable.insert c name method

/-- The callback of a method that was given none; it answers with an empty message. -/
def dummyCallback : NymphMethodCallback :=
  .application fun _ _ _ => some (.ofMethodId ⟨0, 0⟩ 0)

/-- The constructor, which adds the built-in method. -/
def connected : NymphServerInstance :=
  addMethod .empty nymphsync (.make nymphsync [] .string dummyCallback)

/-- Read the entry at an index, and add its method; the index after it comes with the tables. -/
def syncMethod (binmsg : Bytes) (index : ℕ) (c : NymphServerInstance) :
    Except SyncFault (ℕ × NymphServerInstance) := do
  let signature ← substr binmsg index 6
  let methodId ← bytesAt binmsg (index + 6) 4
  if signature ≠ methodSignature then
    throw .noMethodSignature
  else
    let l ← bytesAt binmsg (index + 10) 1
    let methodName ← substr binmsg (index + 11) (ofBytes l)
    let index := index + 11 + ofBytes l
    let l ← bytesAt binmsg index 1
    let parameters ← bytesAt binmsg (index + 1) (ofBytes l)
    let t ← bytesAt binmsg (index + 1 + ofBytes l) 1
    let index := index + 2 + ofBytes l
    if ofBytes methodId = 0 then
      pure (index, c)
    else
      pure (index, addMethod c methodName (.make methodName (parameters.map NymphTypes.ofByte)
        (NymphTypes.ofByte (.ofNat (ofBytes t))) dummyCallback))

/-- The loop over the entries. -/
def syncMethods (binmsg : Bytes) : ℕ → ℕ → NymphServerInstance →
    Except SyncFault NymphServerInstance
  | 0, _, c => pure c
  | n + 1, index, c => do
    let (index, c) ← syncMethod binmsg index c
    syncMethods binmsg n index c

/-- `sync`, once the table was received. -/
def sync (c : NymphServerInstance) (binmsg : Bytes) : Except SyncFault NymphServerInstance := do
  if binmsg.length < 11 then
    throw .short
  else
    let signature ← substr binmsg 0 7
    let methodCount ← bytesAt binmsg 7 4
    if signature ≠ methodsSignature then
      throw .noMethodsSignature
    else if ofBytes methodCount = 0 then
      throw .noMethods
    else
      syncMethods binmsg (ofBytes methodCount) 11 c

end NymphServerInstance

end NymphRpc
