import NymphRpc.Message.Decode
import NymphRpc.Types.Unlinked

/-!
# Destroying a message

The destructors of `NymphMessage` and `NymphType`, as far as they delete messages and values.
A linked string, array or struct decrements the reference count of its message, and the count
reaching zero deletes the message, also while its destructor is running. Memory that was
deleted keeps its contents here, so a second entry shows in the log and the first one is what
matters. The fuel bounds how often destructors are entered again.
-/

namespace NymphRpc

open NymphType NymphMessage

/-- Where an object hangs below its message: the parameters are `[0, i]`, the response is
`[1]`, and the objects in one at `a` are `a ++ [j]`. -/
abbrev Address := List ℕ

/-- What a destructor was entered for. -/
inductive Destroyed
  | message
  | object (a : Address)
  deriving DecidableEq, Repr

/-- A message and what was destroyed so far. -/
structure Destruction where
  message : NymphMessage
  log : List Destroyed

namespace Destruction

/-- Enter a destructor. -/
def record (d : Destruction) (e : Destroyed) : Destruction := { d with log := d.log ++ [e] }

/-- Enter the destructors of several objects. -/
def recordAll (d : Destruction) (as : List Address) : Destruction :=
  { d with log := d.log ++ as.map .object }

section

variable (destroy : Destruction → Destruction)

/-- `decrementReferenceCount`, given `delete this`. -/
def decrementReferenceCount (d : Destruction) : Destruction :=
  if d.message.deleted then d
  else
    let d := { d with message := { d.message with refCount := d.message.refCount - 1 } }
    if d.message.refCount = 0 then destroy d else d

mutual

/-- `~NymphType` of the object at an address. -/
def destroyType (a : Address) : NymphType → Destruction → Destruction
  | .array m vector, d =>
    let d := d.record (.object a)
    let d := if m.linkedMsg then decrementReferenceCount destroy d else d
    if m.own then destroyElements a 0 vector d else d
  | .struct m pairs, d =>
    let d := d.record (.object a)
    let d := if m.linkedMsg then decrementReferenceCount destroy d else d
    if m.own then destroyPairs a 0 pairs d else d
  | .string m _, d =>
    let d := d.record (.object a)
    if m.linkedMsg then decrementReferenceCount destroy d else d
  | .null _, d | .boolean _ _, d | .scalar _ _ _, d => d.record (.object a)

/-- The loop over an owned vector. -/
def destroyElements (a : Address) : ℕ → List NymphType → Destruction → Destruction
  | _, [], d => d
  | j, t :: ts, d => destroyElements a (j + 1) ts (destroyType (a ++ [j]) t d)

/-- The loop over an owned map: a key, and then its value. -/
def destroyPairs (a : Address) : ℕ → List NymphPair → Destruction → Destruction
  | _, [], d => d
  | j, .mk _ key value :: ps, d =>
    destroyPairs a (j + 2) ps
      (destroyType (a ++ [j + 1]) value (destroyType (a ++ [j]) key d))

end

/-- The loop over the parameters, which another entry of the destructor may have cleared. -/
def destroyValues : ℕ → ℕ → Destruction → Destruction
  | 0, _, d => d
  | n + 1, i, d =>
    match d.message.values[i]? with
    | some t => destroyValues n (i + 1) (destroyType destroy [0, i] t d)
    | none => d

/-- The response, if the message owns it. -/
def destroyResponse (d : Destruction) : Destruction :=
  match d.message.response with
  | some r => if d.message.responseOwned then destroyType destroy [1] r d else d
  | none => d

end

/-- `~NymphMessage`. -/
def destroyMessage : ℕ → Destruction → Destruction
  | 0, d => d.record .message
  | fuel + 1, d =>
    let d := d.record .message
    let d := destroyValues (destroyMessage fuel) d.message.values.length 0 d
    let d := destroyResponse (destroyMessage fuel) d
    { d with message := { d.message with values := [] } }

end Destruction

open Destruction

/-- The ways the library disposes of a decoded message. -/
inductive Disposal
  | delete
  | discard
  | response

/-- What a disposal destroys: `delete msg`, `msg->discard()`, or the caller of a method
deleting the response that the listener took with `getResponse()`. -/
def Disposal.run (fuel : ℕ) (m : NymphMessage) : Disposal → List Destroyed
  | delete => (destroyMessage fuel ⟨m, []⟩).log
  | discard => (destroyMessage fuel ⟨{ m with deleted := true }, []⟩).log
  | response =>
    match m.getResponse false with
    | (m, some r) => (destroyType (destroyMessage fuel) [1] r ⟨m, []⟩).log
    | (_, none) => []

/-- Which messages are disposed of in which way. -/
inductive Disposes (m : NymphMessage) : Disposal → Prop
  | corrupt (h : m.corrupt = true) : Disposes m .delete
  | unmatched (h : m.isCallback = false) : Disposes m .delete
  | noHandler (h : m.isCallback = true) : Disposes m .delete
  | handler (h : m.corrupt = false) : Disposes m .discard
  | caller (h : m.corrupt = false) (hr : m.isReply = true) : Disposes m .response

/-- Every destructor is entered at most once. -/
def DestroyedOnce (m : NymphMessage) (p : Disposal) : Prop :=
  ∀ fuel e, (p.run fuel m).count e ≤ 1

end NymphRpc
