import Mathlib.Logic.Function.Basic
import Mathlib.Logic.Relation
import NymphRpc.Base.OrderedMap
import NymphRpc.Message.Decode

/-!
# Concurrent method calls

The threads that run `callMethod`, one listener thread for each connection, and the network.
A step is a critical section or a part of one: a lock is taken when it is free and given back
in a step of its own, unless the section does nothing else that another thread can see. The
wait gives the mutex of the request back and enters the queue of the condition in one step,
and only a signal or the time-out ends it.

A response is the address of an object that a received message owns, so here it is the
position of that message among those the listeners have looked up. Nothing is deleted here: that
`delete msg` enters the destructor of a message twice that nobody waits for, where it holds a
string, an array or a struct, is left to the destruction of messages and to the network.
-/

namespace NymphRpc

open NymphMessage

/-- Who holds the mutex of a request. -/
inductive Owner
  | caller
  | listener

/-- `NymphRequest`; its condition is the phase of the one call that may wait for it. -/
structure NymphRequest where
  handle : ℕ
  messageId : UInt64
  mutex : Option Owner
  response : Option ℕ
  exception : Bool
  exceptionData : NymphException

/-- What a call comes back with; only the last two are `true`. -/
inductive CallOutcome
  | refused
  | sendFailed
  | timedOut
  | exception (data : NymphException)
  | value (response : Option ℕ)

/-- How far a call has come. After the wait, the flag tells whether it was signalled. -/
inductive CallPhase
  | ready
  | entered
  | checking
  | serialized
  | added
  | sent
  | waiting
  | waking (signalled : Bool)
  | woken (signalled : Bool)
  | removing (signalled : Bool)
  | returning (signalled : Bool)
  | returned (outcome : CallOutcome)

/-- A call on a connection, with the message it serialised and the request it waits with; the
call that `sync` makes does not take `instancesMutex`. -/
structure Call where
  handle : ℕ
  sync : Bool
  phase : CallPhase
  message : Option NymphMessage
  request : NymphRequest

/-- How far a listener has come with the message at a position, and the call it found. -/
inductive ListenerPhase
  | idle
  | found (k j : ℕ)
  | storing (k j : ℕ)
  | stored (k j : ℕ)
  | signalled (k j : ℕ)
  | leaving

/-- The server instance and the listener of a connection. The last two members belong to the
network: which message IDs were put in requests, and which of those were replied to. -/
structure Connection where
  methodsMutex : Option ℕ
  listed : Bool
  messages : OrderedMap.Map UInt64 ℕ
  messagesMutex : Bool
  listener : ListenerPhase
  requested : List UInt64
  replied : List UInt64

/-- The state of the client; `received` are the messages looked up so far. -/
structure Calls where
  calls : ℕ → Call
  connections : ℕ → Connection
  instancesMutex : Option ℕ
  messageId : ℕ
  received : List (ℕ × NymphMessage)

/-- A request that nothing was stored in yet. -/
def NymphRequest.prepare (exceptionData : NymphException) (handle : ℕ) (messageId : UInt64) :
    NymphRequest where
  handle := handle
  messageId := messageId
  mutex := some .caller
  response := none
  exception := false
  exceptionData := exceptionData

/-- What the listener stores in a request for the message at a position. -/
def NymphRequest.store (request : NymphRequest) (k : ℕ) (m : NymphMessage) : NymphRequest :=
  if m.isReply then { request with response := m.response.map fun _ => k }
  else if m.isException then
    { request with exception := true, response := none, exceptionData := m.exception }
  else { request with response := none }

/-- What a signalled call returns. -/
def NymphRequest.outcome (request : NymphRequest) : CallOutcome :=
  if request.exception then .exception request.exceptionData else .value request.response

/-- What a call returns after its wait. -/
def NymphRequest.result (request : NymphRequest) (signalled : Bool) : CallOutcome :=
  if signalled then request.outcome else .timedOut

namespace Calls

/-- The client before its first call. -/
def initial : Calls where
  calls _ := ⟨0, false, .ready, none, ⟨0, 0, none, none, false, ⟨0, []⟩⟩⟩
  connections _ := ⟨none, false, .empty, false, .idle, [], []⟩
  instancesMutex := none
  messageId := 1
  received := []

/-- Change a call. -/
def setCall (s : Calls) (j : ℕ) (f : Call → Call) : Calls :=
  { s with calls := Function.update s.calls j (f (s.calls j)) }

/-- Change a connection. -/
def setConnection (s : Calls) (h : ℕ) (f : Connection → Connection) : Calls :=
  { s with connections := Function.update s.connections h (f (s.connections h)) }

/-- The call goes on to a phase. -/
abbrev goTo (s : Calls) (j : ℕ) (phase : CallPhase) : Calls :=
  s.setCall j fun c => { c with phase := phase }

/-- The mutex of a request changes hands. -/
abbrev setMutex (s : Calls) (j : ℕ) (mutex : Option Owner) : Calls :=
  s.setCall j fun c => { c with request := { c.request with mutex := mutex } }

/-- The call comes back, and gives `instancesMutex` back if it took it. -/
def comeBack (s : Calls) (j : ℕ) (outcome : CallOutcome) : Calls :=
  { s.goTo j (.returned outcome) with
    instancesMutex := if (s.calls j).sync then s.instancesMutex else none }

/-- The listener goes on to a phase. -/
abbrev listen (s : Calls) (h : ℕ) (phase : ListenerPhase) : Calls :=
  s.setConnection h fun c => { c with listener := phase }

/-- A message comes in at a listener, which is a reply if its response ID was requested. -/
def receive (s : Calls) (h : ℕ) (m : NymphMessage) : Calls :=
  { s.setConnection h fun c =>
      { c with replied :=
          if m.responseId ∈ c.requested then m.responseId :: c.replied else c.replied } with
    received := s.received ++ [(h, m)] }

section

variable (s : Calls)

@[simp, grind =] theorem calls_setCall (j i : ℕ) (f : Call → Call) :
    (s.setCall j f).calls i = if i = j then f (s.calls i) else s.calls i := by
  simp only [setCall, Function.update_apply]
  split_ifs with h
  · rw [h]
  · rfl

@[simp, grind =] theorem connections_setCall (j h : ℕ) (f : Call → Call) :
    (s.setCall j f).connections h = s.connections h := rfl

@[simp, grind =] theorem messageId_setCall (j : ℕ) (f : Call → Call) :
    (s.setCall j f).messageId = s.messageId := rfl

@[simp, grind =] theorem received_setCall (j : ℕ) (f : Call → Call) :
    (s.setCall j f).received = s.received := rfl

@[simp, grind =] theorem calls_setConnection (h j : ℕ) (f : Connection → Connection) :
    (s.setConnection h f).calls j = s.calls j := rfl

@[simp, grind =] theorem connections_setConnection (h i : ℕ) (f : Connection → Connection) :
    (s.setConnection h f).connections i =
      if i = h then f (s.connections i) else s.connections i := by
  simp only [setConnection, Function.update_apply]
  split_ifs with hi
  · rw [hi]
  · rfl

@[simp, grind =] theorem messageId_setConnection (h : ℕ) (f : Connection → Connection) :
    (s.setConnection h f).messageId = s.messageId := rfl

@[simp, grind =] theorem received_setConnection (h : ℕ) (f : Connection → Connection) :
    (s.setConnection h f).received = s.received := rfl

@[simp, grind =] theorem calls_comeBack (j i : ℕ) (outcome : CallOutcome) :
    (s.comeBack j outcome).calls i = (s.goTo j (.returned outcome)).calls i := rfl

@[simp, grind =] theorem connections_comeBack (j h : ℕ) (outcome : CallOutcome) :
    (s.comeBack j outcome).connections h = s.connections h := rfl

@[simp, grind =] theorem messageId_comeBack (j : ℕ) (outcome : CallOutcome) :
    (s.comeBack j outcome).messageId = s.messageId := rfl

@[simp, grind =] theorem received_comeBack (j : ℕ) (outcome : CallOutcome) :
    (s.comeBack j outcome).received = s.received := rfl

@[simp, grind =] theorem calls_receive (h j : ℕ) (m : NymphMessage) :
    (s.receive h m).calls j = s.calls j := rfl

@[simp, grind =] theorem connections_receive (h i : ℕ) (m : NymphMessage) :
    (s.receive h m).connections i = (s.setConnection h fun c => { c with
      replied := if m.responseId ∈ c.requested then m.responseId :: c.replied
        else c.replied }).connections i := rfl

@[simp, grind =] theorem messageId_receive (h : ℕ) (m : NymphMessage) :
    (s.receive h m).messageId = s.messageId := rfl

@[simp, grind =] theorem received_receive (h : ℕ) (m : NymphMessage) :
    (s.receive h m).received = s.received ++ [(h, m)] := rfl

end

end Calls

/-- A message that came out of the constructor. -/
def Decoded (m : NymphMessage) : Prop :=
  ∃ u um fuel binmsg, (decode u um fuel binmsg).result = .ok m

/-- The steps of the client. -/
inductive CallStep : Calls → Calls → Prop
  /-- `NymphRemoteServer::callMethod` locks `instancesMutex`; `sync` calls the instance. -/
  | enter {s : Calls} (j h : ℕ) (sync : Bool) (hphase : (s.calls j).phase = .ready)
      (hfree : sync = false → s.instancesMutex = none) :
      CallStep s { s.setCall j fun c => { c with handle := h, sync := sync, phase := .entered } with
        instancesMutex := if sync then s.instancesMutex else some j }
  /-- The handle is not found. -/
  | unknownHandle {s : Calls} (j : ℕ) (hphase : (s.calls j).phase = .entered)
      (hsync : (s.calls j).sync = false) : CallStep s (s.comeBack j .refused)
  | lockMethods {s : Calls} (j : ℕ) (hphase : (s.calls j).phase = .entered)
      (hfree : (s.connections (s.calls j).handle).methodsMutex = none) :
      CallStep s ((s.goTo j .checking).setConnection (s.calls j).handle fun c =>
        { c with methodsMutex := some j })
  /-- The name is not found, or the arguments do not match the signature. -/
  | refuse {s : Calls} (j : ℕ) (hphase : (s.calls j).phase = .checking) :
      CallStep s ((s.comeBack j .refused).setConnection (s.calls j).handle fun c =>
        { c with methodsMutex := none })
  /-- The request is made with its mutex locked, and the message takes an ID when it is
  serialised. The counter is signed, and beyond its range nothing is defined. -/
  | serialize {s : Calls} (j : ℕ) (e : NymphException) (heap : ℕ → UInt8) (msg sent : NymphMessage)
      (hphase : (s.calls j).phase = .checking) (hcounter : s.messageId + 1 < 2 ^ 63)
      (hmsg : msg.isReply = false) (hsent : msg.serialize (.ofNat s.messageId) heap = some sent) :
      CallStep s { (s.setCall j fun c => { c with
          phase := .serialized
          message := some sent
          request := .prepare e c.handle sent.messageId }).setConnection (s.calls j).handle
            fun c => { c with requested := sent.messageId :: c.requested } with
        messageId := s.messageId + 1 }
  /-- The section of `messagesMutex`; nothing is added if the listener is not listed. -/
  | addMessage {s : Calls} (j : ℕ) (hphase : (s.calls j).phase = .serialized)
      (hfree : (s.connections (s.calls j).handle).messagesMutex = false) :
      CallStep s ((s.goTo j .added).setConnection (s.calls j).handle fun c =>
        if c.listed then { c with messages := c.messages.insert (s.calls j).request.messageId j }
        else c)
  | send {s : Calls} (j : ℕ) (hphase : (s.calls j).phase = .added) :
      CallStep s ((s.goTo j .sent).setConnection (s.calls j).handle fun c =>
        { c with methodsMutex := none })
  /-- The call returns with the mutex of its request still locked. -/
  | sendFail {s : Calls} (j : ℕ) (hphase : (s.calls j).phase = .added) :
      CallStep s ((s.comeBack j .sendFailed).setConnection (s.calls j).handle fun c =>
        { c with methodsMutex := none })
  | wait {s : Calls} (j : ℕ) (hphase : (s.calls j).phase = .sent) :
      CallStep s ((s.goTo j .waiting).setMutex j none)
  | timeOut {s : Calls} (j : ℕ) (hphase : (s.calls j).phase = .waiting) :
      CallStep s (s.goTo j (.waking false))
  | wake {s : Calls} (j : ℕ) (signalled : Bool) (hphase : (s.calls j).phase = .waking signalled)
      (hfree : (s.calls j).request.mutex = none) :
      CallStep s ((s.goTo j (.woken signalled)).setMutex j (some .caller))
  | unlock {s : Calls} (j : ℕ) (signalled : Bool)
      (hphase : (s.calls j).phase = .woken signalled) :
      CallStep s ((s.goTo j (.removing signalled)).setMutex j none)
  /-- The section of `messagesMutex`. -/
  | removeMessage {s : Calls} (j : ℕ) (signalled : Bool)
      (hphase : (s.calls j).phase = .removing signalled)
      (hfree : (s.connections (s.calls j).handle).messagesMutex = false) :
      CallStep s ((s.goTo j (.returning signalled)).setConnection (s.calls j).handle fun c =>
        if c.listed then { c with messages := c.messages.erase (s.calls j).request.messageId }
        else c)
  | comeBack {s : Calls} (j : ℕ) (signalled : Bool)
      (hphase : (s.calls j).phase = .returning signalled) :
      CallStep s (s.comeBack j ((s.calls j).request.result signalled))
  /-- Another message of the program takes an ID. -/
  | takeId {s : Calls} (hcounter : s.messageId + 1 < 2 ^ 63) :
      CallStep s { s with messageId := s.messageId + 1 }
  /-- `addConnection` lists the listener of a connection. -/
  | addConnection {s : Calls} (h : ℕ) :
      CallStep s (s.setConnection h fun c => { c with listed := true })
  /-- A message that is corrupt or a callback is not looked up. -/
  | drop {s : Calls} (h : ℕ) (m : NymphMessage) (hdecoded : Decoded m)
      (hidle : (s.connections h).listener = .idle)
      (hm : m.corrupt = true ∨ m.isCallback = true) : CallStep s s
  /-- Nobody waits for the message, and `messagesMutex` is given back at once. -/
  | notFound {s : Calls} (h : ℕ) (m : NymphMessage) (hdecoded : Decoded m)
      (hidle : (s.connections h).listener = .idle) (hm : m.corrupt = false ∧ m.isCallback = false)
      (hreplied : m.responseId ∉ (s.connections h).replied)
      (hfree : (s.connections h).messagesMutex = false)
      (hlookup : (s.connections h).messages.find? m.responseId = none) : CallStep s (s.receive h m)
  | find {s : Calls} (h : ℕ) (m : NymphMessage) (j : ℕ) (hdecoded : Decoded m)
      (hidle : (s.connections h).listener = .idle) (hm : m.corrupt = false ∧ m.isCallback = false)
      (hreplied : m.responseId ∉ (s.connections h).replied)
      (hfree : (s.connections h).messagesMutex = false)
      (hlookup : (s.connections h).messages.find? m.responseId = some j) :
      CallStep s ((s.receive h m).setConnection h fun c =>
        { c with messagesMutex := true, listener := .found s.received.length j })
  | lockRequest {s : Calls} (h k j : ℕ) (hphase : (s.connections h).listener = .found k j)
      (hfree : (s.calls j).request.mutex = none) :
      CallStep s ((s.setMutex j (some .listener)).listen h (.storing k j))
  | store {s : Calls} (h k j : ℕ) (m : NymphMessage)
      (hphase : (s.connections h).listener = .storing k j) (hm : s.received[k]? = some (h, m)) :
      CallStep s ((s.setCall j fun c => { c with request := c.request.store k m }).listen h
        (.stored k j))
  /-- The signal is lost on a call that does not wait. -/
  | signal {s : Calls} (h k j : ℕ) (hphase : (s.connections h).listener = .stored k j) :
      CallStep s ((s.setCall j fun c => { c with
        phase := match c.phase with
          | .waiting => .waking true
          | phase => phase }).listen h (.signalled k j))
  | unlockRequest {s : Calls} (h k j : ℕ) (hphase : (s.connections h).listener = .signalled k j) :
      CallStep s ((s.setMutex j none).listen h .leaving)
  | unlockMessages {s : Calls} (h : ℕ) (hphase : (s.connections h).listener = .leaving) :
      CallStep s (s.setConnection h fun c => { c with messagesMutex := false, listener := .idle })

/-- The states the client can get into. -/
def Calls.Reachable (s : Calls) : Prop := Relation.ReflTransGen CallStep initial s

end NymphRpc
