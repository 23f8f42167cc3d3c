import NymphRpc.Client.Callbacks
import NymphRpc.Client.Composed
import NymphRpc.Dispatcher.Finished
import NymphRpc.Message.DestroyedOnce

/-!
# Callbacks over the network

A server calls a callback over a session, the listener of the connection makes a `CallbackRequest`
of what comes in and passes it to the dispatcher, and a worker looks the name up and calls what is
registered under it. `callbacksMutex` is kept from the look-up until the callback has returned. A
listener is one thread, so it passes a request only when `addRequest` has returned for the one
before.

As in the network of calls, what is sent whole comes in whole and in order. Only the frames of
callbacks are on the links here: those of calls with constructed values, without nulls and empty
keys, for which there is room in a message.

`process` deletes a message for whose name nothing is registered. Where that enters the destructor
of the message twice it is recorded, and what is said of the run from there on is said of a process
that goes on all the same.
-/

namespace NymphRpc

open NymphMessage

/-- `CallbackRequest`. -/
structure CallbackRequest where
  session : UInt32
  msg : NymphMessage
  data : Option ℕ

/-- The frame that a server has sent for a callback, with the name and the values it was sent
for. -/
structure CallbackFrame where
  frame : Bytes
  name : Bytes
  content : List Value

/-- A request that was passed to the dispatcher, with the connection and the place of its frame. -/
structure PassedRequest where
  request : CallbackRequest
  handle : ℕ
  place : ℕ

/-- What `process` comes to: the effect of a callback, or none was found and the message was
deleted, once or twice. -/
inductive Processed (ε : Type)
  | called (effect : ε)
  | deleted
  | deletedTwice

/-- A callback was called. -/
def Processed.isCalled {ε : Type} : Processed ε → Bool
  | called _ => true
  | deleted | deletedTwice => false

/-- `process`, while these callbacks are registered. -/
inductive CallbackRequest.Process {ε : Type} (c : ListenerCallbacks ε) (q : CallbackRequest) :
    Processed ε → Prop
  | called {effect : ε} (hcalled : c.callCallback q.session q.msg q.data = some effect) :
      Process c q (.called effect)
  | deleted (hcalled : c.callCallback q.session q.msg q.data = none)
      (hdelete : DestroyedOnce q.msg .delete) : Process c q .deleted
  | deletedTwice (hcalled : c.callCallback q.session q.msg q.data = none)
      (hdelete : ¬DestroyedOnce q.msg .delete) : Process c q .deletedTwice

/-- `process` comes to an end, whatever is registered. -/
theorem CallbackRequest.exists_process {ε : Type} (c : ListenerCallbacks ε) (q : CallbackRequest) :
    ∃ outcome, q.Process c outcome := by
  cases hcalled : c.callCallback q.session q.msg q.data with
  | some effect => exact ⟨_, .called hcalled⟩
  | none =>
    by_cases hdelete : DestroyedOnce q.msg .delete
    · exact ⟨_, .deleted hcalled hdelete⟩
    · exact ⟨_, .deletedTwice hcalled hdelete⟩

namespace CallbackRequest.Process

variable {ε : Type} {c : ListenerCallbacks ε} {q : CallbackRequest} {outcome : Processed ε}

/-- A callback is called just if `callCallback` finds one. -/
theorem called_iff (h : q.Process c outcome) {effect : ε} :
    outcome = .called effect ↔ c.callCallback q.session q.msg q.data = some effect := by
  cases h with
  | called hcalled => rw [hcalled, Processed.called.injEq, Option.some.injEq]
  | deleted hcalled | deletedTwice hcalled =>
    rw [hcalled]
    simp

/-- That is when the name of the message has one. -/
theorem isCalled_iff (h : q.Process c outcome) :
    outcome.isCalled = true ↔ (c.find? q.msg.callbackName).isSome := by
  have hfind : (c.callCallback q.session q.msg q.data).isSome ↔
      (c.find? q.msg.callbackName).isSome := by
    rw [ListenerCallbacks.callCallback]
    cases c.find? q.msg.callbackName with
    | none => rfl
    | some callback => cases q.data <;> rfl
  rw [← hfind]
  cases h with
  | called hcalled => exact iff_of_true rfl (by rw [hcalled]; rfl)
  | deleted hcalled | deletedTwice hcalled =>
    exact iff_of_false Bool.false_ne_true (by simp [hcalled])

/-- No message is deleted twice whose name has a callback or that is destroyed once. -/
theorem ne_deletedTwice (h : q.Process c outcome)
    (hq : (c.find? q.msg.callbackName).isSome ∨ DestroyedOnce q.msg .delete) :
    outcome ≠ .deletedTwice := by
  rintro rfl
  rcases hq with hfind | honce
  · exact Bool.false_ne_true (h.isCalled_iff.mpr hfind)
  · cases h with
    | deletedTwice hcalled hdelete => exact hdelete honce

end CallbackRequest.Process

/-- What `process` has come to for a request, after so many changes of the callbacks. -/
structure HandledRequest (ε : Type) where
  request : ℕ
  after : ℕ
  outcome : Processed ε

/-- The callbacks of the servers and the frames they have sent, what the listeners have taken and
passed, the dispatcher, which workers have called `process` for the request they execute, and how
the application has changed the callbacks of the client. A request is its place among those that
were passed. -/
structure CallbackNetwork (ε : Type) where
  servers : ℕ → Callbacks
  sent : ℕ → List CallbackFrame
  taken : ℕ → ℕ
  requests : List PassedRequest
  dispatcher : Dispatcher
  processed : ℕ → Bool
  changes : List (ListenerCall ε)
  callbacksMutex : Option ℕ
  handled : List (HandledRequest ε)

/-- What has come in for the frame is a callback with its name and its values. -/
structure CallbackFrame.Brings (f : CallbackFrame) (m : NymphMessage) : Prop where
  corrupt : m.corrupt = false
  isCallback : m.isCallback = true
  isReply : m.isReply = false
  name : m.callbackName = f.name
  content : NymphType.valueAll m.values = f.content

/-- The frame decodes to a callback with its name and its values. -/
def CallbackFrame.Carries (f : CallbackFrame) : Prop :=
  ∀ u um, ∃ m, (decode u um f.frame.length (f.frame.drop 8)).result = .ok m ∧ f.Brings m

namespace CallbackNetwork

variable {ε : Type}

/-- Before the first registration. -/
def initial : CallbackNetwork ε where
  servers _ := .empty
  sent _ := []
  taken _ := 0
  requests := []
  dispatcher := .initial
  processed _ := false
  changes := []
  callbacksMutex := none
  handled := []

/-- What is registered after the first changes. -/
def callbacksAfter (t : CallbackNetwork ε) (n : ℕ) : ListenerCallbacks ε :=
  (t.changes.take n).foldl ListenerCallbacks.apply .empty

/-- What is registered. -/
def callbacks (t : CallbackNetwork ε) : ListenerCallbacks ε :=
  t.changes.foldl ListenerCallbacks.apply .empty

/-- `process` has come to an end for the request, or to the callback. -/
def HasHandled (t : CallbackNetwork ε) (r : ℕ) : Prop := ∃ x ∈ t.handled, x.request = r

end CallbackNetwork

/-- The worker executes a request. -/
@[grind] def WorkerPhase.executes : WorkerPhase → Bool
  | processing _ => true
  | absent | running | adding | parking | waiting => false

open CallbackNetwork

/-- The steps of the servers, the listeners, the dispatcher and the application; each connection
has its session on its server and the data of its socket. -/
inductive CallbackStep {ε : Type} (poolSize : ℕ) (session : ℕ → ℤ) (data : ℕ → Option ℕ) :
    CallbackNetwork ε → CallbackNetwork ε → Prop
  | register {t : CallbackNetwork ε} (h : ℕ) (call : CallbackCall) :
      CallbackStep poolSize session data t { t with
        servers := Function.update t.servers h (Callbacks.apply (t.servers h) call) }
  /-- `NymphRemoteClient::callCallback` succeeds. -/
  | callCallback {t : CallbackNetwork ε} (h : ℕ) (name : Bytes) (m : FlaggedMethod)
      (vs : List Value) (ts : List NymphType) (env : CallEnvironment) (result frame : Bytes)
      (hm : (t.servers h).find? name = some m) (hvalues : ConstructsAll vs ts)
      (hsize : (Content.callback m.method.name vs).size < 2 ^ 31)
      (hcalled : Callbacks.callCallback (t.servers h) [session h] env (session h) name ts result =
        ⟨true, result, some frame⟩) :
      CallbackStep poolSize session data t { t with
        sent := Function.update t.sent h (t.sent h ++ [⟨frame, m.method.name, vs⟩]) }
  /-- The listener takes the next frame and calls `addRequest`. -/
  | take {t : CallbackNetwork ε} (h : ℕ) (f : CallbackFrame) (m : NymphMessage) (u : ℤ → Uninit)
      (um : MessageUninit) (hf : (t.sent h)[t.taken h]? = some f)
      (hdecode : (decode u um f.frame.length (f.frame.drop 8)).result = .ok m)
      (hm : m.corrupt = false ∧ m.isCallback = true)
      (hidle : ∀ (r : ℕ) (p : PassedRequest), t.requests[r]? = some p → p.handle = h →
        t.dispatcher.calls r = .returned) :
      CallbackStep poolSize session data t { t with
        taken := Function.update t.taken h (t.taken h + 1)
        requests := t.requests ++ [⟨⟨.ofNat h, m, data h⟩, h, t.taken h⟩]
        dispatcher := t.dispatcher.setCall t.requests.length .entered }
  /-- A worker leaves its request only when `process` has come back for it. -/
  | dispatch {t : CallbackNetwork ε} {d : Dispatcher}
      (hstep : Dispatcher.Onward poolSize t.dispatcher d)
      (hfinish : ∀ w r, (t.dispatcher.allWorkers w).phase = .processing r →
        (d.allWorkers w).phase ≠ .processing r →
          t.processed w = true ∧ t.callbacksMutex ≠ some r) :
      CallbackStep poolSize session data t { t with
        dispatcher := d
        processed := fun w => t.processed w && (d.allWorkers w).phase.executes }
  /-- A worker calls `process` for the request it executes. -/
  | process {t : CallbackNetwork ε} (w r : ℕ) (p : PassedRequest) (outcome : Processed ε)
      (hw : (t.dispatcher.allWorkers w).phase = .processing r) (hcalls : t.processed w = false)
      (hp : t.requests[r]? = some p) (hfree : t.callbacksMutex = none)
      (houtcome : p.request.Process t.callbacks outcome) :
      CallbackStep poolSize session data t { t with
        processed := Function.update t.processed w true
        callbacksMutex := if outcome.isCalled then some r else none
        handled := t.handled ++ [⟨r, t.changes.length, outcome⟩] }
  /-- The callback has returned. -/
  | unlock {t : CallbackNetwork ε} (r : ℕ) (hr : t.callbacksMutex = some r) :
      CallbackStep poolSize session data t { t with callbacksMutex := none }
  /-- `addCallback` and `removeCallback` of the listener. `callbacksMutex` is recursive, so the
  callback that it is kept for can call them too. -/
  | change {t : CallbackNetwork ε} (call : ListenerCall ε) :
      CallbackStep poolSize session data t { t with changes := t.changes ++ [call] }

/-- The states that the callbacks can get into. -/
def CallbackNetwork.Reachable {ε : Type} (poolSize : ℕ) (session : ℕ → ℤ) (data : ℕ → Option ℕ)
    (t : CallbackNetwork ε) : Prop :=
  Relation.ReflTransGen (CallbackStep poolSize session data) initial t

/-- What a server sends for a callback carries the name of the method and the values. -/
theorem carries_of_callSession {m : NymphMethod} {vs : List Value} {ts : List NymphType}
    {env : CallEnvironment} {result frame : Bytes} (hvalues : ConstructsAll vs ts)
    (hsize : (Content.callback m.name vs).size < 2 ^ 31)
    (hcalled : m.callSession true env ts result = ⟨true, result, some frame⟩) :
    CallbackFrame.Carries ⟨frame, m.name, vs⟩ := by
  rw [NymphMethod.callSession] at hcalled
  cases hmsg : m.composeMessage true env.um ts with
  | error text =>
    rw [hmsg] at hcalled
    cases hcalled
  | ok msg =>
    have hall : Value.sizeAll vs < 2 ^ 31 := by
      rw [Content.size] at hsize
      omega
    have hprepared : Prepared env.um m.id (.callback m.name vs) msg :=
      NymphMethod.prepared_of_composeMessage hvalues hall hmsg
    have hready := hprepared.ready (by omega)
    obtain ⟨s, payload, hs, hsent⟩ := hready.serialize (by omega) env.freshId env.heap
    have hframe : frame = s.frame := by
      rw [hmsg, NymphMethod.sendSession] at hcalled
      simp only [hs, Option.getD_some] at hcalled
      cases hsending : env.sending <;> rw [hsending] at hcalled <;> cases hcalled
      rfl
    have hfits := hsent.fits
    obtain ⟨hreply, -, hcallback⟩ := hsent.announced hready
    intro u um
    have hfuel : s.body.length ≤ s.frame.length := by
      rw [body, List.length_drop]
      omega
    obtain ⟨m', hm', hreceived⟩ := hsent.decode hready (by omega) u um hfuel
    refine ⟨m', hframe ▸ hm', hreceived.corrupt, ?_, ?_, hreceived.carried.1, hreceived.carried.2⟩
    · rw [isCallback, hreceived.flags]
      exact hcallback
    · rw [NymphMessage.isReply, hreceived.flags]
      exact hreply

end NymphRpc
