import NymphRpc.Client.CallSteps
import NymphRpc.Client.CallById

/-!
# What a call leaves behind

A call makes its request with the mutex locked, adds it to its listener, sends, waits and takes
it away again. Three ways back leave something undone. When the arguments do not match, the
mutex stays locked; when not all bytes are sent, the request stays with the listener as well, and
the thread that looks it up never gets the mutex; and a connection that is gone by the time the
call takes its request away keeps it. Wherever none of them is taken, nothing is left, and no
later message reaches the call.

Each step of the client says what decides about it, so that a run can be held to steps that
do no harm. Messages come in with any response ID here, as often as the network likes.
-/

namespace NymphRpc

open Calls

/-- What decides about a step: the arguments of a call, what becomes of its bytes, or which
connection is removed. -/
inductive ClientEvent
  | composing (m : NymphMethod) (values : List NymphType)
  | sending (bytes : Sending)
  | removal (h : ℕ)
  | other

/-- The arguments match the method, all bytes are sent, and no request is pending on a
connection that is removed. -/
def ClientEvent.Harmless (s : Calls) : ClientEvent → Prop
  | composing m values => m.Accepts values
  | sending bytes => bytes = .whole
  | removal h => ∀ id, (s.connections h).messages.find? id = none
  | other => True

namespace Calls

/-- The call comes back from `NymphMethod::call`, and gives `methodsMutex` back. -/
def comeBackFromMethod (s : Calls) (j : ℕ) (outcome : CallOutcome) : Calls :=
  (s.comeBack j outcome).setConnection (s.calls j).handle fun c => { c with methodsMutex := none }

/-- A new request; `callMethodId` leaves `exception` as it was in memory. -/
def newRequest (e : NymphException) (handle : ℕ) (messageId : UInt64) (exception : Bool) :
    NymphRequest :=
  { NymphRequest.prepare e handle messageId with exception := exception }

end Calls

/-- The steps of a client whose calls are made by name or by ID, and whose connections come and
go. -/
inductive ClientStep : ClientEvent → Calls → Calls → Prop
  /-- Any step but those of a call that looks for its method, composes its message or sends. -/
  | other {s s' : Calls} (hstep : CallStep s s')
      (hphase : ∀ j, (s.calls j).phase = .checking ∨ (s.calls j).phase = .added →
        (s'.calls j).phase = (s.calls j).phase) : ClientStep .other s s'
  /-- The name or the ID is not found. -/
  | unknownMethod {s : Calls} (j : ℕ) (hphase : (s.calls j).phase = .checking) :
      ClientStep .other s (s.comeBackFromMethod j .refused)
  | compose {s : Calls} (j : ℕ) (m : NymphMethod) (isCallback : Bool) (um : MessageUninit)
      (values : List NymphType) (e : NymphException) (byId exception : Bool) (heap : ℕ → UInt8)
      (msg sent : NymphMessage) (hphase : (s.calls j).phase = .checking)
      (hcounter : s.messageId + 1 < 2 ^ 63) (hmsg : m.composeMessage isCallback um values = .ok msg)
      (hsent : msg.serialize (.ofNat s.messageId) heap = some sent)
      (hexception : byId = false → exception = false) :
      ClientStep (.composing m values) s { (s.setCall j fun c => { c with
          phase := .serialized
          message := some sent
          request := newRequest e c.handle sent.messageId exception }).setConnection
            (s.calls j).handle fun c => { c with requested := sent.messageId :: c.requested } with
        messageId := s.messageId + 1 }
  /-- The request was made before the arguments are looked at; its ID is not set yet. -/
  | mismatch {s : Calls} (j : ℕ) (m : NymphMethod) (isCallback : Bool) (um : MessageUninit)
      (values : List NymphType) (text : Bytes) (e : NymphException) (messageId : UInt64)
      (byId exception : Bool) (hphase : (s.calls j).phase = .checking)
      (hmismatch : m.composeMessage isCallback um values = .error text)
      (hexception : byId = false → exception = false) :
      ClientStep (.composing m values) s ((s.setCall j fun c => { c with
        request := newRequest e c.handle messageId exception }).comeBackFromMethod j .refused)
  | send {s : Calls} (j : ℕ) (hphase : (s.calls j).phase = .added) :
      ClientStep (.sending .whole) s ((s.goTo j .sent).setConnection (s.calls j).handle fun c =>
        { c with methodsMutex := none })
  | sendFail {s : Calls} (j : ℕ) (bytes : Sending) (hphase : (s.calls j).phase = .added)
      (hbytes : bytes ≠ .whole) :
      ClientStep (.sending bytes) s (s.comeBackFromMethod j .sendFailed)
  | removeConnection {s : Calls} (h : ℕ) :
      ClientStep (.removal h) s (s.setConnection h fun c => { c with listed := false })
  /-- The handle of a removed listener is not found, and its mutex is not waited for. -/
  | skipAdd {s : Calls} (j : ℕ) (hphase : (s.calls j).phase = .serialized)
      (hlisted : (s.connections (s.calls j).handle).listed = false) :
      ClientStep .other s (s.goTo j .added)
  | skipRemove {s : Calls} (j : ℕ) (signalled : Bool)
      (hphase : (s.calls j).phase = .removing signalled)
      (hlisted : (s.connections (s.calls j).handle).listed = false) :
      ClientStep .other s (s.goTo j (.returning signalled))
  /-- A message comes in again, or one that nobody asked for. -/
  | notFound {s : Calls} (h : ℕ) (m : NymphMessage)
      (hidle : (s.connections h).listener = .idle)
      (hfree : (s.connections h).messagesMutex = false)
      (hlookup : (s.connections h).messages.find? m.responseId = none) :
      ClientStep .other s (s.receive h m)
  | find {s : Calls} (h : ℕ) (m : NymphMessage) (j : ℕ)
      (hidle : (s.connections h).listener = .idle)
      (hfree : (s.connections h).messagesMutex = false)
      (hlookup : (s.connections h).messages.find? m.responseId = some j) :
      ClientStep .other s ((s.receive h m).setConnection h fun c =>
        { c with messagesMutex := true, listener := .found s.received.length j })

namespace Calls

/-- Any steps. -/
def Run : Calls → Calls → Prop := Relation.ReflTransGen fun s s' => ∃ e, ClientStep e s s'

/-- Steps that do no harm. -/
def HarmlessRun : Calls → Calls → Prop :=
  Relation.ReflTransGen fun s s' => ∃ e, ClientStep e s s' ∧ e.Harmless s

/-- No listener keeps or works on the request of the call, and nobody holds its mutex. -/
structure LeavesNothing (s : Calls) (j : ℕ) : Prop where
  messages : ∀ h id, (s.connections h).messages.find? id ≠ some j
  mutex : (s.calls j).request.mutex = none
  listener : ∀ h k, (s.connections h).listener.works ≠ some (k, j)

/-- Whatever happens next, the call has left nothing behind and nothing reaches it. -/
def LeftAlone (s : Calls) (j : ℕ) : Prop :=
  ∀ s', Run s s' → s'.calls j = s.calls j ∧ s'.LeavesNothing j

end Calls

namespace CallPhase

/-- The request may be with the listener. -/
@[grind] def pends : CallPhase → Bool
  | added | sent | waiting | waking _ | woken _ | removing _ => true
  | ready | entered | checking | serialized | returning _ | returned _ => false

end CallPhase

namespace Calls

variable {s s' : Calls}

@[simp, grind =] theorem calls_comeBackFromMethod (s : Calls) (j i : ℕ) (outcome : CallOutcome) :
    (s.comeBackFromMethod j outcome).calls i = (s.goTo j (.returned outcome)).calls i := rfl

@[simp, grind =] theorem connections_comeBackFromMethod (s : Calls) (j h : ℕ)
    (outcome : CallOutcome) :
    (s.comeBackFromMethod j outcome).connections h =
      (s.setConnection (s.calls j).handle fun c => { c with methodsMutex := none }).connections h :=
  rfl

@[simp, grind =] theorem mutex_newRequest (e : NymphException) (handle : ℕ) (messageId : UInt64)
    (exception : Bool) : (newRequest e handle messageId exception).mutex = some .caller := rfl

/-- What holds in any run: a listener keeps requests of its own connection, and works on one
that it keeps; and the mutexes are held by those whose phases say so, and by calls whose
arguments did not match. -/
structure Held (s : Calls) : Prop where
  entries : ∀ h id j, (s.connections h).messages.find? id = some j →
    (s.calls j).phase.identified ∧ (s.calls j).handle = h ∧ (s.calls j).request.messageId = id
  works : ∀ h k j, (s.connections h).listener.works = some (k, j) →
    (s.connections h).messagesMutex = true ∧
      (s.connections h).messages.find? (s.calls j).request.messageId = some j
  caller : ∀ j, (s.calls j).phase.locks → (s.calls j).request.mutex = some .caller
  listener : ∀ h j, (s.connections h).listener.locks = some j →
    (s.calls j).request.mutex = some .listener
  callerHolds : ∀ j, (s.calls j).request.mutex = some .caller →
    (s.calls j).phase.locks ∨ (s.calls j).phase = .returned .refused
  listenerHolds : ∀ j, (s.calls j).request.mutex = some .listener →
    (s.calls j).phase.identified ∧ (s.connections (s.calls j).handle).listener.locks = some j

namespace Held

/-- A listener works on calls of its own connection. -/
theorem call_of_works (hs : s.Held) {h k j : ℕ}
    (hw : (s.connections h).listener.works = some (k, j)) :
    (s.calls j).phase.identified ∧ (s.calls j).handle = h := by
  obtain ⟨hid, hhandle, -⟩ := hs.entries h _ j (hs.works h k j hw).2
  exact ⟨hid, hhandle⟩

/-- Only the request of a call is added to the pending ones of its connection. -/
theorem entries_step (hs : s.Held) {e : ClientEvent} (h : ClientStep e s s') (i : ℕ) (id : UInt64)
    (j : ℕ) (hm : (s'.connections i).messages.find? id = some j) :
    (s'.calls j).phase.identified ∧ (s'.calls j).handle = i ∧
      (s'.calls j).request.messageId = id := by
  obtain ⟨hentries, -, -, -, -, -⟩ := hs
  cases h with
  | other hstep hphase => exact Calls.entries_step hstep hentries i id j hm
  | _ => grind

/-- While a listener works, what it works on stays pending. -/
theorem works_step (hs : s.Held) {e : ClientEvent} (h : ClientStep e s s') (i k j : ℕ)
    (hw : (s'.connections i).listener.works = some (k, j)) :
    (s'.connections i).messagesMutex = true ∧
      (s'.connections i).messages.find? (s'.calls j).request.messageId = some j := by
  obtain ⟨hentries, hworks, -, -, -, -⟩ := hs
  cases h with
  | other hstep hphase => cases hstep <;> grind [Option.or_eq_some_iff]
  | _ => grind

/-- A call that locks a mutex holds it. -/
theorem caller_step (hs : s.Held) {e : ClientEvent} (h : ClientStep e s s') (j : ℕ)
    (hj : (s'.calls j).phase.locks) : (s'.calls j).request.mutex = some .caller := by
  obtain ⟨-, -, hcaller, hlistener, -, -⟩ := hs
  cases h with
  | other hstep hphase => exact callerLocks_step hstep hcaller hlistener j hj
  | _ => grind

/-- A listener that locks a mutex holds it. -/
theorem listener_step (hs : s.Held) {e : ClientEvent} (h : ClientStep e s s') (i j : ℕ)
    (hj : (s'.connections i).listener.locks = some j) :
    (s'.calls j).request.mutex = some .listener := by
  have hlocks : ∀ i j, (s.connections i).listener.locks = some j →
      (s.calls j).phase.identified ∧ (s.calls j).handle = i := by
    intro i j hlocks
    obtain ⟨k, hworks⟩ := ListenerPhase.works_of_locks hlocks
    exact hs.call_of_works hworks
  obtain ⟨-, -, hcaller, hlistener, -, -⟩ := hs
  cases h with
  | other hstep hphase => exact listenerLocks_step hstep hcaller hlistener hlocks i j hj
  | _ => grind

/-- A call that holds a mutex is in a phase that says so, or its arguments did not match. -/
theorem callerHolds_step (hs : s.Held) {e : ClientEvent} (h : ClientStep e s s') (j : ℕ)
    (hj : (s'.calls j).request.mutex = some .caller) :
    (s'.calls j).phase.locks ∨ (s'.calls j).phase = .returned .refused := by
  obtain ⟨-, -, hcaller, hlistener, hcallerHolds, -⟩ := hs
  cases h with
  | other hstep hphase => cases hstep <;> grind
  | _ => grind

/-- The listener that holds a mutex is in a phase that says so. -/
theorem listenerHolds_step (hs : s.Held) {e : ClientEvent} (h : ClientStep e s s') (j : ℕ)
    (hj : (s'.calls j).request.mutex = some .listener) :
    (s'.calls j).phase.identified ∧
      (s'.connections (s'.calls j).handle).listener.locks = some j := by
  have hfound : ∀ {i k j : ℕ}, (s.connections i).listener = .found k j →
      (s.calls j).phase.identified ∧ (s.calls j).handle = i :=
    fun hphase => hs.call_of_works (by rw [hphase]; rfl)
  obtain ⟨-, -, hcaller, hlistener, -, hlistenerHolds⟩ := hs
  cases h with
  | other hstep hphase => cases hstep <;> grind
  | _ => grind

/-- The invariant survives every step. -/
theorem step (hs : s.Held) {e : ClientEvent} (h : ClientStep e s s') : s'.Held where
  entries := hs.entries_step h
  works := hs.works_step h
  caller := hs.caller_step h
  listener := hs.listener_step h
  callerHolds := hs.callerHolds_step h
  listenerHolds := hs.listenerHolds_step h

end Held

/-- Nothing is held before the first call. -/
theorem held_initial : initial.Held := by
  constructor <;>
    simp [initial, CallPhase.locks, ListenerPhase.works, ListenerPhase.locks]

/-- The invariant holds in every run. -/
theorem Run.held (h : Run initial s) : s.Held := by
  induction h with
  | refl => exact held_initial
  | tail _ hstep ih =>
    obtain ⟨e, hstep⟩ := hstep
    exact ih.step hstep

/-- What holds besides if no step does harm: a pending request belongs to a call that is under
way, on a connection that is listed, and no call returns with a mutex. -/
structure Orderly (s : Calls) : Prop where
  pending : ∀ h id j, (s.connections h).messages.find? id = some j →
    (s.calls j).phase.pends ∧ (s.connections h).listed
  released : ∀ j o, (s.calls j).phase = .returned o → (s.calls j).request.mutex ≠ some .caller

namespace Orderly

/-- A pending request belongs to a call that is under way. -/
theorem pending_step (ho : s.Orderly) (hs : s.Held) {e : ClientEvent} (h : ClientStep e s s')
    (he : e.Harmless s) (i : ℕ) (id : UInt64) (j : ℕ)
    (hm : (s'.connections i).messages.find? id = some j) :
    (s'.calls j).phase.pends ∧ (s'.connections i).listed := by
  obtain ⟨hpending, -⟩ := ho
  have hentries := hs.entries
  cases h with
  | other hstep hphase => cases hstep <;> grind [Option.or_eq_some_iff]
  | removeConnection h =>
    have hnone : ∀ id, (s.connections h).messages.find? id = none := he
    grind
  | sendFail j bytes hphase hbytes => exact absurd he hbytes
  | _ => grind

/-- No call returns with a mutex. -/
theorem released_step (ho : s.Orderly) (hs : s.Held) {e : ClientEvent} (h : ClientStep e s s')
    (he : e.Harmless s) (j : ℕ) (o : CallOutcome) (hret : (s'.calls j).phase = .returned o) :
    (s'.calls j).request.mutex ≠ some .caller := by
  obtain ⟨-, hreleased⟩ := ho
  have hcallerHolds := hs.callerHolds
  cases h with
  | other hstep hphase => cases hstep <;> grind
  | mismatch j m isCallback um values text e messageId byId exception hphase hmismatch =>
    obtain ⟨msg, hmsg⟩ := NymphMethod.composeMessage_ok_iff.mpr he
    rw [hmismatch] at hmsg
    cases hmsg
  | sendFail j bytes hphase hbytes => exact absurd he hbytes
  | _ => grind

/-- A returned call has left nothing behind. -/
theorem leavesNothing (ho : s.Orderly) (hs : s.Held) {j : ℕ} {o : CallOutcome}
    (hret : (s.calls j).phase = .returned o) : s.LeavesNothing j where
  messages h id hm := by
    have hpends := (ho.pending h id j hm).1
    rw [hret] at hpends
    cases hpends
  mutex := by
    cases hmutex : (s.calls j).request.mutex with
    | none => rfl
    | some owner =>
      cases owner with
      | caller => exact absurd hmutex (ho.released j o hret)
      | listener =>
        obtain ⟨k, hworks⟩ := ListenerPhase.works_of_locks (hs.listenerHolds j hmutex).2
        have hpends := (ho.pending _ _ j (hs.works _ k j hworks).2).1
        rw [hret] at hpends
        cases hpends
  listener h k hworks := by
    have hpends := (ho.pending h _ j (hs.works h k j hworks).2).1
    rw [hret] at hpends
    cases hpends

end Orderly

/-- Nothing is pending before the first call. -/
theorem orderly_initial : initial.Orderly := by
  constructor <;> simp [initial]

/-- Both invariants hold in every run whose steps do no harm. -/
theorem HarmlessRun.invariant (h : HarmlessRun initial s) : s.Held ∧ s.Orderly := by
  induction h with
  | refl => exact ⟨held_initial, orderly_initial⟩
  | tail _ hstep ih =>
    obtain ⟨hs, ho⟩ := ih
    obtain ⟨e, hstep, he⟩ := hstep
    exact ⟨hs.step hstep, ho.pending_step hs hstep he, ho.released_step hs hstep he⟩

/-- No step reaches a call that has returned and left nothing behind. -/
theorem LeavesNothing.step {j : ℕ} {o : CallOutcome} (hj : s.LeavesNothing j)
    (hret : (s.calls j).phase = .returned o) {e : ClientEvent} (h : ClientStep e s s') :
    s'.calls j = s.calls j ∧ s'.LeavesNothing j := by
  have hcalls : s'.calls j = s.calls j := by
    have hworks : ∀ i k, (s.connections i).listener ≠ .found k j ∧
        (s.connections i).listener ≠ .storing k j ∧ (s.connections i).listener ≠ .stored k j ∧
        (s.connections i).listener ≠ .signalled k j := by
      intro i k
      have hlistener := hj.listener i k
      grind
    cases h with
    | other hstep hphase => cases hstep <;> grind
    | _ => grind
  refine ⟨hcalls, ?_, hcalls ▸ hj.mutex, ?_⟩
  · intro i id
    have hmessages := hj.messages i id
    cases h with
    | other hstep hphase => cases hstep <;> grind [Option.or_eq_some_iff]
    | _ => grind
  · intro i k
    obtain ⟨hmessages, -, hlistener⟩ := hj
    cases h with
    | other hstep hphase => cases hstep <;> grind
    | _ => grind

/-- Nothing ever reaches a call that has returned and left nothing behind. -/
theorem LeavesNothing.leftAlone {j : ℕ} {o : CallOutcome} (hj : s.LeavesNothing j)
    (hret : (s.calls j).phase = .returned o) : s.LeftAlone j := by
  intro s' hrun
  induction hrun with
  | refl => exact ⟨rfl, hj⟩
  | tail _ hstep ih =>
    obtain ⟨e, hstep⟩ := hstep
    obtain ⟨hsame, hleaves⟩ := ih
    obtain ⟨hsame', hleaves'⟩ := hleaves.step (hsame ▸ hret) hstep
    exact ⟨hsame'.trans hsame, hleaves'⟩

/-- Steps that do no harm are steps. -/
theorem HarmlessRun.run (h : HarmlessRun s s') : Run s s' := by
  induction h with
  | refl => exact .refl
  | tail _ hstep ih =>
    obtain ⟨e, hstep, -⟩ := hstep
    exact ih.tail ⟨e, hstep⟩

/-! ### Ways back that leave something -/

/-- A call whose arguments do not match leaves the mutex of its request locked. -/
theorem leaves_of_mismatch {m : NymphMethod} {values : List NymphType}
    (h : ClientStep (.composing m values) s s') (hmismatch : ¬m.Accepts values) :
    ∃ j, (s'.calls j).phase = .returned .refused ∧
      (s'.calls j).request.mutex = some .caller := by
  cases h with
  | compose j m isCallback um values e byId exception heap msg sent hphase hcounter hmsg =>
    exact absurd (NymphMethod.composeMessage_ok_iff.mp ⟨msg, hmsg⟩) hmismatch
  | mismatch j => exact ⟨j, by simp, by simp⟩

/-- A call whose bytes are not all sent leaves the mutex of its request locked. -/
theorem leaves_of_sendFail {bytes : Sending} (hrun : Run initial s)
    (h : ClientStep (.sending bytes) s s') (hbytes : bytes ≠ .whole) :
    ∃ j, (s'.calls j).phase = .returned .sendFailed ∧
      (s'.calls j).request.mutex = some .caller := by
  cases h with
  | send => exact absurd rfl hbytes
  | sendFail j _ hphase =>
    have hmutex := hrun.held.caller j (by rw [hphase]; rfl)
    exact ⟨j, by simp, by simpa using hmutex⟩

/-- A request that is pending on a removed connection stays with it. -/
theorem leaves_of_removal {h j : ℕ} {id : UInt64}
    (hm : (s.connections h).messages.find? id = some j)
    (hrun : Relation.ReflTransGen
      (fun t t' => (∃ e, ClientStep e t t') ∧ (t.connections h).listed = false) s s') :
    (s'.connections h).messages.find? id = some j := by
  induction hrun with
  | refl => exact hm
  | tail _ hstep ih =>
    obtain ⟨⟨e, hstep⟩, hlisted⟩ := hstep
    cases hstep with
    | other hstep hphase => cases hstep <;> grind
    | _ => grind

/-- A step that does no harm goes on with the run. -/
theorem HarmlessRun.step {e : ClientEvent} (hrun : HarmlessRun initial s) (h : ClientStep e s s')
    (he : e.Harmless s) : HarmlessRun initial s' :=
  hrun.tail ⟨e, h, he⟩

/-- A step of one call that neither composes nor sends does no harm. -/
theorem HarmlessRun.other (hrun : HarmlessRun initial s) (h : CallStep s s') (i : ℕ)
    (hi : (s.calls i).phase ≠ .checking ∧ (s.calls i).phase ≠ .added)
    (hothers : ∀ j, j ≠ i → s'.calls j = s.calls j) : HarmlessRun initial s' := by
  refine hrun.step (.other h ?_) trivial
  intro j hj
  obtain rfl | hne := eq_or_ne j i
  · exact absurd hj (not_or.mpr hi)
  · rw [hothers j hne]

/-- A call can get to where it composes its message. -/
theorem harmlessRun_checking : ∃ s, HarmlessRun initial s ∧ (s.calls 0).phase = .checking ∧
    (s.calls 0).handle = 0 ∧ s.messageId = 1 ∧ (s.connections 0).listed = true ∧
    (s.connections 0).messagesMutex = false := by
  have hlisted : HarmlessRun initial _ := .single ⟨_, .other (.addConnection 0) (by simp), trivial⟩
  have hentered := hlisted.other (.enter 0 0 true rfl nofun) 0 (by simp [initial])
    (by simp +contextual)
  have hchecking := hentered.other (.lockMethods 0 rfl rfl) 0 (by simp) (by simp +contextual)
  exact ⟨_, hchecking, rfl, rfl, rfl, rfl, rfl⟩

end Calls

/-- A call leaves nothing behind. In every run in which the arguments of each call match its
method, all bytes of each request are sent, and no connection is removed while a request is
pending on it, a call that has returned, whatever it returns, has no request with any listener
and no mutex locked, and nothing that happens later reaches it. -/
theorem returned_leftAlone {s : Calls} (hs : HarmlessRun initial s) {j : ℕ} {o : CallOutcome}
    (hret : (s.calls j).phase = .returned o) : s.LeftAlone j := by
  obtain ⟨hheld, horderly⟩ := hs.invariant
  exact (horderly.leavesNothing hheld hret).leftAlone hret

/-- A call that times out leaves nothing behind. -/
theorem returned_leftAlone_timedOut : ∃ s : Calls, HarmlessRun initial s ∧
    (s.calls 0).phase = .returned .timedOut ∧ s.LeftAlone 0 := by
  have haccepts : NymphServerInstance.silent.Accepts [] := ⟨rfl, by simp⟩
  obtain ⟨msg, hmsg⟩ : ∃ msg, NymphServerInstance.silent.composeMessage false ⟨0, 0⟩ [] = .ok msg :=
    NymphMethod.composeMessage_ok_iff.mpr haccepts
  obtain ⟨s, hrun, hphase, hhandle, hid, hlisted, hfree⟩ := harmlessRun_checking
  obtain ⟨sent, hsent⟩ := NymphMethod.serialize_of_composeMessage hmsg (.ofNat s.messageId)
    fun _ => 0
  have hcomposed := hrun.step (.compose 0 _ _ _ _ ⟨0, []⟩ false false _ msg sent hphase
    (by rw [hid]; decide) hmsg hsent fun _ => rfl) haccepts
  have hadded := hcomposed.other (.addMessage 0 (by simp) (by simpa [hhandle] using hfree)) 0
    (by simp) (by simp +contextual)
  have hsent := hadded.step (.send 0 (by simp)) rfl
  have hwaiting := hsent.other (.wait 0 (by simp)) 0 (by simp) (by simp +contextual)
  have hwaking := hwaiting.other (.timeOut 0 (by simp)) 0 (by simp) (by simp +contextual)
  have hwoken := hwaking.other (.wake 0 false (by simp) (by simp)) 0 (by simp)
    (by simp +contextual)
  have hremoving := hwoken.other (.unlock 0 false (by simp)) 0 (by simp) (by simp +contextual)
  have hreturning := hremoving.other (.removeMessage 0 false (by simp)
    (by simpa [hhandle, hlisted] using hfree)) 0 (by simp) (by simp +contextual)
  have hreturned := hreturning.other (.comeBack 0 false (by simp)) 0 (by simp)
    (by simp +contextual)
  exact ⟨_, hreturned, by simp [NymphRequest.result],
    returned_leftAlone (o := .timedOut) hreturned (by simp [NymphRequest.result])⟩

/-- A call without the argument that its method has leaves its mutex locked. -/
theorem not_returned_leftAlone : ¬∀ (s : Calls) (j : ℕ) (o : CallOutcome), Run initial s →
    (s.calls j).phase = .returned o → s.LeftAlone j := by
  intro h
  let m : NymphMethod := .make [0x61] [.bool] .null NymphServerInstance.dummyCallback
  have hmismatch : NymphMethod.intSize 0 ≠ NymphMethod.intSize 1 := by
    rw [NymphMethod.intSize_eq (by omega), NymphMethod.intSize_eq (by omega)]
    decide
  obtain ⟨s, hrun, hphase, -⟩ := harmlessRun_checking
  have hreturned := hrun.run.tail ⟨_, .mismatch 0 m false ⟨0, 0⟩ [] _ ⟨0, []⟩ 0 false false hphase
    (if_pos hmismatch) fun _ => rfl⟩
  obtain ⟨-, hleaves⟩ := h _ 0 .refused hreturned (by simp) _ .refl
  simpa using hleaves.mutex

end NymphRpc
