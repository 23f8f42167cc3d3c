import Mathlib.Algebra.Order.Group.Nat
import Mathlib.Data.Finset.Insert
import Mathlib.Logic.Function.Basic
import NymphRpc.Base.OrderedMap
import NymphRpc.Message.Destruction
import NymphRpc.Message.Repetition
import NymphRpc.Server.Dispatch

/-!
# The session table

Any number of sessions run `NymphSession::run`. Each enters the table before its loop and leaves
it in a statement behind the loop, and `callMethodCallback` gives `methodsMutex` back in a
statement behind the call of the handler; an exception passes both. What a session receives is
arbitrary here, and so is what a handler does; only `sendBytes` is called where its exceptions are
caught.

A fault in one session is the end of the whole server: the buffer of a peer that closes within a
body is decoded after it was freed, the decoder reads outside its buffer, `delete msg` destroys a
corrupt message twice, a method without a return type has no result to compare, or a response is
larger than its buffer. A run goes no further than its first fault.
-/

namespace NymphRpc

open NymphMessage

/-- Where the exception came from that ended a session. -/
inductive Thrown
  | poll
  | receiveBytes
  | badAlloc
  | lengthError
  | handler

/-- What a session did behind which nothing is defined. -/
inductive ServerFault
  | freedBuffer
  | outOfBounds
  | destroyedTwice
  | call (fault : CallFault)
  | overrun

/-- How a session ends other than behind its loop. -/
inductive SessionFailure
  | exception (thrown : Thrown)
  | fault (fault : ServerFault)

/-- How far a session has come. -/
inductive SessionPhase
  | notStarted
  | numbered
  | looping
  /-- A header was received, and its length is to be allocated and received. -/
  | receiving (length : UInt32)
  | received (body : Bytes)
  /-- The message waits for `methodsMutex`. -/
  | dispatching (msg : NymphMessage)
  | calling (msg : NymphMessage) (m : NymphMethod)
  | responding (response : NymphMessage)
  | leaving
  | returned
  | unwound (thrown : Thrown)
  | faulted (fault : ServerFault)

/-- A session, and the thread of the server that runs it. -/
structure SessionThread where
  worker : ℕ
  handle : ℕ
  phase : SessionPhase

/-- The sessions and what they share. -/
structure Sessions where
  threads : ℕ → SessionThread
  sessions : OrderedMap.Map ℕ ℕ
  lastSessionHandle : ℕ
  /-- The sessions it is locked for: it is recursive, so a thread can lock it for a session while
  it has it locked for an earlier one. -/
  methodsMutex : Finset ℕ
  running : Bool

namespace SessionPhase

/-- The session has a handle. -/
@[grind] def started : SessionPhase → Bool
  | notStarted => false
  | numbered | looping | receiving _ | received _ | dispatching _ | calling _ _ => true
  | responding _ | leaving | returned | unwound _ | faulted _ => true

/-- The session has entered the table and not left it. -/
@[grind] def entered : SessionPhase → Bool
  | notStarted | numbered | returned => false
  | looping | receiving _ | received _ | dispatching _ | calling _ _ | responding _ => true
  | leaving | unwound _ | faulted _ => true

/-- `run` has returned or unwound. -/
@[grind] def ended : SessionPhase → Bool
  | returned | unwound _ => true
  | notStarted | numbered | looping | receiving _ | received _ | dispatching _ => false
  | calling _ _ | responding _ | leaving | faulted _ => false

/-- The session was calling a handler when it last looked. -/
@[grind] def locks : SessionPhase → Bool
  | calling _ _ | unwound .handler | faulted (.call _) => true
  | notStarted | numbered | looping | receiving _ | received _ | dispatching _ => false
  | responding _ | leaving | returned => false
  | unwound .poll | unwound .receiveBytes | unwound .badAlloc | unwound .lengthError => false
  | faulted .freedBuffer | faulted .outOfBounds | faulted .destroyedTwice => false
  | faulted .overrun => false

/-- How the session has failed. -/
@[grind] def failure : SessionPhase → Option SessionFailure
  | unwound thrown => some (.exception thrown)
  | faulted fault => some (.fault fault)
  | notStarted | numbered | looping | receiving _ | received _ | dispatching _ => none
  | calling _ _ | responding _ | leaving | returned => none

end SessionPhase

namespace Sessions

/-- A server that was just started. -/
def initial : Sessions where
  threads _ := ⟨0, 0, .notStarted⟩
  sessions := .empty
  lastSessionHandle := 0
  methodsMutex := ∅
  running := true

/-- The session goes on to a phase. -/
def goTo (s : Sessions) (i : ℕ) (phase : SessionPhase) : Sessions :=
  { s with threads := Function.update s.threads i { s.threads i with phase := phase } }

/-- `methodsMutex` can be locked for the session. -/
def CanLock (s : Sessions) (i : ℕ) : Prop :=
  ∀ j ∈ s.methodsMutex, (s.threads j).worker = (s.threads i).worker

section

variable (s : Sessions) (i : ℕ) (phase : SessionPhase)

@[simp, grind =] theorem threads_goTo (j : ℕ) : (s.goTo i phase).threads j =
    if j = i then { s.threads i with phase := phase } else s.threads j := by
  simp only [goTo, Function.update_apply]

@[simp, grind =] theorem sessions_goTo : (s.goTo i phase).sessions = s.sessions := rfl

@[simp, grind =] theorem lastSessionHandle_goTo :
    (s.goTo i phase).lastSessionHandle = s.lastSessionHandle := rfl

@[simp, grind =] theorem methodsMutex_goTo : (s.goTo i phase).methodsMutex = s.methodsMutex := rfl

@[simp, grind =] theorem running_goTo : (s.goTo i phase).running = s.running := rfl

end

end Sessions

open Sessions

/-- Nothing that a handler answers with is a value of a message that was received: a message takes
ownership of its values. -/
def NymphMessage.Own (response : NymphMessage) : Prop :=
  (∀ t ∈ response.values, t.Unlinked) ∧ ∀ t ∈ response.response, t.Unlinked

/-- The steps of the sessions, each with the exception it lets out of `run` or its fault. -/
inductive SessionStep : Option SessionFailure → Sessions → Sessions → Prop
  /-- The section of `handleMutex`. The counter is signed, and beyond its range nothing is
  defined. -/
  | start {s : Sessions} (i worker : ℕ) (hi : (s.threads i).phase = .notStarted)
      (hworker : ∀ j, (s.threads j).phase.started = true → (s.threads j).worker = worker →
        (s.threads j).phase.ended = true)
      (hcounter : s.lastSessionHandle + 1 < 2 ^ 31) :
      SessionStep none s { s with
        threads := Function.update s.threads i ⟨worker, s.lastSessionHandle, .numbered⟩
        lastSessionHandle := s.lastSessionHandle + 1 }
  /-- The section of `sessionsMutex`. -/
  | addSession {s : Sessions} (i : ℕ) (hi : (s.threads i).phase = .numbered) :
      SessionStep none s { s.goTo i .looping with
        sessions := s.sessions.insert (s.threads i).handle i }
  | pollThrows {s : Sessions} (i : ℕ) (hi : (s.threads i).phase = .looping ∨
      ∃ length, (s.threads i).phase = .receiving length) :
      SessionStep (some (.exception .poll)) s (s.goTo i (.unwound .poll))
  /-- The header, or part of the body, is not received. -/
  | receiveThrows {s : Sessions} (i : ℕ) (hi : (s.threads i).phase = .looping ∨
      ∃ length, (s.threads i).phase = .receiving length) :
      SessionStep (some (.exception .receiveBytes)) s (s.goTo i (.unwound .receiveBytes))
  | peerCloses {s : Sessions} (i : ℕ) (hi : (s.threads i).phase = .looping) :
      SessionStep none s (s.goTo i .leaving)
  | serverStops {s : Sessions} (i : ℕ) (hi : (s.threads i).phase = .looping)
      (hrunning : s.running = false) : SessionStep none s (s.goTo i .leaving)
  | receiveHeader {s : Sessions} (i : ℕ) (length : UInt32) (hi : (s.threads i).phase = .looping) :
      SessionStep none s (s.goTo i (.receiving length))
  /-- The buffer, what the decoder makes or the buffer of the response cannot be allocated. -/
  | badAlloc {s : Sessions} (i : ℕ) (hi : (∃ length, (s.threads i).phase = .receiving length) ∨
      (∃ body, (s.threads i).phase = .received body) ∨
      ∃ response, (s.threads i).phase = .responding response) :
      SessionStep (some (.exception .badAlloc)) s (s.goTo i (.unwound .badAlloc))
  | receiveBody {s : Sessions} (i : ℕ) (length : UInt32) (body : Bytes)
      (hi : (s.threads i).phase = .receiving length) (hbody : body.length = length.toNat) :
      SessionStep none s (s.goTo i (.received body))
  /-- The peer closes within the body, and the freed buffer is decoded. -/
  | closesWithin {s : Sessions} (i : ℕ) (length : UInt32)
      (hi : (s.threads i).phase = .receiving length) :
      SessionStep (some (.fault .freedBuffer)) s (s.goTo i (.faulted .freedBuffer))
  | readsOutside {s : Sessions} (i : ℕ) (body : Bytes) (hi : (s.threads i).phase = .received body)
      (hdecode : ∃ u um fuel p, (decode u um fuel body).result = .error (.outOfBounds p)) :
      SessionStep (some (.fault .outOfBounds)) s (s.goTo i (.faulted .outOfBounds))
  /-- An array has more elements than a vector can hold. -/
  | lengthError {s : Sessions} (i : ℕ) (body : Bytes) (hi : (s.threads i).phase = .received body)
      (hdecode : ∃ u um fuel, (decode u um fuel body).result = .error .lengthError) :
      SessionStep (some (.exception .lengthError)) s (s.goTo i (.unwound .lengthError))
  /-- The message is corrupt, or its state is not good. -/
  | discard {s : Sessions} (i : ℕ) (body : Bytes) (msg : NymphMessage)
      (hi : (s.threads i).phase = .received body)
      (hdecode : ∃ u um fuel, (decode u um fuel body).result = .ok msg)
      (hmsg : msg.corrupt = true ∨ msg.state ≠ 0) (hdelete : DestroyedOnce msg .delete) :
      SessionStep none s (s.goTo i .looping)
  /-- It holds a string, an array or a struct that brings its reference count to zero while it is
  destroyed. -/
  | deletesTwice {s : Sessions} (i : ℕ) (body : Bytes) (msg : NymphMessage)
      (hi : (s.threads i).phase = .received body)
      (hdecode : ∃ u um fuel, (decode u um fuel body).result = .ok msg)
      (hmsg : msg.corrupt = true ∨ msg.state ≠ 0) (hdelete : ¬DestroyedOnce msg .delete) :
      SessionStep (some (.fault .destroyedTwice)) s (s.goTo i (.faulted .destroyedTwice))
  | accept {s : Sessions} (i : ℕ) (body : Bytes) (msg : NymphMessage)
      (hi : (s.threads i).phase = .received body)
      (hdecode : ∃ u um fuel, (decode u um fuel body).result = .ok msg)
      (hmsg : msg.corrupt = false ∧ msg.state = 0) :
      SessionStep none s (s.goTo i (.dispatching msg))
  /-- The method ID is not found, and `methodsMutex` given back. -/
  | notFound {s : Sessions} (i : ℕ) (msg : NymphMessage)
      (hi : (s.threads i).phase = .dispatching msg) (hfree : s.CanLock i) :
      SessionStep none s (s.goTo i .looping)
  | callHandler {s : Sessions} (i : ℕ) (msg : NymphMessage) (m : NymphMethod)
      (hi : (s.threads i).phase = .dispatching msg) (hfree : s.CanLock i) :
      SessionStep none s { s.goTo i (.calling msg m) with
        methodsMutex := insert i s.methodsMutex }
  /-- The lock is not a guard, and stays locked. -/
  | handlerThrows {s : Sessions} (i : ℕ) (msg : NymphMessage) (m : NymphMethod)
      (hi : (s.threads i).phase = .calling msg m) :
      SessionStep (some (.exception .handler)) s (s.goTo i (.unwound .handler))
  /-- There is no response to look at, or no result where none is declared. -/
  | handlerFaults {s : Sessions} (i : ℕ) (msg : NymphMessage) (m : NymphMethod)
      (callback : NymphMethodCallback → Except CallFault NymphMessage) (fault : CallFault)
      (hi : (s.threads i).phase = .calling msg m)
      (hcalled : m.callCallback callback = .error fault) :
      SessionStep (some (.fault (.call fault))) s (s.goTo i (.faulted (.call fault)))
  /-- The handler's response is not accepted. -/
  | handlerFails {s : Sessions} (i : ℕ) (msg : NymphMessage) (m : NymphMethod)
      (callback : NymphMethodCallback → Except CallFault NymphMessage)
      (hi : (s.threads i).phase = .calling msg m) (hcalled : m.callCallback callback = .ok none) :
      SessionStep none s { s.goTo i .looping with methodsMutex := s.methodsMutex.erase i }
  | handlerAnswers {s : Sessions} (i : ℕ) (msg : NymphMessage) (m : NymphMethod)
      (callback : NymphMethodCallback → Except CallFault NymphMessage) (response : NymphMessage)
      (hi : (s.threads i).phase = .calling msg m)
      (hcalled : m.callCallback callback = .ok (some response)) (hown : response.Own) :
      SessionStep none s { s.goTo i (.responding response) with
        methodsMutex := s.methodsMutex.erase i }
  /-- Whether the response is sent makes no difference, and its exceptions are caught. -/
  | send {s : Sessions} (i : ℕ) (response sent : NymphMessage) (freshId : UInt64)
      (heap : ℕ → UInt8) (hi : (s.threads i).phase = .responding response)
      (hsent : response.serializeInside freshId heap = some sent) :
      SessionStep none s (s.goTo i .looping)
  | overruns {s : Sessions} (i : ℕ) (response : NymphMessage) (freshId : UInt64)
      (heap : ℕ → UInt8) (hi : (s.threads i).phase = .responding response)
      (hsent : response.serializeInside freshId heap = none) :
      SessionStep (some (.fault .overrun)) s (s.goTo i (.faulted .overrun))
  /-- The section of `sessionsMutex`. -/
  | removeSession {s : Sessions} (i : ℕ) (hi : (s.threads i).phase = .leaving) :
      SessionStep none s { s.goTo i .returned with
        sessions := s.sessions.erase (s.threads i).handle }
  /-- `NymphServer::stop`. -/
  | stop {s : Sessions} : SessionStep none s { s with running := false }

namespace Sessions

/-- A run of the sessions, with the exceptions that left `run` on the way, the last one first; it
ends with a fault. -/
inductive Run : List SessionFailure → Sessions → Prop
  | initial : Run [] initial
  | step {failures : List SessionFailure} {failure : Option SessionFailure} {s s' : Sessions}
      (hrun : Run failures s) (hdefined : ∀ fault, .fault fault ∉ failures)
      (hstep : SessionStep failure s s') : Run (failure.toList ++ failures) s'

/-- The handle of the session is not in the table, and `methodsMutex` is not held for it. -/
structure Clean (s : Sessions) (i : ℕ) : Prop where
  sessions : s.sessions.find? (s.threads i).handle = none
  methodsMutex : i ∉ s.methodsMutex

/-- The server goes on, the table has live sessions only, and whoever has `methodsMutex` gives it
back. -/
structure Live (s : Sessions) : Prop where
  defined : ∀ i fault, (s.threads i).phase ≠ .faulted fault
  clean : ∀ i, (s.threads i).phase.ended = true → s.Clean i
  sessions : ∀ handle i, s.sessions.find? handle = some i → (s.threads i).phase.ended = false
  methodsMutex : ∀ i ∈ s.methodsMutex, ∃ msg m, (s.threads i).phase = .calling msg m

variable {s s' : Sessions} {failure : Option SessionFailure} {failures : List SessionFailure}
  {i : ℕ}

/-- The table and the lock, session by session. -/
structure Tabled (s : Sessions) : Prop where
  bounds : ∀ i, (s.threads i).phase.started = true → (s.threads i).handle < s.lastSessionHandle
  unique : ∀ i j, (s.threads i).phase.started = true → (s.threads j).phase.started = true →
    (s.threads i).handle = (s.threads j).handle → i = j
  sessions : ∀ handle i, s.sessions.find? handle = some i ↔
    (s.threads i).phase.entered = true ∧ (s.threads i).handle = handle
  methodsMutex : ∀ i, i ∈ s.methodsMutex ↔ (s.threads i).phase.locks = true

/-- A session in the table has a handle. -/
theorem started_of_entered {phase : SessionPhase} (h : phase.entered = true) :
    phase.started = true := by
  cases phase <;> first | rfl | cases h

/-- A session that goes on without the table and the lock. -/
theorem Tabled.goTo (hs : s.Tabled) {phase : SessionPhase}
    (hstarted : phase.started = (s.threads i).phase.started)
    (hentered : phase.entered = (s.threads i).phase.entered)
    (hlocks : phase.locks = (s.threads i).phase.locks) : (s.goTo i phase).Tabled := by
  obtain ⟨hbounds, hunique, hsessions, hmutex⟩ := hs
  constructor
  · grind
  · grind
  · intro handle j
    rw [sessions_goTo, hsessions, threads_goTo]
    split_ifs with hji
    · rw [hji, hentered]
    · rfl
  · intro j
    rw [methodsMutex_goTo, hmutex, threads_goTo]
    split_ifs with hji
    · rw [hji, hlocks]
    · rfl

/-- A session that has called the handler gives the lock back. -/
theorem Tabled.unlock (hs : s.Tabled) {msg : NymphMessage} {m : NymphMethod} {phase : SessionPhase}
    (hi : (s.threads i).phase = .calling msg m) (hentered : phase.entered = true)
    (hlocks : phase.locks = false) :
    Tabled { s.goTo i phase with methodsMutex := s.methodsMutex.erase i } := by
  obtain ⟨hbounds, hunique, hsessions, hmutex⟩ := hs
  constructor
  · grind
  · grind
  · intro handle j
    change s.sessions.find? handle = some j ↔ _
    rw [hsessions, threads_goTo]
    split_ifs with hji
    · rw [hji, hi, hentered]
      rfl
    · rfl
  · intro j
    rw [Finset.mem_erase, hmutex, threads_goTo]
    split_ifs with hji
    · simp [hji, hlocks]
    · simp [hji]

/-- A step of a session. -/
theorem Tabled.step (hs : s.Tabled) (h : SessionStep failure s s') : s'.Tabled := by
  cases h with
  | start i worker hi hworker hcounter =>
    obtain ⟨hbounds, hunique, hsessions, hmutex⟩ := hs
    constructor <;> grind [Function.update_apply]
  | addSession i hi =>
    obtain ⟨hbounds, hunique, hsessions, hmutex⟩ := hs
    have hstarted : ∀ i, (s.threads i).phase.entered = true →
        (s.threads i).phase.started = true := fun i => started_of_entered
    constructor <;> grind [Option.or_eq_some_iff]
  | callHandler i msg m hi hfree =>
    obtain ⟨hbounds, hunique, hsessions, hmutex⟩ := hs
    constructor <;> grind
  | handlerFails i msg m callback hi => exact hs.unlock hi rfl rfl
  | handlerAnswers i msg m callback response hi => exact hs.unlock hi rfl rfl
  | removeSession i hi =>
    obtain ⟨hbounds, hunique, hsessions, hmutex⟩ := hs
    have hstarted : ∀ i, (s.threads i).phase.entered = true →
        (s.threads i).phase.started = true := fun i => started_of_entered
    constructor <;> grind
  | stop => exact ⟨hs.bounds, hs.unique, hs.sessions, hs.methodsMutex⟩
  | _ i => apply hs.goTo <;> grind

/-- A run in which nothing has failed goes on. -/
theorem Run.next (hrun : Run [] s) (hstep : SessionStep failure s s') :
    Run failure.toList s' := by
  have hnext := hrun.step (fun _ => List.not_mem_nil) hstep
  rwa [List.append_nil] at hnext

/-- A message that ends behind its only parameter, the string "a". -/
def unterminated : Bytes := List.replicate 17 0x00 ++ [0x10, 0x04, 0x01, 0x61]

/-- The server does not go on when a session has received it. -/
theorem not_live_unterminated : ∃ s, Run [.fault .destroyedTwice] s ∧
    (s.threads 0).phase = .faulted .destroyedTwice ∧ ¬s.Live := by
  have hentered := (Run.initial.next (.start 0 0 rfl (fun _ h => by cases h) (by decide))).next
    (.addSession 0 rfl)
  have hreceived := (hentered.next (.receiveHeader 0 21 rfl)).next
    (.receiveBody 0 21 unterminated rfl rfl)
  obtain ⟨m, hm, hcorrupt, htwice⟩ : ∃ m,
      (decode (fun _ => ⟨0, 0⟩) ⟨0, 0⟩ 2 unterminated).result = .ok m ∧ m.corrupt = true ∧
        (Disposal.run 1 m .delete).count .message = 2 := ⟨_, rfl, rfl, by decide +kernel⟩
  have hdelete : ¬DestroyedOnce m .delete := by
    intro honce
    have hone := honce 1 .message
    omega
  have hfaulted := hreceived.next (.deletesTwice 0 _ m rfl
    ⟨fun _ => ⟨0, 0⟩, ⟨0, 0⟩, 2, hm⟩ (.inl hcorrupt) hdelete)
  exact ⟨_, hfaulted, rfl, fun h => h.defined 0 _ rfl⟩

end Sessions

end NymphRpc
