import NymphRpc.Client.CallMethod

/-!
# What a step of the client can do

How far a call has come matters in four ways only: whether its request has an ID, whether the
call holds the mutex of the request, and whether its wait was ended by the signal or by the
time-out. Likewise for a listener. In these terms each lemma says all that any step can do to
one part of the state, so that few proofs after this module look at the single steps again. A
step that deletes a message says nothing of its destructor, which may be entered twice.
-/

namespace NymphRpc

namespace CallPhase

/-- The request exists and has its message ID. -/
@[grind] def identified : CallPhase → Bool
  | ready | entered | checking | returned .refused => false
  | serialized | added | sent | waiting | waking _ | woken _ | removing _ | returning _ => true
  | returned .sendFailed | returned .timedOut => true
  | returned (.exception _) | returned (.value _) => true

/-- The call holds the mutex of its request. -/
@[grind] def locks : CallPhase → Bool
  | serialized | added | sent | woken _ | returned .sendFailed => true
  | ready | entered | checking | waiting | waking _ | removing _ | returning _ => false
  | returned .refused | returned .timedOut | returned (.exception _) | returned (.value _) => false

/-- The wait was ended by the signal. -/
@[grind] def signalled : CallPhase → Bool
  | waking b | woken b | removing b | returning b => b
  | returned (.exception _) | returned (.value _) => true
  | ready | entered | checking | serialized | added | sent | waiting => false
  | returned .refused | returned .sendFailed | returned .timedOut => false

/-- The wait was ended by the time-out. -/
@[grind] def timedOut : CallPhase → Bool
  | waking b | woken b | removing b | returning b => !b
  | returned .timedOut => true
  | ready | entered | checking | serialized | added | sent | waiting => false
  | returned .refused | returned .sendFailed => false
  | returned (.exception _) | returned (.value _) => false

/-- A signalled call has a request. -/
theorem identified_of_signalled {phase : CallPhase} (h : phase.signalled) : phase.identified := by
  grind [cases CallPhase, cases CallOutcome]

/-- A call that has a request, does not hold its mutex and whose wait has not ended waits. -/
theorem eq_waiting {phase : CallPhase} (hidentified : phase.identified) (hlocks : ¬phase.locks)
    (hsignalled : ¬phase.signalled) (htimedOut : ¬phase.timedOut) : phase = .waiting := by
  grind [cases CallPhase, cases CallOutcome]

end CallPhase

namespace ListenerPhase

/-- The message and the call the listener works on. -/
@[grind] def works : ListenerPhase → Option (ℕ × ℕ)
  | found k j | storing k j | stored k j | signalled k j => some (k, j)
  | idle | leaving => none

/-- The message and the call whose request the listener has not stored it in yet. -/
@[grind] def pending : ListenerPhase → Option (ℕ × ℕ)
  | found k j | storing k j => some (k, j)
  | idle | stored _ _ | signalled _ _ | leaving => none

/-- The call whose request the listener holds the mutex of. -/
@[grind] def locks : ListenerPhase → Option ℕ
  | storing _ j | stored _ j | signalled _ j => some j
  | idle | found _ _ | leaving => none

end ListenerPhase

section

variable (r : NymphRequest) (b : Bool)

@[simp, grind =] theorem identified_result :
    (CallPhase.returned (r.result b)).identified = true := by
  cases b <;> cases hr : r.exception <;>
    simp [NymphRequest.result, NymphRequest.outcome, hr, CallPhase.identified]

@[simp, grind =] theorem locks_result : (CallPhase.returned (r.result b)).locks = false := by
  cases b <;> cases hr : r.exception <;>
    simp [NymphRequest.result, NymphRequest.outcome, hr, CallPhase.locks]

@[simp, grind =] theorem signalled_result : (CallPhase.returned (r.result b)).signalled = b := by
  cases b <;> cases hr : r.exception <;>
    simp [NymphRequest.result, NymphRequest.outcome, hr, CallPhase.signalled]

@[simp, grind =] theorem timedOut_result : (CallPhase.returned (r.result b)).timedOut = !b := by
  cases b <;> cases hr : r.exception <;>
    simp [NymphRequest.result, NymphRequest.outcome, hr, CallPhase.timedOut]

@[simp, grind =] theorem mutex_prepare (e : NymphException) (handle : ℕ) (messageId : UInt64) :
    (NymphRequest.prepare e handle messageId).mutex = some .caller := rfl

variable (k : ℕ) (m : NymphMessage)

@[simp, grind =] theorem messageId_store : (r.store k m).messageId = r.messageId := by
  unfold NymphRequest.store
  split_ifs <;> rfl

@[simp, grind =] theorem mutex_store : (r.store k m).mutex = r.mutex := by
  unfold NymphRequest.store
  split_ifs <;> rfl

end

/-- A message that is not stored yet is worked on. -/
theorem ListenerPhase.works_of_pending {phase : ListenerPhase} {x : ℕ × ℕ}
    (h : phase.pending = some x) : phase.works = some x := by
  cases phase <;> grind

/-- A listener works on the call whose request it holds the mutex of. -/
theorem ListenerPhase.works_of_locks {phase : ListenerPhase} {j : ℕ} (h : phase.locks = some j) :
    ∃ k, phase.works = some (k, j) := by
  cases phase with
  | storing k _ | stored k _ | signalled k _ => exact ⟨k, by grind⟩
  | idle | found _ _ | leaving => cases h

namespace Calls

variable {s s' : Calls}

/-- The counter only grows. -/
theorem messageId_step (h : CallStep s s') :
    s.messageId ≤ s'.messageId ∧ (s.messageId < 2 ^ 63 → s'.messageId < 2 ^ 63) := by
  cases h <;> grind

/-- A request that keeps its connection and its message ID. -/
structure Keeps (s s' : Calls) (j : ℕ) : Prop where
  before : (s.calls j).phase.identified
  after : (s'.calls j).phase.identified
  handle : (s'.calls j).handle = (s.calls j).handle
  message : (s'.calls j).message = (s.calls j).message
  messageId : (s'.calls j).request.messageId = (s.calls j).request.messageId

/-- A new request, which takes its message ID from the counter. -/
structure Takes (s s' : Calls) (j : ℕ) : Prop where
  before : (s.calls j).phase.identified = false
  after : (s'.calls j).phase = .serialized
  message : ∃ sent, (s'.calls j).message = some sent ∧ sent.messageId = .ofNat s.messageId
  request : ∃ e, (s'.calls j).request = .prepare e (s.calls j).handle (.ofNat s.messageId)
  counter : s'.messageId = s.messageId + 1
  others : ∀ i, i ≠ j → s'.calls i = s.calls i
  handle : (s'.calls j).handle = (s.calls j).handle
  requested : .ofNat s.messageId ∈ (s'.connections (s.calls j).handle).requested
  replied : ∀ i, (s'.connections i).replied = (s.connections i).replied

/-- A request keeps its connection and its message ID. -/
theorem keeps_step (h : CallStep s s') {j : ℕ} (hj : (s.calls j).phase.identified) :
    Keeps s s' j := by
  cases h <;> constructor <;> grind

/-- A new request takes its message ID from the counter, and nothing is stored in it. -/
theorem takes_step (h : CallStep s s') {j : ℕ} (hj : (s.calls j).phase.identified = false)
    (hj' : (s'.calls j).phase.identified) : Takes s s' j := by
  cases h <;> constructor <;> grind

/-- A call with a request had it before, or has just made it. -/
theorem keeps_or_takes (h : CallStep s s') {j : ℕ} (hj' : (s'.calls j).phase.identified) :
    Keeps s s' j ∨ Takes s s' j := by
  cases hj : (s.calls j).phase.identified with
  | true => exact .inl (keeps_step h hj)
  | false => exact .inr (takes_step h hj hj')

/-- Only a listener stores in a request. -/
theorem request_step (h : CallStep s s') {j : ℕ} (hj : (s.calls j).phase.identified) :
    ((s'.calls j).request.response = (s.calls j).request.response ∧
      (s'.calls j).request.exception = (s.calls j).request.exception ∧
      (s'.calls j).request.exceptionData = (s.calls j).request.exceptionData) ∨
    ∃ h k m, (s.connections h).listener = .storing k j ∧ s.received[k]? = some (h, m) ∧
      s'.calls j = { s.calls j with request := (s.calls j).request.store k m } ∧
      (s'.connections h).listener = .stored k j := by
  cases h <;> grind

/-- Only a listener that has stored its message signals, and only a waiting call. -/
theorem signalled_step (h : CallStep s s') {j : ℕ} (hj : (s'.calls j).phase.signalled) :
    (s.calls j).phase.signalled ∨ (s.calls j).phase = .waiting ∧
      ∃ h k, (s.connections h).listener = .stored k j ∧
        (s'.connections h).listener = .signalled k j ∧
        (s'.calls j).phase = .waking true ∧ (s'.calls j).request = (s.calls j).request := by
  cases h <;> grind

/-- The signal wakes the call if it waits. -/
theorem signal_step (h : CallStep s s') {i k j : ℕ}
    (hphase : (s.connections i).listener = .stored k j)
    (hphase' : (s'.connections i).listener = .signalled k j)
    (hwaiting : (s.calls j).phase = .waiting) :
    (s'.calls j).phase = .waking true ∧ (s'.calls j).request = (s.calls j).request := by
  cases h <;> grind

/-- A wait ends once. -/
theorem ended_step (h : CallStep s s') (j : ℕ) :
    ((s.calls j).phase.signalled → (s'.calls j).phase.signalled) ∧
      ((s.calls j).phase.timedOut → (s'.calls j).phase.timedOut) := by
  cases h <;> grind

/-- A signalled call returns what its request holds. -/
theorem returned_step (h : CallStep s s') {j : ℕ} (hj : (s.calls j).phase.signalled)
    {outcome : CallOutcome} (hret : (s'.calls j).phase = .returned outcome) :
    (s.calls j).phase = .returned outcome ∨
      outcome = (s.calls j).request.outcome ∧ (s'.calls j).request = (s.calls j).request := by
  cases h <;> grind [NymphRequest.result]

/-- Messages keep their positions. -/
theorem received_step (h : CallStep s s') {k : ℕ} {x : ℕ × NymphMessage}
    (hk : s.received[k]? = some x) : s'.received[k]? = some x := by
  cases h <;> grind

/-- A listener starts to work on a message that it looks up. -/
theorem works_step (h : CallStep s s') {i k j : ℕ}
    (hw : (s'.connections i).listener.works = some (k, j)) :
    (s.connections i).listener.works = some (k, j) ∨
      ∃ m, Decoded m ∧ m.corrupt = false ∧ m.isCallback = false ∧
        s'.received[k]? = some (i, m) ∧ m.responseId ∉ (s.connections i).replied ∧
        (s.connections i).messages.find? m.responseId = some j ∧ s'.calls = s.calls ∧
        (m.responseId ∈ (s.connections i).requested →
          m.responseId ∈ (s'.connections i).replied) := by
  cases h <;> grind

/-- Until a message is stored its listener works on it. -/
theorem pending_step (h : CallStep s s') {i k j : ℕ}
    (hw : (s'.connections i).listener.pending = some (k, j)) :
    (s.connections i).listener.pending = some (k, j) ∨ (s.connections i).listener.works = none := by
  cases h <;> grind

/-- Before the signal the message is stored. -/
theorem stored_step (h : CallStep s s') {i k j : ℕ}
    (hw : (s'.connections i).listener = .stored k j) :
    (s.connections i).listener = .stored k j ∨
      (s.connections i).listener = .storing k j ∧
        ∃ m, s.received[k]? = some (i, m) ∧
          s'.calls j = { s.calls j with request := (s.calls j).request.store k m } := by
  cases h <;> grind

/-- Only the request of a call is added to the pending messages of its connection. -/
theorem messages_step (h : CallStep s s') {i j : ℕ} {id : UInt64}
    (hm : (s'.connections i).messages.find? id = some j) :
    (s.connections i).messages.find? id = some j ∨ (s.calls j).phase = .serialized ∧
      (s.calls j).handle = i ∧ (s.calls j).request.messageId = id := by
  cases h <;> grind [Option.or_eq_some_iff]

/-- An ID stays requested, and is requested when it is taken. -/
theorem requested_step (h : CallStep s s') (i : ℕ) (id : UInt64) :
    (id ∈ (s.connections i).requested → id ∈ (s'.connections i).requested) ∧
      (id ∈ (s'.connections i).requested → id ∈ (s.connections i).requested ∨
        id = .ofNat s.messageId ∧ s'.messageId = s.messageId + 1) := by
  cases h <;> grind

/-- An ID stays replied to, and only a requested one is replied to. -/
theorem replied_step (h : CallStep s s') (i : ℕ) (id : UInt64) :
    (id ∈ (s.connections i).replied → id ∈ (s'.connections i).replied) ∧
      (id ∈ (s'.connections i).replied → id ∈ (s.connections i).replied ∨
        id ∈ (s.connections i).requested) := by
  cases h <;> grind

/-- If the pending entries belong to the requests with their IDs, they do so after a step. -/
theorem entries_step (h : CallStep s s')
    (hmessages : ∀ i id j, (s.connections i).messages.find? id = some j →
      (s.calls j).phase.identified ∧ (s.calls j).handle = i ∧ (s.calls j).request.messageId = id)
    (i : ℕ) (id : UInt64) (j : ℕ) (hm : (s'.connections i).messages.find? id = some j) :
    (s'.calls j).phase.identified ∧ (s'.calls j).handle = i ∧
      (s'.calls j).request.messageId = id := by
  obtain ⟨hj, hhandle, hid⟩ : (s.calls j).phase.identified ∧ (s.calls j).handle = i ∧
      (s.calls j).request.messageId = id := by
    rcases messages_step h hm with hmem | ⟨hphase, hhandle, hid⟩
    · exact hmessages i id j hmem
    · exact ⟨by rw [hphase]; rfl, hhandle, hid⟩
  have hkeeps := keeps_step h hj
  exact ⟨hkeeps.after, hkeeps.handle.trans hhandle, hkeeps.messageId.trans hid⟩

/-- Calls that lock a mutex go on holding it, as long as the listeners hold those they lock. -/
theorem callerLocks_step (h : CallStep s s')
    (hcaller : ∀ j, (s.calls j).phase.locks → (s.calls j).request.mutex = some .caller)
    (hlistener : ∀ i j, (s.connections i).listener.locks = some j →
      (s.calls j).request.mutex = some .listener) (j : ℕ) (hj : (s'.calls j).phase.locks) :
    (s'.calls j).request.mutex = some .caller := by
  cases h <;> grind

/-- Likewise for the listeners, each of which works on calls of its own connection. -/
theorem listenerLocks_step (h : CallStep s s')
    (hcaller : ∀ j, (s.calls j).phase.locks → (s.calls j).request.mutex = some .caller)
    (hlistener : ∀ i j, (s.connections i).listener.locks = some j →
      (s.calls j).request.mutex = some .listener)
    (hlocks : ∀ i j, (s.connections i).listener.locks = some j →
      (s.calls j).phase.identified ∧ (s.calls j).handle = i) (i j : ℕ)
    (hj : (s'.connections i).listener.locks = some j) :
    (s'.calls j).request.mutex = some .listener := by
  cases h <;> grind

end Calls
end NymphRpc
