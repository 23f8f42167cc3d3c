import NymphRpc.Client.CallSteps
import NymphRpc.Message.Holdings

/-!
# Each call gets its own reply

The message ID ties a call to its request, the request to its entry in the pending messages, and
that to the message a listener looks up: no two requests have the same ID, since they are counted,
and a listener works on a call only over a message with the ID of its request. The network
delivers one message with that ID after the request has taken it, so a request is stored in once.
A caller holds the mutex of its request from before the request is added until it waits, and a
listener stores and signals under that mutex, so the signal cannot be lost unless the call has
timed out.
-/

namespace NymphRpc

open NymphMessage

/-- What a call returns if its request was given the message at a position. -/
def answer (k : ℕ) (m : NymphMessage) : CallOutcome :=
  if m.isReply then .value (m.response.map fun _ => k)
  else if m.isException then .exception m.exception
  else .value none

namespace NymphRequest

/-- Nothing was stored in the request yet. -/
def Blank (r : NymphRequest) : Prop := r.response = none ∧ r.exception = false

/-- A new request is blank. -/
theorem blank_prepare (e : NymphException) (handle : ℕ) (messageId : UInt64) :
    (prepare e handle messageId).Blank := ⟨rfl, rfl⟩

/-- What is stored first decides what the call returns. -/
theorem Blank.outcome_store {r : NymphRequest} (h : r.Blank) (k : ℕ) (m : NymphMessage) :
    (r.store k m).outcome = answer k m := by
  unfold store answer outcome
  split_ifs <;> simp_all [Blank]

end NymphRequest

namespace Calls

/-- The message at a position is one for the request of the call. -/
structure Answers (s : Calls) (j k : ℕ) (m : NymphMessage) : Prop where
  received : s.received[k]? = some ((s.calls j).handle, m)
  decoded : Decoded m
  intact : m.corrupt = false
  responseId : m.responseId = (s.calls j).request.messageId

/-- The call returns, or will return, what the message at a position brings. -/
def Answered (s : Calls) (j k : ℕ) : Prop :=
  ∃ m, s.Answers j k m ∧ (s.calls j).request.outcome = answer k m

/-- The invariant. -/
structure Matched (s : Calls) : Prop where
  counter : 1 ≤ s.messageId ∧ s.messageId < 2 ^ 63
  bounds : ∀ j, (s.calls j).phase.identified →
    1 ≤ (s.calls j).request.messageId.toNat ∧ (s.calls j).request.messageId.toNat < s.messageId
  unique : ∀ i j, (s.calls i).phase.identified → (s.calls j).phase.identified →
    (s.calls i).request.messageId = (s.calls j).request.messageId → i = j
  serialized : ∀ j, (s.calls j).phase.identified →
    ∃ sent, (s.calls j).message = some sent ∧ sent.messageId = (s.calls j).request.messageId
  requested : ∀ h, ∀ id ∈ (s.connections h).requested, id.toNat < s.messageId
  replied : ∀ h, ∀ id ∈ (s.connections h).replied, id ∈ (s.connections h).requested
  own : ∀ j, (s.calls j).phase.identified →
    (s.calls j).request.messageId ∈ (s.connections (s.calls j).handle).requested
  messages : ∀ h id j, (s.connections h).messages.find? id = some j →
    (s.calls j).phase.identified ∧ (s.calls j).handle = h ∧ (s.calls j).request.messageId = id
  works : ∀ h k j, (s.connections h).listener.works = some (k, j) →
    (s.calls j).phase.identified ∧ (s.calls j).handle = h ∧
      (s.calls j).request.messageId ∈ (s.connections h).replied ∧ ∃ m, s.Answers j k m
  blank : ∀ j, (s.calls j).phase.identified →
    ((s.calls j).request.messageId ∉ (s.connections (s.calls j).handle).replied ∨
      ∃ k, (s.connections (s.calls j).handle).listener.pending = some (k, j)) →
    (s.calls j).request.Blank ∧ (s.calls j).phase.signalled = false
  stored : ∀ h k j, (s.connections h).listener = .stored k j →
    (s.calls j).phase.signalled = false ∧ s.Answered j k
  signalled : ∀ j, (s.calls j).phase.signalled → ∃ k, s.Answered j k
  outcome : ∀ j o, (s.calls j).phase.signalled → (s.calls j).phase = .returned o →
    o = (s.calls j).request.outcome

variable {s s' : Calls}

/-- A message for a request stays one. -/
theorem Answers.keeps {j k : ℕ} {m : NymphMessage} (hm : s.Answers j k m) (hj : Keeps s s' j)
    (h : CallStep s s') : s'.Answers j k m :=
  ⟨hj.handle ▸ received_step h hm.received, hm.decoded, hm.intact, hj.messageId ▸ hm.responseId⟩

namespace Matched

section

variable (hs : s.Matched)

include hs

/-- The counter fits the 64 bits of a message ID. -/
theorem toNat_counter : (UInt64.ofNat s.messageId).toNat = s.messageId := by
  have hlt := hs.counter.2
  rw [UInt64.toNat_ofNat']
  omega

/-- A listener works on calls of its own connection. -/
theorem handle_of_works {h k j : ℕ} (hw : (s.connections h).listener.works = some (k, j)) :
    (s.calls j).handle = h :=
  (hs.works h k j hw).2.1

/-- The ID that a new request takes is in no other request. -/
theorem fresh {j : ℕ} (hj : (s.calls j).phase.identified) :
    (s.calls j).request.messageId ≠ .ofNat s.messageId := by
  intro heq
  have hlt := (hs.bounds j hj).2
  rw [heq, hs.toNat_counter] at hlt
  omega

variable (h : CallStep s s')

include h

/-- Requests have message IDs below the counter. -/
theorem bounds_step (j : ℕ) (hj' : (s'.calls j).phase.identified) :
    1 ≤ (s'.calls j).request.messageId.toNat ∧
      (s'.calls j).request.messageId.toNat < s'.messageId := by
  have hle := (messageId_step h).1
  rcases keeps_or_takes h hj' with hj | hj
  · have hbounds := hs.bounds j hj.before
    rw [hj.messageId]
    omega
  · obtain ⟨e, hrequest⟩ := hj.request
    have hpos := hs.counter.1
    have hnat := hs.toNat_counter
    have hcounter := hj.counter
    rw [hrequest]
    simp only [NymphRequest.prepare]
    omega

/-- No two requests have the same message ID. -/
theorem unique_step (i j : ℕ) (hi' : (s'.calls i).phase.identified)
    (hj' : (s'.calls j).phase.identified)
    (heq : (s'.calls i).request.messageId = (s'.calls j).request.messageId) : i = j := by
  have htakes : ∀ {i j : ℕ}, Keeps s s' i → Takes s s' j →
      (s'.calls i).request.messageId ≠ (s'.calls j).request.messageId := by
    intro i j hi hj
    obtain ⟨e, hrequest⟩ := hj.request
    rw [hi.messageId, hrequest]
    exact hs.fresh hi.before
  rcases keeps_or_takes h hi' with hi | hi <;> rcases keeps_or_takes h hj' with hj | hj
  · exact hs.unique i j hi.before hj.before (by rw [← hi.messageId, heq, hj.messageId])
  · exact absurd heq (htakes hi hj)
  · exact absurd heq.symm (htakes hj hi)
  · by_contra hne
    have hbefore := hj.before
    rw [← hi.others j (Ne.symm hne), hj.after] at hbefore
    cases hbefore

/-- The request has the ID of the serialised message. -/
theorem serialized_step (j : ℕ) (hj' : (s'.calls j).phase.identified) :
    ∃ sent, (s'.calls j).message = some sent ∧
      sent.messageId = (s'.calls j).request.messageId := by
  rcases keeps_or_takes h hj' with hj | hj
  · rw [hj.message, hj.messageId]
    exact hs.serialized j hj.before
  · obtain ⟨sent, hsent, hid⟩ := hj.message
    obtain ⟨e, hrequest⟩ := hj.request
    exact ⟨sent, hsent, by rw [hid, hrequest]; rfl⟩

/-- Only IDs below the counter are requested. -/
theorem requested_bound (i : ℕ) (id : UInt64) (hid : id ∈ (s'.connections i).requested) :
    id.toNat < s'.messageId := by
  have hle := (messageId_step h).1
  rcases (requested_step h i id).2 hid with hmem | ⟨rfl, hcounter⟩
  · have hlt := hs.requested i id hmem
    omega
  · rw [hs.toNat_counter]
    omega

/-- Only requested IDs are replied to. -/
theorem replied_requested (i : ℕ) (id : UInt64) (hid : id ∈ (s'.connections i).replied) :
    id ∈ (s'.connections i).requested := by
  apply (requested_step h i id).1
  rcases (replied_step h i id).2 hid with hmem | hmem
  · exact hs.replied i id hmem
  · exact hmem

/-- The ID of a request is requested on its connection. -/
theorem own_step (j : ℕ) (hj' : (s'.calls j).phase.identified) :
    (s'.calls j).request.messageId ∈ (s'.connections (s'.calls j).handle).requested := by
  rcases keeps_or_takes h hj' with hj | hj
  · rw [hj.messageId, hj.handle]
    exact (requested_step h _ _).1 (hs.own j hj.before)
  · obtain ⟨e, hrequest⟩ := hj.request
    rw [hrequest, hj.handle]
    exact hj.requested

/-- A listener works on a call over a message with the ID of its request. -/
theorem works_call (i k j : ℕ) (hw : (s'.connections i).listener.works = some (k, j)) :
    (s'.calls j).phase.identified ∧ (s'.calls j).handle = i ∧
      (s'.calls j).request.messageId ∈ (s'.connections i).replied ∧ ∃ m, s'.Answers j k m := by
  rcases works_step h hw with hw | ⟨m, hdecoded, hintact, -, hget, -, hlookup, hcalls, hreplied⟩
  · obtain ⟨hj, hhandle, hmem, m, hm⟩ := hs.works i k j hw
    have hkeeps := keeps_step h hj
    exact ⟨hkeeps.after, hkeeps.handle.trans hhandle,
      hkeeps.messageId ▸ (replied_step h i _).1 hmem, m, hm.keeps hkeeps h⟩
  · obtain ⟨hj, hhandle, hid⟩ := hs.messages i _ j hlookup
    have hkeeps := keeps_step h hj
    refine ⟨hkeeps.after, hkeeps.handle.trans hhandle, ?_, m, ?_, hdecoded, hintact, ?_⟩
    · rw [hkeeps.messageId, hid]
      apply hreplied
      rw [← hid, ← hhandle]
      exact hs.own j hj
    · rw [hkeeps.handle, hhandle]
      exact hget
    · rw [hkeeps.messageId, hid]

/-- What a call will return stays unless a listener still has to store its message. -/
theorem outcome_stays {j : ℕ} (hj : (s.calls j).phase.identified)
    (hpending : ∀ k, (s.connections (s.calls j).handle).listener.pending ≠ some (k, j)) :
    (s'.calls j).request.outcome = (s.calls j).request.outcome := by
  rcases request_step h hj with ⟨hresponse, hexception, hdata⟩ | ⟨i, k, m, hphase, -⟩
  · rw [NymphRequest.outcome, hresponse, hexception, hdata]
    rfl
  · have hhandle := hs.handle_of_works (h := i) (k := k) (j := j) (by rw [hphase]; rfl)
    exact absurd (by rw [hhandle, hphase]; rfl) (hpending k)

/-- A signalled call has its message. -/
theorem outcome_signalled {j : ℕ} (hj : (s.calls j).phase.signalled) :
    (s'.calls j).request.outcome = (s.calls j).request.outcome := by
  have hid := CallPhase.identified_of_signalled hj
  apply hs.outcome_stays h hid
  intro k hpending
  rw [(hs.blank j hid (.inr ⟨k, hpending⟩)).2] at hj
  cases hj

/-- Nothing is stored in a request before its message. -/
theorem blank_step (j : ℕ) (hj' : (s'.calls j).phase.identified)
    (hnot : (s'.calls j).request.messageId ∉ (s'.connections (s'.calls j).handle).replied ∨
      ∃ k, (s'.connections (s'.calls j).handle).listener.pending = some (k, j)) :
    (s'.calls j).request.Blank ∧ (s'.calls j).phase.signalled = false := by
  rcases keeps_or_takes h hj' with hj | hj
  · rw [hj.messageId, hj.handle] at hnot
    have hbefore : (s.calls j).request.messageId ∉ (s.connections (s.calls j).handle).replied ∨
        ∃ k, (s.connections (s.calls j).handle).listener.pending = some (k, j) := by
      rcases hnot with hnot | ⟨k, hpending⟩
      · exact .inl fun hmem => hnot ((replied_step h _ _).1 hmem)
      · rcases pending_step h hpending with hpending | hidle
        · exact .inr ⟨k, hpending⟩
        · rcases works_step h (ListenerPhase.works_of_pending hpending) with
            hworks | ⟨m, -, -, -, -, hreplied, hlookup, -⟩
          · rw [hidle] at hworks
            cases hworks
          · rw [← (hs.messages _ _ j hlookup).2.2] at hreplied
            exact .inl hreplied
    obtain ⟨hblank, hsignalled⟩ := hs.blank j hj.before hbefore
    -- the listener that stores or signals has its message marked as the reply already
    have hworking : ∀ {i k : ℕ}, (s.connections i).listener.works = some (k, j) →
        (s'.connections i).listener.pending = none → False := by
      intro i k hworks hpending
      obtain ⟨-, rfl, hmem, -⟩ := hs.works i k j hworks
      rcases hnot with hnot | ⟨k, hpending'⟩
      · exact hnot ((replied_step h _ _).1 hmem)
      · rw [hpending] at hpending'
        cases hpending'
    constructor
    · rcases request_step h hj.before with ⟨hresponse, hexception, -⟩ |
        ⟨i, k, m, hphase, -, -, hphase'⟩
      · exact ⟨hresponse.trans hblank.1, hexception.trans hblank.2⟩
      · exact (hworking (by rw [hphase]; rfl) (by rw [hphase']; rfl)).elim
    · by_contra hnow
      rcases signalled_step h (by simpa using hnow) with hold | ⟨-, i, k, hphase, hphase', -⟩
      · rw [hsignalled] at hold
        cases hold
      · exact hworking (by rw [hphase]; rfl) (by rw [hphase']; rfl)
  · obtain ⟨e, hrequest⟩ := hj.request
    rw [hrequest, hj.after]
    exact ⟨NymphRequest.blank_prepare _ _ _, rfl⟩

/-- What is stored is the message of the listener. -/
theorem stored_answered (i k j : ℕ) (hw : (s'.connections i).listener = .stored k j) :
    (s'.calls j).phase.signalled = false ∧ s'.Answered j k := by
  rcases Calls.stored_step h hw with hold | ⟨hold, m, hget, hcall⟩
  · obtain ⟨hj, hhandle, -⟩ := hs.works i k j (by rw [hold]; rfl)
    obtain ⟨hsignalled, m, hm, houtcome⟩ := hs.stored i k j hold
    refine ⟨?_, m, hm.keeps (keeps_step h hj) h, ?_⟩
    · by_contra hnow
      rcases signalled_step h (by simpa using hnow) with hbefore | ⟨-, i', k', hphase, hphase', -⟩
      · rw [hsignalled] at hbefore
        cases hbefore
      · have hhandle' := hs.handle_of_works (h := i') (k := k') (j := j) (by rw [hphase]; rfl)
        rw [← hhandle', hhandle, hw] at hphase'
        cases hphase'
    · rw [hs.outcome_stays h hj, houtcome]
      intro k' hpending
      rw [hhandle, hold] at hpending
      cases hpending
  · obtain ⟨hj, hhandle, -, m', hm'⟩ := hs.works i k j (by rw [hold]; rfl)
    obtain ⟨hblank, hsignalled⟩ := hs.blank j hj (.inr ⟨k, by rw [hhandle, hold]; rfl⟩)
    have hm : m' = m := by
      have hreceived := hm'.received
      rw [hhandle, hget] at hreceived
      cases hreceived
      rfl
    refine ⟨?_, m', hm'.keeps (keeps_step h hj) h, ?_⟩
    · rw [hcall]
      exact hsignalled
    · rw [hcall, hm]
      exact hblank.outcome_store k m

/-- A signalled call has a message. -/
theorem signalled_answered (j : ℕ) (hj' : (s'.calls j).phase.signalled) :
    ∃ k, s'.Answered j k := by
  rcases signalled_step h hj' with hj | ⟨-, i, k, hphase, -, -, hrequest⟩
  · obtain ⟨k, m, hm, houtcome⟩ := hs.signalled j hj
    have hkeeps := keeps_step h (CallPhase.identified_of_signalled hj)
    exact ⟨k, m, hm.keeps hkeeps h, (hs.outcome_signalled h hj).trans houtcome⟩
  · obtain ⟨hj, -⟩ := hs.works i k j (by rw [hphase]; rfl)
    obtain ⟨-, m, hm, houtcome⟩ := hs.stored i k j hphase
    exact ⟨k, m, hm.keeps (keeps_step h hj) h, by rw [hrequest, houtcome]⟩

/-- A signalled call returns what its request holds. -/
theorem returned_outcome (j : ℕ) (o : CallOutcome) (hj' : (s'.calls j).phase.signalled)
    (hret : (s'.calls j).phase = .returned o) : o = (s'.calls j).request.outcome := by
  rcases signalled_step h hj' with hj | ⟨-, i, k, -, -, hwaking, -⟩
  · rcases returned_step h hj hret with hbefore | ⟨houtcome, hrequest⟩
    · rw [hs.outcome_signalled h hj]
      exact hs.outcome j o hj hbefore
    · rw [houtcome, hrequest]
  · rw [hwaking] at hret
    cases hret

/-- The invariant survives every step. -/
theorem step : s'.Matched where
  counter := ⟨hs.counter.1.trans (messageId_step h).1, (messageId_step h).2 hs.counter.2⟩
  bounds := hs.bounds_step h
  unique := hs.unique_step h
  serialized := hs.serialized_step h
  requested := hs.requested_bound h
  replied := hs.replied_requested h
  own := hs.own_step h
  messages := entries_step h hs.messages
  works := hs.works_call h
  blank := hs.blank_step h
  stored := hs.stored_answered h
  signalled := hs.signalled_answered h
  outcome := hs.returned_outcome h

end

end Matched

/-- Who holds the mutex of a request, and that a listener at work holds `messagesMutex`. -/
structure Locked (s : Calls) : Prop where
  caller : ∀ j, (s.calls j).phase.locks → (s.calls j).request.mutex = some .caller
  listener : ∀ h j, (s.connections h).listener.locks = some j →
    (s.calls j).request.mutex = some .listener
  callerHolds : ∀ j, (s.calls j).phase.identified → (s.calls j).request.mutex = some .caller →
    (s.calls j).phase.locks
  listenerHolds : ∀ j, (s.calls j).phase.identified →
    (s.calls j).request.mutex = some .listener →
      (s.connections (s.calls j).handle).listener.locks = some j
  messagesMutex : ∀ h, (s.connections h).messagesMutex = false →
    (s.connections h).listener = .idle

/-- The listener that holds the mutex of a request is the one of its connection. -/
theorem Matched.handle_of_locks (hs : s.Matched) {i j : ℕ}
    (hlocks : (s.connections i).listener.locks = some j) :
    (s.calls j).phase.identified ∧ (s.calls j).handle = i := by
  obtain ⟨k, hworks⟩ := ListenerPhase.works_of_locks hlocks
  obtain ⟨hj, hhandle, -⟩ := hs.works i k j hworks
  exact ⟨hj, hhandle⟩

namespace Locked

/-- A call that locks a mutex holds it. -/
theorem caller_step (hl : s.Locked) (h : CallStep s s') (j : ℕ) (hj : (s'.calls j).phase.locks) :
    (s'.calls j).request.mutex = some .caller :=
  callerLocks_step h hl.caller hl.listener j hj

/-- A listener that locks a mutex holds it. -/
theorem listener_step (hl : s.Locked) (hs : s.Matched) (h : CallStep s s') (i j : ℕ)
    (hj : (s'.connections i).listener.locks = some j) :
    (s'.calls j).request.mutex = some .listener :=
  listenerLocks_step h hl.caller hl.listener (fun _ _ => hs.handle_of_locks) i j hj

/-- A call that holds a mutex is in a phase that says so. -/
theorem callerHolds_step (hl : s.Locked) (h : CallStep s s') (j : ℕ)
    (hj : (s'.calls j).phase.identified) (hmutex : (s'.calls j).request.mutex = some .caller) :
    (s'.calls j).phase.locks := by
  obtain ⟨hcaller, hlistener, hcallerHolds, -, -⟩ := hl
  cases h <;> grind

/-- A listener that holds a mutex is in a phase that says so. -/
theorem listenerHolds_step (hl : s.Locked) (hs : s.Matched) (h : CallStep s s') (j : ℕ)
    (hj : (s'.calls j).phase.identified) (hmutex : (s'.calls j).request.mutex = some .listener) :
    (s'.connections (s'.calls j).handle).listener.locks = some j := by
  have hfound : ∀ {i k j : ℕ}, (s.connections i).listener = .found k j →
      (s.calls j).handle = i := fun hphase => hs.handle_of_works (by rw [hphase]; rfl)
  obtain ⟨hcaller, -, -, hlistenerHolds, -⟩ := hl
  cases h <;> grind

/-- A listener at work holds `messagesMutex`. -/
theorem messagesMutex_step (hl : s.Locked) (h : CallStep s s') (i : ℕ)
    (hi : (s'.connections i).messagesMutex = false) : (s'.connections i).listener = .idle := by
  have hmessages := hl.messagesMutex
  cases h <;> grind

/-- The mutexes change hands as the phases say. -/
theorem step (hl : s.Locked) (hs : s.Matched) (h : CallStep s s') : s'.Locked where
  caller := hl.caller_step h
  listener := hl.listener_step hs h
  callerHolds := hl.callerHolds_step h
  listenerHolds := hl.listenerHolds_step hs h
  messagesMutex := hl.messagesMutex_step h

end Locked

/-- Nothing was requested before the first call. -/
theorem matched_initial : initial.Matched := by
  constructor <;>
    simp [initial, CallPhase.identified, CallPhase.signalled, ListenerPhase.works]

/-- No mutex is locked before the first call. -/
theorem locked_initial : initial.Locked := by
  constructor <;> simp [initial, CallPhase.locks, ListenerPhase.locks]

/-- The invariants hold in every state the client can get into. -/
theorem Reachable.invariant (h : s.Reachable) : s.Matched ∧ s.Locked := by
  induction h with
  | refl => exact ⟨matched_initial, locked_initial⟩
  | tail _ hstep ih => exact ⟨ih.1.step hstep, ih.2.step ih.1 hstep⟩

/-- A signalled call keeps what it will return through any run. -/
theorem signalled_run {j : ℕ} (hs : s.Reachable) (hj : (s.calls j).phase.signalled)
    (hrun : Relation.ReflTransGen CallStep s s') :
    (s'.calls j).phase.signalled ∧ (s'.calls j).handle = (s.calls j).handle ∧
      (s'.calls j).request.outcome = (s.calls j).request.outcome := by
  induction hrun with
  | refl => exact ⟨hj, rfl, rfl⟩
  | tail hrun hstep ih =>
    obtain ⟨hj, hhandle, houtcome⟩ := ih
    have hmatched := (Reachable.invariant (hs.trans hrun)).1
    have hkeeps := keeps_step hstep (CallPhase.identified_of_signalled hj)
    exact ⟨(ended_step hstep j).1 hj, hkeeps.handle.trans hhandle,
      (hmatched.outcome_signalled hstep hj).trans houtcome⟩

/-! ### Coming back -/

/-- The call can return the outcome. -/
def CanReturn (s : Calls) (j : ℕ) (o : CallOutcome) : Prop :=
  ∃ t, Relation.ReflTransGen CallStep s t ∧ (t.calls j).phase = .returned o

/-- A step towards returning. -/
theorem CanReturn.head {j : ℕ} {o : CallOutcome} (h : CallStep s s') (hs' : s'.CanReturn j o) :
    s.CanReturn j o := by
  obtain ⟨t, hrun, ht⟩ := hs'
  exact ⟨t, hrun.head h, ht⟩

/-- A signalled call that has left the pending messages can return. -/
theorem canReturn_of_returning {j : ℕ} (hphase : (s.calls j).phase = .returning true) :
    s.CanReturn j (s.calls j).request.outcome :=
  ⟨_, .single (.comeBack j true hphase), by simp [NymphRequest.result]⟩

/-- A signalled call can leave the pending messages. -/
theorem canReturn_of_removing {j : ℕ} (hphase : (s.calls j).phase = .removing true)
    (hfree : (s.connections (s.calls j).handle).messagesMutex = false) :
    s.CanReturn j (s.calls j).request.outcome := by
  have hreturn := canReturn_of_returning (j := j)
    (s := (s.goTo j (.returning true)).setConnection (s.calls j).handle fun c =>
      if c.listed then { c with messages := c.messages.erase (s.calls j).request.messageId }
      else c) (by simp)
  refine .head (.removeMessage j true hphase hfree) ?_
  simpa using hreturn

/-- A signalled call can give the mutex of its request back. -/
theorem canReturn_of_woken {j : ℕ} (hphase : (s.calls j).phase = .woken true)
    (hfree : (s.connections (s.calls j).handle).messagesMutex = false) :
    s.CanReturn j (s.calls j).request.outcome := by
  have hreturn := canReturn_of_removing (j := j)
    (s := (s.goTo j (.removing true)).setMutex j none) (by simp) (by simpa using hfree)
  refine .head (.unlock j true hphase) ?_
  simpa [NymphRequest.outcome] using hreturn

/-- A signalled call can take the mutex of its request when it is free. -/
theorem canReturn_of_waking {j : ℕ} (hphase : (s.calls j).phase = .waking true)
    (hmutex : (s.calls j).request.mutex = none)
    (hfree : (s.connections (s.calls j).handle).messagesMutex = false) :
    s.CanReturn j (s.calls j).request.outcome := by
  have hreturn := canReturn_of_woken (j := j)
    (s := (s.goTo j (.woken true)).setMutex j (some .caller)) (by simp) (by simpa using hfree)
  refine .head (.wake j true hphase hmutex) ?_
  simpa [NymphRequest.outcome] using hreturn

/-- Once signalled, a call needs nothing but `messagesMutex` of its listener to return. -/
theorem canReturn_of_signalled {j : ℕ} (hs : s.Matched) (hl : s.Locked)
    (hj : (s.calls j).phase.signalled)
    (hfree : (s.connections (s.calls j).handle).messagesMutex = false) :
    s.CanReturn j (s.calls j).request.outcome := by
  have hid := CallPhase.identified_of_signalled hj
  have hidle := hl.messagesMutex _ hfree
  cases hphase : (s.calls j).phase with
  | waking b =>
    obtain rfl : b = true := by rwa [hphase] at hj
    refine canReturn_of_waking hphase ?_ hfree
    cases hmutex : (s.calls j).request.mutex with
    | none => rfl
    | some owner =>
      cases owner with
      | caller =>
        have hlocks := hl.callerHolds j hid hmutex
        rw [hphase] at hlocks
        cases hlocks
      | listener =>
        have hlocks := hl.listenerHolds j hid hmutex
        rw [hidle] at hlocks
        cases hlocks
  | woken b =>
    obtain rfl : b = true := by rwa [hphase] at hj
    exact canReturn_of_woken hphase hfree
  | removing b =>
    obtain rfl : b = true := by rwa [hphase] at hj
    exact canReturn_of_removing hphase hfree
  | returning b =>
    obtain rfl : b = true := by rwa [hphase] at hj
    exact canReturn_of_returning hphase
  | returned o => exact ⟨s, .refl, by rw [hphase, hs.outcome j o hj hphase]⟩
  | ready | entered | checking | serialized | added | sent | waiting =>
    rw [hphase] at hj
    cases hj

/-- A call that returns a value was given a reply to its request. -/
theorem Matched.reply_of_value {j : ℕ} {r : Option ℕ} (hs : s.Matched)
    (hret : (s.calls j).phase = .returned (.value r)) :
    ∃ k m, r = some k ∧ s.Answers j k m ∧ m.isReply = true ∧ m.response ≠ none := by
  have hj : (s.calls j).phase.signalled := by rw [hret]; rfl
  obtain ⟨k, m, hm, houtcome⟩ := hs.signalled j hj
  rw [← hs.outcome j _ hj hret, answer] at houtcome
  obtain ⟨u, um, fuel, binmsg, hdecode⟩ := hm.decoded
  have hrouted := routed_of_decode hdecode
  split_ifs at houtcome with hreply hexception
  · have hresponse := (hrouted.response hm.intact).mp hreply
    obtain ⟨t, ht⟩ := Option.ne_none_iff_exists'.mp hresponse
    rw [ht] at houtcome
    cases houtcome
    exact ⟨k, m, rfl, hm, hreply, hresponse⟩
  · -- any other message has no response ID, and no request has the ID 0
    have hzero := hrouted.responseId hm.intact (by simpa using hreply) (by simpa using hexception)
    have hpos := (hs.bounds j (CallPhase.identified_of_signalled hj)).1
    rw [← hm.responseId, hzero] at hpos
    cases hpos

/-- No two calls return the same reply. -/
theorem Matched.eq_of_value {i j k : ℕ} (hs : s.Matched)
    (hi : (s.calls i).phase = .returned (.value (some k)))
    (hj : (s.calls j).phase = .returned (.value (some k))) : i = j := by
  obtain ⟨k', m, hk, hm, -⟩ := hs.reply_of_value hi
  obtain ⟨k'', m', hk', hm', -⟩ := hs.reply_of_value hj
  cases hk
  cases hk'
  have hsame := hm.received.symm.trans hm'.received
  obtain ⟨-, rfl⟩ : (s.calls i).handle = (s.calls j).handle ∧ m = m' := by simpa using hsame
  exact hs.unique i j (by rw [hi]; rfl) (by rw [hj]; rfl)
    (hm.responseId.symm.trans hm'.responseId)

/-- A stored reply is what the call is to return. -/
theorem Matched.outcome_of_stored {h k j : ℕ} {m : NymphMessage} (hs : s.Matched)
    (hphase : (s.connections h).listener = .stored k j) (hget : s.received[k]? = some (h, m))
    (hreply : m.isReply = true) : (s.calls j).request.outcome = .value (some k) := by
  obtain ⟨-, hhandle, -⟩ := hs.works h k j (by rw [hphase]; rfl)
  obtain ⟨-, m', hm, houtcome⟩ := hs.stored h k j hphase
  have hget' := hm.received
  rw [hhandle, hget] at hget'
  obtain rfl : m = m' := by simpa using hget'
  obtain ⟨u, um, fuel, binmsg, hdecode⟩ := hm.decoded
  have hrouted := routed_of_decode hdecode
  obtain ⟨t, ht⟩ := Option.ne_none_iff_exists'.mp
    ((hrouted.response hm.intact).mp hreply)
  rw [houtcome, answer, if_pos hreply, ht]
  rfl

/-- The listener signals a call that is waiting, unless the call has timed out. -/
theorem waiting_of_stored (hs : s.Matched) (hl : s.Locked) {h k j : ℕ}
    (hphase : (s.connections h).listener = .stored k j)
    (htime : (s.calls j).phase.timedOut = false) : (s.calls j).phase = .waiting := by
  have hmutex := hl.listener h j (by rw [hphase]; rfl)
  obtain ⟨hid, -⟩ := hs.works h k j (by rw [hphase]; rfl)
  have hsignalled := (hs.stored h k j hphase).1
  refine CallPhase.eq_waiting hid ?_ (by simp [hsignalled]) (by simp [htime])
  intro hlocks
  rw [hl.caller j hlocks] at hmutex
  cases hmutex

end Calls

open Calls

/-- Each call gets its own reply. A value that a call returns is the response of a reply on its
connection to the message ID it put in its request; no two calls return the same one; and the
reply that a listener has stored is what its call returns, if that has not timed out before it
is signalled: it waits for the signal then, whatever happens next it returns nothing else, and
once the listener has left it can return. -/
theorem callMethod_reply {s : Calls} (hs : s.Reachable) :
    (∀ j r, (s.calls j).phase = .returned (.value r) →
      ∃ k m sent, r = some k ∧ s.received[k]? = some ((s.calls j).handle, m) ∧
        m.isReply = true ∧ m.response ≠ none ∧ (s.calls j).message = some sent ∧
        m.responseId = sent.messageId) ∧
    (∀ i j k, (s.calls i).phase = .returned (.value (some k)) →
      (s.calls j).phase = .returned (.value (some k)) → i = j) ∧
    ∀ h k j m s', (s.connections h).listener = .stored k j → s.received[k]? = some (h, m) →
      m.isReply = true → (s.calls j).phase.timedOut = false → CallStep s s' →
      (s'.connections h).listener = .signalled k j →
        (s.calls j).phase = .waiting ∧
        ∀ t, Relation.ReflTransGen CallStep s' t →
          (∀ o, (t.calls j).phase = .returned o → o = .value (some k)) ∧
          ((t.connections h).messagesMutex = false → t.CanReturn j (.value (some k))) := by
  obtain ⟨hmatched, hlocked⟩ := hs.invariant
  refine ⟨?_, ?_, ?_⟩
  · intro j r hret
    obtain ⟨k, m, hr, hm, hreply, hresponse⟩ := hmatched.reply_of_value hret
    obtain ⟨sent, hsent, hid⟩ := hmatched.serialized j (by rw [hret]; rfl)
    exact ⟨k, m, sent, hr, hm.received, hreply, hresponse, hsent, hm.responseId.trans hid.symm⟩
  · intro i j k hi hj
    exact hmatched.eq_of_value hi hj
  · intro h k j m s' hphase hget hreply htime hstep hphase'
    have hwaiting := waiting_of_stored hmatched hlocked hphase htime
    refine ⟨hwaiting, fun t hrun => ?_⟩
    obtain ⟨hj, hhandle, -⟩ := hmatched.works h k j (by rw [hphase]; rfl)
    have hvalue := hmatched.outcome_of_stored hphase hget hreply
    obtain ⟨hwaking, hrequest⟩ := signal_step hstep hphase hphase' hwaiting
    have hs' : s'.Reachable := hs.tail hstep
    obtain ⟨hsignalled, hhandle', houtcome'⟩ :=
      signalled_run hs' (by rw [hwaking]; rfl) hrun
    rw [hrequest, hvalue] at houtcome'
    obtain ⟨hmatched', hlocked'⟩ := Reachable.invariant (hs'.trans hrun)
    refine ⟨fun o hret => (hmatched'.outcome j o hsignalled hret).trans houtcome', fun hfree => ?_⟩
    rw [← houtcome']
    apply canReturn_of_signalled hmatched' hlocked' hsignalled
    rwa [hhandle', (keeps_step hstep hj).handle, hhandle]

/-- A reply with the value `true` to the message ID 1. -/
def trueReply : Bytes :=
  [0x00, 0, 0, 0, 0, 0x01, 0, 0, 0] ++ 0x02 :: List.replicate 7 0x00 ++
    0x01 :: List.replicate 7 0x00 ++ [0x03, 0x01]

/-- A call that is replied to returns the response of the reply. -/
theorem callMethod_reply_run : ∃ s : Calls, s.Reachable ∧
    (s.calls 0).phase = .returned (.value (some 0)) ∧
      ∃ k m sent, some 0 = some k ∧ s.received[k]? = some ((s.calls 0).handle, m) ∧
        m.isReply = true ∧ m.response ≠ none ∧ (s.calls 0).message = some sent ∧
        m.responseId = sent.messageId := by
  obtain ⟨m, hdecoded, hm, hreply, hid⟩ : ∃ m, Decoded m ∧
      (m.corrupt = false ∧ m.isCallback = false) ∧ m.isReply = true ∧ m.responseId = 1 :=
    ⟨_, ⟨fun _ => ⟨0, 0⟩, ⟨0, 0⟩, 2, trueReply, rfl⟩, ⟨rfl, rfl⟩, rfl, rfl⟩
  obtain ⟨sent, hsent⟩ : ∃ sent,
      (ofMethodId ⟨0, 0⟩ 1).serialize (.ofNat 1) (fun _ => 0) = some sent := ⟨_, rfl⟩
  have hsentId : sent.messageId = 1 := messageId_serialize hsent rfl
  have hlisted := Relation.ReflTransGen.single (CallStep.addConnection (s := initial) 0)
  have hadded := (((((hlisted.tail (.enter 0 0 true rfl nofun)).tail (.lockMethods 0 rfl rfl)).tail
    (.serialize 0 ⟨0, []⟩ (fun _ => 0) _ sent rfl (by decide) rfl hsent)).tail
    (.addMessage 0 rfl rfl)).tail (.send 0 rfl)).tail (.wait 0 rfl)
  have hstored := ((hadded.tail (.find 0 m 0 hdecoded rfl hm List.not_mem_nil rfl
    (by
      change (OrderedMap.Map.empty.insert sent.messageId 0).find? m.responseId = some 0
      rw [hsentId, hid]
      rfl))).tail (.lockRequest 0 0 0 rfl rfl)).tail (.store 0 0 0 m rfl rfl)
  obtain ⟨-, -, hprocessed⟩ := callMethod_reply hstored
  obtain ⟨-, hlater⟩ := hprocessed 0 0 0 m _ rfl rfl hreply rfl (.signal 0 0 0 rfl) rfl
  have hleft := ((hstored.tail (.signal 0 0 0 rfl)).tail (.unlockRequest 0 0 0 rfl)).tail
    (.unlockMessages 0 rfl)
  obtain ⟨t, hrun, hret⟩ := (hlater _ ((Relation.ReflTransGen.single
    (.unlockRequest 0 0 0 rfl)).tail (.unlockMessages 0 rfl))).2 rfl
  have ht : t.Reachable := hleft.trans hrun
  exact ⟨t, ht, hret, (callMethod_reply ht).1 0 (some 0) hret⟩

end NymphRpc
