import NymphRpc.Base.Runs
import NymphRpc.Client.LeftBehind

/-!
# Calls come back

Who waits for whom: a call that enters waits for `instancesMutex` or for `methodsMutex`, a call
with its request waits for `messagesMutex`, and the listener that keeps it for the mutex of the
request. A call that holds the mutex of a request which the listener can find waits for no lock,
so the chain ends there. As long as no step does harm, every call that has entered comes back,
in whatever order the threads take their steps, and all locks are free afterwards.
-/

namespace NymphRpc

open Calls

namespace CallPhase

/-- How many steps the call can still take. -/
@[grind] def ahead : CallPhase → ℕ
  | ready | returned _ => 0
  | returning _ => 1
  | removing _ => 2
  | woken _ => 3
  | waking _ => 4
  | waiting => 5
  | sent => 6
  | added => 7
  | serialized => 8
  | checking => 9
  | entered => 10

/-- The call keeps `methodsMutex` of its connection. -/
@[grind] def composes : CallPhase → Bool
  | checking | serialized | added => true
  | ready | entered | sent | waiting | waking _ | woken _ | removing _ | returning _ => false
  | returned _ => false

/-- The call has entered and has not returned. -/
@[grind] def underWay : CallPhase → Bool
  | ready | returned _ => false
  | entered | checking | serialized | added | sent | waiting | waking _ | woken _ => true
  | removing _ | returning _ => true

end CallPhase

/-- How many steps the listener can take before it is idle. -/
@[grind] def ListenerPhase.ahead : ListenerPhase → ℕ
  | idle => 0
  | leaving => 1
  | signalled _ _ => 2
  | stored _ _ => 3
  | storing _ _ => 4
  | found _ _ => 5

namespace Calls

variable {s s' : Calls}

section

variable (s : Calls) (i : ℕ)

@[simp, grind =] theorem instancesMutex_setCall (f : Call → Call) :
    (s.setCall i f).instancesMutex = s.instancesMutex := rfl

@[simp, grind =] theorem instancesMutex_setConnection (f : Connection → Connection) :
    (s.setConnection i f).instancesMutex = s.instancesMutex := rfl

@[simp, grind =] theorem instancesMutex_receive (m : NymphMessage) :
    (s.receive i m).instancesMutex = s.instancesMutex := rfl

@[simp, grind =] theorem instancesMutex_comeBack (outcome : CallOutcome) :
    (s.comeBack i outcome).instancesMutex =
      if (s.calls i).sync then s.instancesMutex else none := rfl

@[simp, grind =] theorem instancesMutex_comeBackFromMethod (outcome : CallOutcome) :
    (s.comeBackFromMethod i outcome).instancesMutex =
      if (s.calls i).sync then s.instancesMutex else none := rfl

@[simp, grind =] theorem received_comeBackFromMethod (outcome : CallOutcome) :
    (s.comeBackFromMethod i outcome).received = s.received := rfl

end

/-- A step that does no harm, by which a call that has entered or a listener at work gets on. No
call enters, and no message comes in. -/
structure Onward (s s' : Calls) : Prop where
  harmless : ∃ e, ClientStep e s s' ∧ e.Harmless s
  ready : ∀ j, (s.calls j).phase = .ready → (s'.calls j).phase = .ready
  received : s'.received = s.received
  moves : (∃ j, (s'.calls j).phase ≠ (s.calls j).phase) ∨
    ∃ h, (s'.connections h).listener ≠ (s.connections h).listener

/-- Which calls and listeners keep the locks. -/
structure Kept (s : Calls) : Prop where
  instances : ∀ j, s.instancesMutex = some j ↔
    (s.calls j).sync = false ∧ (s.calls j).phase.underWay
  methods : ∀ h j, (s.connections h).methodsMutex = some j →
    (s.calls j).handle = h ∧ (s.calls j).phase.composes
  messages : ∀ h, (s.connections h).messagesMutex = true → (s.connections h).listener ≠ .idle
  works : ∀ h k j, (s.connections h).listener.works = some (k, j) →
    s.received[k]?.map Prod.fst = some h

namespace Kept

section

variable (hs : s.Kept) {e : ClientEvent} (h : ClientStep e s s')

include hs h

/-- The call that keeps `instancesMutex` is the one under way. -/
theorem instances_step (j : ℕ) : s'.instancesMutex = some j ↔
    (s'.calls j).sync = false ∧ (s'.calls j).phase.underWay := by
  have hinstances := hs.instances
  cases h with
  | other hstep hphase => cases hstep <;> grind
  | _ => grind

/-- The call that keeps `methodsMutex` composes or sends. -/
theorem methods_step (i j : ℕ) (hi : (s'.connections i).methodsMutex = some j) :
    (s'.calls j).handle = i ∧ (s'.calls j).phase.composes := by
  have hmethods := hs.methods
  cases h with
  | other hstep hphase => cases hstep <;> grind
  | _ => grind

/-- The listener that keeps `messagesMutex` is at work. -/
theorem messages_step (i : ℕ) (hi : (s'.connections i).messagesMutex = true) :
    (s'.connections i).listener ≠ .idle := by
  have hmessages := hs.messages
  cases h with
  | other hstep hphase => cases hstep <;> grind
  | _ => grind

/-- A listener works on a message that has come in. -/
theorem works_step (i k j : ℕ) (hw : (s'.connections i).listener.works = some (k, j)) :
    s'.received[k]?.map Prod.fst = some i := by
  have hworks := hs.works
  cases h with
  | other hstep hphase => cases hstep <;> grind
  | _ => grind

end

/-- The invariant survives every step. -/
theorem step (hs : s.Kept) {e : ClientEvent} (h : ClientStep e s s') : s'.Kept where
  instances := hs.instances_step h
  methods := hs.methods_step h
  messages := hs.messages_step h
  works := hs.works_step h

end Kept

/-- No lock is kept before the first call. -/
theorem kept_initial : initial.Kept := by
  constructor <;> simp [initial, CallPhase.underWay, ListenerPhase.works]

/-- The locks are kept by those whose phases say so in every run. -/
theorem Run.kept (h : Run initial s) : s.Kept := by
  refine Runs.invariant (I := Kept) ?_ kept_initial h
  rintro s s' hs ⟨e, hstep⟩
  exact hs.step hstep

/-! ### Every run comes to an end -/

/-- From a number on no call has entered and no listener is at work. -/
def BoundedBy (s : Calls) (n : ℕ) : Prop :=
  ∀ i, n ≤ i → (s.calls i).phase = .ready ∧ (s.connections i).listener = .idle

/-- A step starts at most one call or listener. -/
theorem BoundedBy.step {n : ℕ} (hs : s.BoundedBy n) {e : ClientEvent} (h : ClientStep e s s') :
    ∃ n, s'.BoundedBy n := by
  unfold BoundedBy at hs ⊢
  cases h with
  | other hstep hphase =>
    cases hstep with
    | enter j => exact ⟨max n (j + 1), by grind⟩
    | find i => exact ⟨max n (i + 1), by grind⟩
    | _ => exact ⟨n, by grind⟩
  | find i => exact ⟨max n (i + 1), by grind⟩
  | _ => exact ⟨n, by grind⟩

/-- In every run only so many calls and listeners have started. -/
theorem Run.bounded (h : Run initial s) : ∃ n, s.BoundedBy n := by
  refine Runs.invariant (I := fun s => ∃ n, s.BoundedBy n) ?_ ⟨0, fun _ _ => ⟨rfl, rfl⟩⟩ h
  rintro s s' ⟨n, hs⟩ ⟨e, hstep⟩
  exact hs.step hstep

/-- Without new calls and messages, every call and every listener stays where it is or gets on. -/
theorem ahead_step {e : ClientEvent} (h : ClientStep e s s')
    (hready : ∀ j, (s.calls j).phase = .ready → (s'.calls j).phase = .ready)
    (hreceived : s'.received = s.received) (i : ℕ) :
    ((s'.calls i).phase = (s.calls i).phase ∨
      (s'.calls i).phase.ahead < (s.calls i).phase.ahead) ∧
    ((s'.connections i).listener = (s.connections i).listener ∨
      (s'.connections i).listener.ahead < (s.connections i).listener.ahead) := by
  have hlength := congrArg List.length hreceived
  clear hreceived
  cases h with
  | other hstep hphase => cases hstep <;> grind
  | _ => grind

/-- How many steps the first calls and listeners can still take. -/
def ahead (n : ℕ) (s : Calls) : ℕ :=
  ∑ i ∈ Finset.range n, ((s.calls i).phase.ahead + (s.connections i).listener.ahead)

/-- The same calls and listeners are the started ones after a step without new ones. -/
theorem Onward.bounded {n : ℕ} (h : Onward s s') (hs : s.BoundedBy n) : s'.BoundedBy n := by
  intro i hi
  obtain ⟨hphase, hlistener⟩ := hs i hi
  obtain ⟨e, hstep, -⟩ := h.harmless
  refine ⟨h.ready i hphase, ?_⟩
  rcases (ahead_step hstep h.ready h.received i).2 with hsame | hlt
  · exact hsame.trans hlistener
  · rw [hlistener] at hlt
    cases hlt

/-- A step by which something gets on leaves fewer steps. -/
theorem Onward.ahead_lt {n : ℕ} (h : Onward s s') (hs : s.BoundedBy n) :
    s'.ahead n < s.ahead n := by
  obtain ⟨e, hstep, -⟩ := h.harmless
  have hahead := ahead_step hstep h.ready h.received
  refine Runs.sum_lt ?_ ?_
  · intro i
    obtain ⟨hcall, hlistener⟩ := hahead i
    grind
  · obtain ⟨i, hi⟩ : ∃ i, (s'.calls i).phase ≠ (s.calls i).phase ∨
        (s'.connections i).listener ≠ (s.connections i).listener := by
      rcases h.moves with ⟨i, hi⟩ | ⟨i, hi⟩
      · exact ⟨i, .inl hi⟩
      · exact ⟨i, .inr hi⟩
    obtain ⟨hcall, hlistener⟩ := hahead i
    refine ⟨i, ?_, by grind⟩
    by_contra hle
    have hbefore := hs i (by omega)
    have hafter := h.bounded hs i (by omega)
    grind

/-! ### Where nothing can happen -/

/-- A step of the code by which a call or a listener gets on: none that starts a call, composes,
sends or receives, and no time-out. -/
structure Advance (s s' : Calls) : Prop where
  step : CallStep s s'
  phase : ∀ j, (s.calls j).phase = .ready ∨ (s.calls j).phase = .checking ∨
    (s.calls j).phase = .added → (s'.calls j).phase = (s.calls j).phase
  known : ∀ j, (s.calls j).phase = .entered → (s'.calls j).phase ≠ .returned .refused
  waits : ∀ j, (s.calls j).phase = .waiting → (s'.calls j).phase ≠ .waking false
  received : s'.received = s.received
  moves : (∃ j, (s'.calls j).phase ≠ (s.calls j).phase) ∨
    ∃ h, (s'.connections h).listener ≠ (s.connections h).listener

/-- No call or listener gets on any more, and no call composes or sends. -/
structure Still (s : Calls) : Prop where
  rest : Runs.AtRest Advance s
  checking : ∀ j, (s.calls j).phase ≠ .checking
  added : ∀ j, (s.calls j).phase ≠ .added

/-- What advances gets on. -/
theorem Advance.onward (h : Advance s s') : Onward s s' where
  harmless := ⟨.other, .other h.step fun j hj => h.phase j (.inr hj), trivial⟩
  ready j hj := (h.phase j (.inl hj)).trans hj
  received := h.received
  moves := h.moves

/-- Where nothing gets on no call composes or sends, since each can be refused and all bytes can
be sent. -/
theorem still_of_rest (hrest : Runs.AtRest Onward s) : s.Still where
  rest s' h := hrest s' h.onward
  checking j hphase := by
    refine absurd ⟨⟨_, .unknownMethod j hphase, trivial⟩, ?_, rfl, .inl ⟨j, ?_⟩⟩ (hrest _) <;> grind
  added j hphase := by
    refine absurd ⟨⟨_, .send j hphase, rfl⟩, ?_, rfl, .inl ⟨j, ?_⟩⟩ (hrest _) <;> grind

/-- What is known of a client whose steps did no harm. -/
structure Sound (s : Calls) : Prop where
  kept : s.Kept
  held : s.Held
  orderly : s.Orderly

/-- The invariants survive every step that does no harm. -/
theorem Sound.step (hs : s.Sound) (h : Onward s s') : s'.Sound := by
  obtain ⟨e, hstep, he⟩ := h.harmless
  exact ⟨hs.kept.step hstep, hs.held.step hstep, hs.orderly.pending_step hs.held hstep he,
    hs.orderly.released_step hs.held hstep he⟩

/-- The invariants hold in every run whose steps do no harm. -/
theorem HarmlessRun.sound (h : HarmlessRun initial s) : s.Sound :=
  ⟨h.run.kept, h.invariant.1, h.invariant.2⟩

/-- A call that has put its request where the listener finds it does not stop with the mutex. -/
theorem Still.not_locks (hstill : s.Still) {j : ℕ} (hpends : (s.calls j).phase.pends) :
    (s.calls j).phase.locks = false := by
  cases hphase : (s.calls j).phase with
  | added => exact absurd hphase (hstill.added j)
  | sent =>
    refine absurd ⟨.wait j hphase, ?_, ?_, ?_, rfl, .inl ⟨j, ?_⟩⟩ (hstill.rest _) <;> grind
  | woken b =>
    refine absurd ⟨.unlock j b hphase, ?_, ?_, ?_, rfl, .inl ⟨j, ?_⟩⟩ (hstill.rest _) <;> grind
  | waiting | waking _ | removing _ => rfl
  | ready | entered | checking | serialized | returning _ | returned _ =>
    rw [hphase] at hpends
    cases hpends

namespace Sound

section

variable (hs : s.Sound) (hstill : s.Still)

include hs hstill

/-- No listener stops at work. -/
theorem idle_of_still (h : ℕ) : (s.connections h).listener = .idle := by
  cases hl : (s.connections h).listener with
  | idle => rfl
  | found k j =>
    have hworks : (s.connections h).listener.works = some (k, j) := by rw [hl]; rfl
    obtain ⟨-, hhandle⟩ := hs.held.call_of_works hworks
    cases hmutex : (s.calls j).request.mutex with
    | none =>
      refine absurd ⟨.lockRequest h k j hl hmutex, ?_, ?_, ?_, rfl, .inr ⟨h, ?_⟩⟩
        (hstill.rest _) <;> grind
    | some owner =>
      cases owner with
      | caller =>
        have hpends := (hs.orderly.pending h _ j (hs.held.works h k j hworks).2).1
        have hfree := hstill.not_locks hpends
        rcases hs.held.callerHolds j hmutex with hlocks | hrefused
        · rw [hfree] at hlocks
          cases hlocks
        · rw [hrefused] at hpends
          cases hpends
      | listener =>
        have hlocks := (hs.held.listenerHolds j hmutex).2
        rw [hhandle, hl] at hlocks
        cases hlocks
  | storing k j =>
    obtain ⟨⟨i, m⟩, hm, hi⟩ := Option.map_eq_some_iff.mp (hs.kept.works h k j (by rw [hl]; rfl))
    obtain rfl : i = h := hi
    refine absurd ⟨.store i k j m hl hm, ?_, ?_, ?_, rfl, .inr ⟨i, ?_⟩⟩ (hstill.rest _) <;> grind
  | stored k j =>
    refine absurd ⟨.signal h k j hl, ?_, ?_, ?_, rfl, .inr ⟨h, ?_⟩⟩ (hstill.rest _) <;> grind
  | signalled k j =>
    refine absurd ⟨.unlockRequest h k j hl, ?_, ?_, ?_, rfl, .inr ⟨h, ?_⟩⟩ (hstill.rest _) <;>
      grind
  | leaving =>
    refine absurd ⟨.unlockMessages h hl, ?_, ?_, ?_, rfl, .inr ⟨h, ?_⟩⟩ (hstill.rest _) <;> grind

/-- So `messagesMutex` is free. -/
theorem messagesMutex_of_still (h : ℕ) : (s.connections h).messagesMutex = false := by
  cases hmutex : (s.connections h).messagesMutex with
  | false => rfl
  | true => exact absurd (hs.idle_of_still hstill h) (hs.kept.messages h hmutex)

/-- No call stops while it keeps `methodsMutex`. -/
theorem not_composes_of_still (j : ℕ) : (s.calls j).phase.composes = false := by
  have hfree := hs.messagesMutex_of_still hstill (s.calls j).handle
  cases hphase : (s.calls j).phase with
  | checking => exact absurd hphase (hstill.checking j)
  | serialized =>
    refine absurd ⟨.addMessage j hphase hfree, ?_, ?_, ?_, rfl, .inl ⟨j, ?_⟩⟩ (hstill.rest _) <;>
      grind
  | added => exact absurd hphase (hstill.added j)
  | ready | entered | sent | waiting | waking _ | woken _ | removing _ | returning _ => rfl
  | returned _ => rfl

/-- So `methodsMutex` is free. -/
theorem methodsMutex_of_still (h : ℕ) : (s.connections h).methodsMutex = none := by
  cases hmutex : (s.connections h).methodsMutex with
  | none => rfl
  | some j =>
    have hcomposes := (hs.kept.methods h j hmutex).2
    rw [hs.not_composes_of_still hstill j] at hcomposes
    cases hcomposes

/-- A call that stops under way waits. -/
theorem waiting_of_still {j : ℕ} (hj : (s.calls j).phase.underWay) :
    (s.calls j).phase = .waiting := by
  have hcomposes := hs.not_composes_of_still hstill j
  cases hphase : (s.calls j).phase with
  | waiting => rfl
  | ready | returned _ =>
    rw [hphase] at hj
    cases hj
  | checking | serialized | added =>
    rw [hphase] at hcomposes
    cases hcomposes
  | entered =>
    have hfree := hs.methodsMutex_of_still hstill (s.calls j).handle
    refine absurd ⟨.lockMethods j hphase hfree, ?_, ?_, ?_, rfl, .inl ⟨j, ?_⟩⟩
      (hstill.rest _) <;> grind
  | sent | woken _ =>
    have hlocks := hstill.not_locks (j := j) (by rw [hphase]; rfl)
    rw [hphase] at hlocks
    cases hlocks
  | waking b =>
    have hmutex : (s.calls j).request.mutex = none := by
      cases hmutex : (s.calls j).request.mutex with
      | none => rfl
      | some owner =>
        cases owner with
        | caller =>
          rcases hs.held.callerHolds j hmutex with hlocks | hrefused
          · rw [hphase] at hlocks
            cases hlocks
          · rw [hphase] at hrefused
            cases hrefused
        | listener =>
          have hlocks := (hs.held.listenerHolds j hmutex).2
          rw [hs.idle_of_still hstill] at hlocks
          cases hlocks
    refine absurd ⟨.wake j b hphase hmutex, ?_, ?_, ?_, rfl, .inl ⟨j, ?_⟩⟩ (hstill.rest _) <;>
      grind
  | removing b =>
    have hfree := hs.messagesMutex_of_still hstill (s.calls j).handle
    refine absurd ⟨.removeMessage j b hphase hfree, ?_, ?_, ?_, rfl, .inl ⟨j, ?_⟩⟩
      (hstill.rest _) <;> grind
  | returning b =>
    refine absurd ⟨.comeBack j b hphase, ?_, ?_, ?_, rfl, .inl ⟨j, ?_⟩⟩ (hstill.rest _) <;> grind

end

/-- No call stops under way, since a call that waits can time out. -/
theorem not_underWay_of_rest (hs : s.Sound) (hrest : Runs.AtRest Onward s) (j : ℕ) :
    (s.calls j).phase.underWay = false := by
  cases hj : (s.calls j).phase.underWay with
  | false => rfl
  | true =>
    have hphase := hs.waiting_of_still (still_of_rest hrest) hj
    refine absurd ⟨⟨.other, .other (.timeOut j hphase) ?_, trivial⟩, ?_, rfl, .inl ⟨j, ?_⟩⟩
      (hrest _) <;> grind

/-- So `instancesMutex` is free. -/
theorem instancesMutex_of_rest (hs : s.Sound) (hrest : Runs.AtRest Onward s) :
    s.instancesMutex = none := by
  cases hmutex : s.instancesMutex with
  | none => rfl
  | some j =>
    have hunderWay := ((hs.kept.instances j).mp hmutex).2
    rw [hs.not_underWay_of_rest hrest j] at hunderWay
    cases hunderWay

end Sound

/-- No call is under way, no listener is at work, and all locks are free. -/
structure AllBack (s : Calls) : Prop where
  calls : ∀ j, (s.calls j).phase.underWay = false
  listeners : ∀ h, (s.connections h).listener = .idle
  instancesMutex : s.instancesMutex = none
  methodsMutex : ∀ h, (s.connections h).methodsMutex = none
  messagesMutex : ∀ h, (s.connections h).messagesMutex = false

/-- A call that has entered never becomes a new one, and keeps its connection. -/
theorem entered_step {e : ClientEvent} (h : ClientStep e s s') {j : ℕ}
    (hj : (s.calls j).phase ≠ .ready) :
    (s'.calls j).phase ≠ .ready ∧ (s'.calls j).handle = (s.calls j).handle := by
  cases h with
  | other hstep hphase => cases hstep <;> constructor <;> grind
  | _ => constructor <;> grind

end Calls

/-- Every call comes back. From any state of a run whose steps do no harm, if no call enters and
no message comes in any more, then the calls and the listeners come to an end in whatever order
they take their steps; and then every call that had entered has returned, and all locks are
free. -/
theorem allBack_of_harmless {s : Calls} (hs : HarmlessRun initial s) :
    Runs.ComesToRest Onward
      (fun t => t.AllBack ∧ ∀ j, (s.calls j).phase ≠ .ready → ∃ o, (t.calls j).phase = .returned o)
      s := by
  obtain ⟨n, hn⟩ := hs.run.bounded
  let I (t : Calls) : Prop :=
    (t.Sound ∧ t.BoundedBy n) ∧ ∀ j, (s.calls j).phase ≠ .ready → (t.calls j).phase ≠ .ready
  have hstep : ∀ t t', I t → Onward t t' → I t' := by
    rintro t t' ⟨⟨hsound, hbounded⟩, hentered⟩ h
    refine ⟨⟨hsound.step h, h.bounded hbounded⟩, fun j hj => ?_⟩
    obtain ⟨e, hclient, -⟩ := h.harmless
    exact (entered_step hclient (hentered j hj)).1
  refine Runs.comesToRest_of_rank (I := I) (ahead n) hstep ?_ ?_ ⟨⟨hs.sound, hn⟩, fun _ h => h⟩
  · rintro t t' ⟨⟨-, hbounded⟩, -⟩ h
    exact h.ahead_lt hbounded
  · rintro t ⟨⟨hsound, -⟩, hentered⟩ hrest
    have hback := hsound.not_underWay_of_rest hrest
    have hstill := still_of_rest hrest
    refine ⟨⟨hback, hsound.idle_of_still hstill, hsound.instancesMutex_of_rest hrest,
      hsound.methodsMutex_of_still hstill, hsound.messagesMutex_of_still hstill⟩, fun j hj => ?_⟩
    have hnot := hback j
    have hready := hentered j hj
    cases hphase : (t.calls j).phase with
    | returned o => exact ⟨o, rfl⟩
    | ready => exact absurd hphase hready
    | entered | checking | serialized | added | sent | waiting | waking _ | woken _ | removing _
    | returning _ =>
      rw [hphase] at hnot
      cases hnot

/-- A call that looks for its method comes back. -/
theorem allBack_of_checking : ∃ s : Calls, HarmlessRun initial s ∧
    (s.calls 0).phase = .checking ∧ ∃ t, Relation.ReflTransGen Onward s t ∧ t.AllBack ∧
      ∃ o, (t.calls 0).phase = .returned o := by
  obtain ⟨s, hs, hphase, -⟩ := harmlessRun_checking
  obtain ⟨t, hrun, -, hback, hreturned⟩ := (allBack_of_harmless hs).exists_run
  exact ⟨s, hs, hphase, t, hrun, hback, hreturned 0 (by simp [hphase])⟩

end NymphRpc
