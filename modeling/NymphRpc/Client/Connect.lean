import Mathlib.Data.UInt
import Mathlib.Logic.Function.Basic
import Mathlib.Logic.Relation
import NymphRpc.Base.OrderedMap

/-!
# Concurrent connects

A call of `connect` inserts its instance under `lastHandle`, reads `lastHandle` again for its
listener, which is inserted when its thread has started, and then returns and increments
`lastHandle`. So the calls that begin before the first of them returns all use one handle, and
`std::map::insert` keeps the entries of the first. An instance and a listener are named by the
call that made them; a handle has 32 bits, and comes again when the counter wraps around.
-/

namespace NymphRpc

/-- How far a call of `connect` has come. -/
inductive ConnectPhase
  | notCalled
  | inserted
  /-- `addConnection` waits for the thread of the listener. -/
  | starting (handle : UInt32)
  | added
  | returned (handle : UInt32)

/-- A call of `connect`, with the handle its instance was given and the one its listener was. -/
structure Connect where
  phase : ConnectPhase
  instanceHandle : UInt32
  listenerHandle : UInt32

/-- The calls and what they share. The keys of `listeners` are signed in the source; that changes
no key into another. -/
structure Connects where
  calls : ℕ → Connect
  instances : OrderedMap.Map UInt32 ℕ
  listeners : OrderedMap.Map UInt32 ℕ
  lastHandle : UInt32

namespace ConnectPhase

/-- The call has inserted its instance. -/
@[grind] def begun : ConnectPhase → Bool
  | notCalled => false
  | inserted | starting _ | added | returned _ => true

/-- The call has inserted its listener. -/
@[grind] def listens : ConnectPhase → Bool
  | notCalled | inserted | starting _ => false
  | added | returned _ => true

/-- The call has inserted its instance and not returned. -/
@[grind] def inProgress : ConnectPhase → Bool
  | notCalled | returned _ => false
  | inserted | starting _ | added => true

end ConnectPhase

namespace Connects

/-- Before the first call. -/
def initial : Connects where
  calls _ := ⟨.notCalled, 0, 0⟩
  instances := .empty
  listeners := .empty
  lastHandle := 0

/-- Change a call. -/
def setCall (s : Connects) (i : ℕ) (f : Connect → Connect) : Connects :=
  { s with calls := Function.update s.calls i (f (s.calls i)) }

section

variable (s : Connects) (i : ℕ) (f : Connect → Connect)

@[simp, grind =] theorem calls_setCall (j : ℕ) :
    (s.setCall i f).calls j = if j = i then f (s.calls j) else s.calls j := by
  simp only [setCall, Function.update_apply]
  split_ifs with h
  · rw [h]
  · rfl

@[simp, grind =] theorem instances_setCall : (s.setCall i f).instances = s.instances := rfl

@[simp, grind =] theorem listeners_setCall : (s.setCall i f).listeners = s.listeners := rfl

@[simp, grind =] theorem lastHandle_setCall : (s.setCall i f).lastHandle = s.lastHandle := rfl

end

end Connects

open Connects

/-- The steps of `connect`, once the socket is connected. -/
inductive ConnectStep : Connects → Connects → Prop
  /-- The section of `instancesMutex`. -/
  | insert {s : Connects} (i : ℕ) (hi : (s.calls i).phase = .notCalled) :
      ConnectStep s { s.setCall i fun c => { c with
          phase := .inserted, instanceHandle := s.lastHandle } with
        instances := s.instances.insert s.lastHandle i }
  /-- `ns.handle` and the argument of `addConnection`. -/
  | start {s : Connects} (i : ℕ) (hi : (s.calls i).phase = .inserted) :
      ConnectStep s (s.setCall i fun c => { c with
        phase := .starting s.lastHandle, listenerHandle := s.lastHandle })
  /-- The section of `listenersMutex`. -/
  | addConnection {s : Connects} (i : ℕ) (handle : UInt32)
      (hi : (s.calls i).phase = .starting handle) :
      ConnectStep s { s.setCall i fun c => { c with phase := .added } with
        listeners := s.listeners.insert handle i }
  | comeBack {s : Connects} (i : ℕ) (hi : (s.calls i).phase = .added) :
      ConnectStep s { s.setCall i fun c => { c with phase := .returned s.lastHandle } with
        lastHandle := s.lastHandle + 1 }

namespace Connects

/-- Every handle is returned once and leads to the instance and the listener of its call, and
every instance and every listener is in its map. -/
structure HandlesCorrect (s : Connects) : Prop where
  distinct : ∀ i j handle, (s.calls i).phase = .returned handle →
    (s.calls j).phase = .returned handle → i = j
  own : ∀ i handle, (s.calls i).phase = .returned handle →
    s.instances.find? handle = some i ∧ s.listeners.find? handle = some i ∧
      (s.calls i).instanceHandle = handle ∧ (s.calls i).listenerHandle = handle
  instances : ∀ i, (s.calls i).phase.begun → ∃ handle, s.instances.find? handle = some i
  listeners : ∀ i, (s.calls i).phase.listens → ∃ handle, s.listeners.find? handle = some i

/-- No call is in progress, and the next handle was not used before. -/
structure Clear (s : Connects) : Prop where
  calls : ∀ i, (s.calls i).phase.inProgress = false
  handle : s.instances.find? s.lastHandle = none

/-- A call begins in the step. -/
def Begins (s s' : Connects) : Prop :=
  ∃ i, (s.calls i).phase.begun = false ∧ (s'.calls i).phase.begun = true

/-- A step in which no call begins before the others have returned. -/
def SerialStep (s s' : Connects) : Prop := ConnectStep s s' ∧ (Begins s s' → s.Clear)

variable {s s' : Connects}

/-- The call in progress has the current handle to itself. -/
structure Serial (s : Connects) : Prop where
  inProgress : ∀ i, (s.calls i).phase.inProgress → s.instances.find? s.lastHandle = some i ∧
    (s.calls i).instanceHandle = s.lastHandle
  starting : ∀ i handle, (s.calls i).phase = .starting handle →
    handle = s.lastHandle ∧ (s.calls i).listenerHandle = s.lastHandle
  added : ∀ i, (s.calls i).phase = .added → s.listeners.find? s.lastHandle = some i ∧
    (s.calls i).listenerHandle = s.lastHandle
  returned : ∀ i handle, (s.calls i).phase = .returned handle →
    s.instances.find? handle = some i ∧ s.listeners.find? handle = some i ∧
      (s.calls i).instanceHandle = handle ∧ (s.calls i).listenerHandle = handle
  begun : ∀ handle i, s.instances.find? handle = some i → (s.calls i).phase.begun
  listens : ∀ handle i, s.listeners.find? handle = some i →
    (s.calls i).phase.listens ∧ s.instances.find? handle = some i

/-- A step of a run without overlapping calls. -/
theorem Serial.step (hs : s.Serial) (h : SerialStep s s') : s'.Serial := by
  obtain ⟨hinProgress, hstarting, hadded, hreturned, hbegun, hlistens⟩ := hs
  obtain ⟨h, hclear⟩ := h
  cases h with
  | insert i hi =>
    have hbegins : s.Clear :=
      hclear ⟨i, by simp [hi, ConnectPhase.begun], by simp [ConnectPhase.begun]⟩
    obtain ⟨hcalls, hfree⟩ := hbegins
    constructor <;> grind [Option.or_eq_some_iff]
  | start i hi => constructor <;> grind
  | addConnection i handle hi => constructor <;> grind [Option.or_eq_some_iff]
  | comeBack i hi => constructor <;> grind

/-- Nothing is in the maps before the first call. -/
theorem serial_initial : initial.Serial := by
  constructor <;> simp [initial, ConnectPhase.inProgress]

/-- A call that has the current handle to itself returns the right one. -/
theorem Serial.handlesCorrect (hs : s.Serial) : s.HandlesCorrect where
  distinct i j handle hi hj := by
    have hfind := (hs.returned i handle hi).1
    rw [(hs.returned j handle hj).1] at hfind
    exact (Option.some.inj hfind).symm
  own := hs.returned
  instances i hi := by
    cases hphase : (s.calls i).phase with
    | notCalled =>
      rw [hphase] at hi
      cases hi
    | returned handle => exact ⟨handle, (hs.returned i handle hphase).1⟩
    | inserted | starting _ | added =>
      exact ⟨s.lastHandle, (hs.inProgress i (by rw [hphase]; rfl)).1⟩
  listeners i hi := by
    cases hphase : (s.calls i).phase with
    | returned handle => exact ⟨handle, (hs.returned i handle hphase).2.1⟩
    | added => exact ⟨s.lastHandle, (hs.added i hphase).1⟩
    | notCalled | inserted | starting _ =>
      rw [hphase] at hi
      cases hi

/-- The instance of a call that begins at a handle in use is lost. -/
theorem Serial.clear_of_handlesCorrect (hs : s.Serial) (h : ConnectStep s s')
    (hs' : s'.HandlesCorrect) (hbegins : Begins s s') : s.Clear := by
  obtain ⟨i, hi, hi'⟩ := hbegins
  obtain ⟨handle, hfind⟩ := hs'.instances i hi'
  have hnot : ∀ handle, s.instances.find? handle ≠ some i := fun handle hfind => by
    rw [hs.begun handle i hfind] at hi
    cases hi
  have hfree : s.instances.find? s.lastHandle = none := by
    cases h <;> grind [Option.or_eq_some_iff]
  refine ⟨fun j => ?_, hfree⟩
  by_contra hj
  rw [(hs.inProgress j (by simpa using hj)).1] at hfree
  cases hfree

/-- A step to a state whose handles are correct. -/
def CorrectStep (s s' : Connects) : Prop := ConnectStep s s' ∧ s'.HandlesCorrect

/-- A run without overlapping calls. -/
theorem serial_run (h : Relation.ReflTransGen SerialStep initial s) : s.Serial := by
  induction h with
  | refl => exact serial_initial
  | tail _ hstep ih => exact ih.step hstep

end Connects

open Connects

/-- The handles are correct in all states of a run exactly if no call in it begins while another is
in progress or while the next handle is in use. -/
theorem connect_correct_iff (s : Connects) :
    Relation.ReflTransGen CorrectStep initial s ↔ Relation.ReflTransGen SerialStep initial s := by
  constructor
  · intro h
    induction h with
    | refl => exact .refl
    | tail _ hstep ih =>
      obtain ⟨hstep, hcorrect⟩ := hstep
      exact ih.tail ⟨hstep, (serial_run ih).clear_of_handlesCorrect hstep hcorrect⟩
  · intro h
    induction h with
    | refl => exact .refl
    | tail hrun hstep ih =>
      exact ih.tail ⟨hstep.1, ((serial_run hrun).step hstep).handlesCorrect⟩

/-- Two calls insert their instances under the handle 0; the second returns the handle 1, which
leads to no instance. -/
theorem connect_overlaps : ∃ s : Connects, Relation.ReflTransGen ConnectStep initial s ∧
    (s.calls 0).phase = .returned 0 ∧ (s.calls 1).phase = .returned 1 ∧ ¬s.HandlesCorrect := by
  have hinserted := ((Relation.ReflTransGen.refl (r := ConnectStep) (a := initial)).tail
    (.insert 0 rfl)).tail (.insert 1 rfl)
  have hfirst := ((hinserted.tail (.start 0 rfl)).tail (.addConnection 0 0 rfl)).tail
    (.comeBack 0 rfl)
  have hsecond := ((hfirst.tail (.start 1 rfl)).tail (.addConnection 1 1 rfl)).tail
    (.comeBack 1 rfl)
  exact ⟨_, hsecond, rfl, rfl, fun h => nomatch (h.own 1 1 rfl).1⟩

end NymphRpc
