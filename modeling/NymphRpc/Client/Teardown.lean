import Mathlib.Algebra.Order.Group.Nat
import Mathlib.Logic.Function.Basic
import Mathlib.Logic.Relation

/-!
# Tearing connections down

Any number of threads call `NymphRemoteServer::disconnect`, the user's and the listeners' own,
which do so once they have left their loop, and any number call `NymphRemoteServer::shutdown`.
A call of `disconnect` keeps `instancesMutex` from the look-up to its end; `shutdown` takes no
lock, and goes through the instances in the order of their handles. The socket of a connection
closes, or throws. A connection is named by its handle, and `callbacks` counts how often the
disconnect callback was invoked for it.
-/

namespace NymphRpc

/-- How far a call of `disconnect` has come; the flag tells whether the socket closed. -/
inductive DisconnectPhase
  | notCalled
  | entered
  | found
  | closed (ok : Bool)
  | calledBack (ok : Bool)
  | removed (ok : Bool)
  | unknownHandle
  | returned (ok : Bool)

/-- A call of `disconnect`. -/
structure DisconnectCall where
  handle : ℕ
  phase : DisconnectPhase

/-- How far a call of `shutdown` has come. -/
inductive ShutdownPhase
  | notCalled
  /-- The instances below this handle were disconnected. -/
  | looking (n : ℕ)
  | reached (handle : ℕ)
  /-- The listener was removed for the first time. -/
  | silenced (handle : ℕ)
  | calledBack (handle : ℕ)
  | cleared
  | returned

/-- The calls and what they share. -/
structure Teardown where
  disconnects : ℕ → DisconnectCall
  shutdowns : ℕ → ShutdownPhase
  instances : ℕ → Bool
  listeners : ℕ → Bool
  instancesMutex : Option ℕ
  callbacks : ℕ → ℕ

namespace DisconnectPhase

/-- The call keeps `instancesMutex`. -/
@[grind] def inSection : DisconnectPhase → Bool
  | found | closed _ | calledBack _ | removed _ => true
  | notCalled | entered | unknownHandle | returned _ => false

/-- The call has invoked the callback, and not left its section yet. -/
@[grind] def hasCalledBack : DisconnectPhase → Bool
  | calledBack _ | removed _ => true
  | notCalled | entered | found | closed _ | unknownHandle | returned _ => false

/-- The socket of the call threw. -/
@[grind] def failed : DisconnectPhase → Bool
  | closed ok | calledBack ok | removed ok | returned ok => !ok
  | notCalled | entered | found | unknownHandle => false

end DisconnectPhase

namespace ShutdownPhase

/-- The instances below this handle were reached, and not cleared yet. -/
@[grind] def reachedBelow : ShutdownPhase → ℕ
  | looking n => n
  | reached handle | silenced handle | calledBack handle => handle + 1
  | notCalled | cleared | returned => 0

/-- The callback was invoked for the instances below this handle. -/
@[grind] def calledBackBelow : ShutdownPhase → ℕ
  | looking n => n
  | reached handle | silenced handle => handle
  | calledBack handle => handle + 1
  | notCalled | cleared | returned => 0

end ShutdownPhase

namespace Teardown

/-- These connections are there, each with its instance and its listener. -/
def connected (handles : ℕ → Bool) : Teardown where
  disconnects _ := ⟨0, .notCalled⟩
  shutdowns _ := .notCalled
  instances := handles
  listeners := handles
  instancesMutex := none
  callbacks _ := 0

/-- The call of `disconnect` goes on to a phase. -/
def goTo (s : Teardown) (c : ℕ) (phase : DisconnectPhase) : Teardown :=
  { s with disconnects := Function.update s.disconnects c ⟨(s.disconnects c).handle, phase⟩ }

/-- The call of `shutdown` goes on to a phase. -/
def shutTo (s : Teardown) (k : ℕ) (phase : ShutdownPhase) : Teardown :=
  { s with shutdowns := Function.update s.shutdowns k phase }

/-- `NymphListener::removeConnection`. -/
def removeConnection (s : Teardown) (handle : ℕ) : Teardown :=
  { s with listeners := Function.update s.listeners handle false }

/-- The disconnect callback is invoked. -/
def callBack (s : Teardown) (handle : ℕ) : Teardown :=
  { s with callbacks := Function.update s.callbacks handle (s.callbacks handle + 1) }

section

variable (s : Teardown) (c k handle i : ℕ) (phase : DisconnectPhase) (shut : ShutdownPhase)

@[simp, grind =] theorem disconnects_goTo : (s.goTo c phase).disconnects i =
    if i = c then ⟨(s.disconnects c).handle, phase⟩ else s.disconnects i := by
  simp only [goTo, Function.update_apply]

@[simp, grind =] theorem shutdowns_goTo : (s.goTo c phase).shutdowns i = s.shutdowns i := rfl

@[simp, grind =] theorem instances_goTo : (s.goTo c phase).instances i = s.instances i := rfl

@[simp, grind =] theorem listeners_goTo : (s.goTo c phase).listeners i = s.listeners i := rfl

@[simp, grind =] theorem callbacks_goTo : (s.goTo c phase).callbacks i = s.callbacks i := rfl

@[simp, grind =] theorem instancesMutex_goTo :
    (s.goTo c phase).instancesMutex = s.instancesMutex := rfl

@[simp, grind =] theorem disconnects_shutTo :
    (s.shutTo k shut).disconnects i = s.disconnects i := rfl

@[simp, grind =] theorem shutdowns_shutTo : (s.shutTo k shut).shutdowns i =
    if i = k then shut else s.shutdowns i := by
  simp only [shutTo, Function.update_apply]

@[simp, grind =] theorem instances_shutTo : (s.shutTo k shut).instances i = s.instances i := rfl

@[simp, grind =] theorem listeners_shutTo : (s.shutTo k shut).listeners i = s.listeners i := rfl

@[simp, grind =] theorem callbacks_shutTo : (s.shutTo k shut).callbacks i = s.callbacks i := rfl

@[simp, grind =] theorem instancesMutex_shutTo :
    (s.shutTo k shut).instancesMutex = s.instancesMutex := rfl

@[simp, grind =] theorem disconnects_removeConnection :
    (s.removeConnection handle).disconnects i = s.disconnects i := rfl

@[simp, grind =] theorem shutdowns_removeConnection :
    (s.removeConnection handle).shutdowns i = s.shutdowns i := rfl

@[simp, grind =] theorem instances_removeConnection :
    (s.removeConnection handle).instances i = s.instances i := rfl

@[simp, grind =] theorem listeners_removeConnection : (s.removeConnection handle).listeners i =
    if i = handle then false else s.listeners i := by
  simp only [removeConnection, Function.update_apply]

@[simp, grind =] theorem callbacks_removeConnection :
    (s.removeConnection handle).callbacks i = s.callbacks i := rfl

@[simp, grind =] theorem instancesMutex_removeConnection :
    (s.removeConnection handle).instancesMutex = s.instancesMutex := rfl

@[simp, grind =] theorem disconnects_callBack :
    (s.callBack handle).disconnects i = s.disconnects i := rfl

@[simp, grind =] theorem shutdowns_callBack : (s.callBack handle).shutdowns i = s.shutdowns i := rfl

@[simp, grind =] theorem instances_callBack : (s.callBack handle).instances i = s.instances i := rfl

@[simp, grind =] theorem listeners_callBack : (s.callBack handle).listeners i = s.listeners i := rfl

@[simp, grind =] theorem callbacks_callBack : (s.callBack handle).callbacks i =
    if i = handle then s.callbacks i + 1 else s.callbacks i := by
  simp only [callBack, Function.update_apply]
  split_ifs with h
  · rw [h]
  · rfl

@[simp, grind =] theorem instancesMutex_callBack :
    (s.callBack handle).instancesMutex = s.instancesMutex := rfl

end

end Teardown

open Teardown

/-- The steps of the calls. -/
inductive TeardownStep : Teardown → Teardown → Prop
  | disconnect {s : Teardown} (c handle : ℕ) (hc : (s.disconnects c).phase = .notCalled) :
      TeardownStep s { s with disconnects := Function.update s.disconnects c ⟨handle, .entered⟩ }
  /-- `instancesMutex` is given back at once. -/
  | notFound {s : Teardown} (c : ℕ) (hc : (s.disconnects c).phase = .entered)
      (hfree : s.instancesMutex = none) (hnone : s.instances (s.disconnects c).handle = false) :
      TeardownStep s (s.goTo c .unknownHandle)
  | find {s : Teardown} (c : ℕ) (hc : (s.disconnects c).phase = .entered)
      (hfree : s.instancesMutex = none) (hsome : s.instances (s.disconnects c).handle = true) :
      TeardownStep s { s.goTo c .found with instancesMutex := some c }
  /-- The socket closes, or throws. -/
  | close {s : Teardown} (c : ℕ) (ok : Bool) (hc : (s.disconnects c).phase = .found) :
      TeardownStep s (s.goTo c (.closed ok))
  | callBack {s : Teardown} (c : ℕ) (ok : Bool) (hc : (s.disconnects c).phase = .closed ok) :
      TeardownStep s ((s.goTo c (.calledBack ok)).callBack (s.disconnects c).handle)
  | removeConnection {s : Teardown} (c : ℕ) (ok : Bool)
      (hc : (s.disconnects c).phase = .calledBack ok) :
      TeardownStep s ((s.goTo c (.removed ok)).removeConnection (s.disconnects c).handle)
  /-- The instance stays where it is. -/
  | fail {s : Teardown} (c : ℕ) (hc : (s.disconnects c).phase = .removed false) :
      TeardownStep s { s.goTo c (.returned false) with instancesMutex := none }
  | erase {s : Teardown} (c : ℕ) (hc : (s.disconnects c).phase = .removed true) :
      TeardownStep s { s.goTo c (.returned true) with
        instances := Function.update s.instances (s.disconnects c).handle false
        instancesMutex := none }
  | shutdown {s : Teardown} (k : ℕ) (hk : s.shutdowns k = .notCalled) :
      TeardownStep s (s.shutTo k (.looking 0))
  /-- The iterator goes on to the next instance. -/
  | reach {s : Teardown} (k n handle : ℕ) (hk : s.shutdowns k = .looking n) (hle : n ≤ handle)
      (hsome : s.instances handle = true)
      (hnext : ∀ i, n ≤ i → s.instances i = true → handle ≤ i) :
      TeardownStep s (s.shutTo k (.reached handle))
  | silence {s : Teardown} (k handle : ℕ) (hk : s.shutdowns k = .reached handle) :
      TeardownStep s ((s.shutTo k (.silenced handle)).removeConnection handle)
  /-- Whether the socket closes makes no difference here. -/
  | callBackAll {s : Teardown} (k handle : ℕ) (hk : s.shutdowns k = .silenced handle) :
      TeardownStep s ((s.shutTo k (.calledBack handle)).callBack handle)
  | silenceAgain {s : Teardown} (k handle : ℕ) (hk : s.shutdowns k = .calledBack handle) :
      TeardownStep s ((s.shutTo k (.looking (handle + 1))).removeConnection handle)
  /-- There is no further instance; all are removed from the map. -/
  | clear {s : Teardown} (k n : ℕ) (hk : s.shutdowns k = .looking n)
      (hnone : ∀ i, n ≤ i → s.instances i = false) :
      TeardownStep s { s.shutTo k .cleared with instances := fun _ => false }
  /-- `NymphListener::stop`. -/
  | stop {s : Teardown} (k : ℕ) (hk : s.shutdowns k = .cleared) :
      TeardownStep s { s.shutTo k .returned with listeners := fun _ => false }

namespace Teardown

/-- The callback was invoked once for each connection that is no longer there, and never more
often; a handle that a call of `disconnect` has found is in neither map when the call returns. -/
structure TornDownOnce (handles : ℕ → Bool) (s : Teardown) : Prop where
  atMostOnce : ∀ handle, s.callbacks handle ≤ 1
  torn : ∀ handle, handles handle = true → s.instances handle = false → s.callbacks handle = 1
  gone : ∀ c ok, (s.disconnects c).phase = .returned ok →
    s.instances (s.disconnects c).handle = false ∧ s.listeners (s.disconnects c).handle = false

/-- The socket of no call of `disconnect` has thrown, no such call is at work on a handle that a
call of `shutdown` has reached, and no two of those have reached the same instance. -/
structure Orderly (s : Teardown) : Prop where
  closes : ∀ c, (s.disconnects c).phase.failed = false
  apart : ∀ c k, (s.disconnects c).phase.inSection = true →
    (s.shutdowns k).reachedBelow ≤ (s.disconnects c).handle
  alone : ∀ k k' handle, s.instances handle = true → handle < (s.shutdowns k).reachedBelow →
    handle < (s.shutdowns k').reachedBelow → k = k'

/-- A step from an orderly state. -/
def OrderlyStep (s s' : Teardown) : Prop := s.Orderly ∧ TeardownStep s s'

/-- How far the connections are torn down. -/
structure Tearing (handles : ℕ → Bool) (s : Teardown) : Prop where
  mutex : ∀ c, (s.disconnects c).phase.inSection = true → s.instancesMutex = some c
  found : ∀ c, (s.disconnects c).phase.inSection = true →
    s.instances (s.disconnects c).handle = true
  reached : ∀ k handle, (s.shutdowns k = .reached handle ∨ s.shutdowns k = .silenced handle ∨
    s.shutdowns k = .calledBack handle) → s.instances handle = true
  connected : ∀ handle, s.instances handle = true → handles handle = true
  touched : ∀ handle, s.callbacks handle ≠ 0 → handles handle = true ∧
    (s.instances handle = false ∨
      (∃ c, (s.disconnects c).phase.hasCalledBack = true ∧ (s.disconnects c).handle = handle) ∨
      ∃ k, handle < (s.shutdowns k).calledBackBelow)
  disconnecting : ∀ c, (s.disconnects c).phase.hasCalledBack = true →
    s.callbacks (s.disconnects c).handle = 1
  shutting : ∀ k handle, s.instances handle = true → handle < (s.shutdowns k).calledBackBelow →
    s.callbacks handle = 1
  torn : ∀ handle, handles handle = true → s.instances handle = false → s.callbacks handle = 1
  removed : ∀ c ok, (s.disconnects c).phase = .removed ok →
    s.listeners (s.disconnects c).handle = false
  gone : ∀ c ok, (s.disconnects c).phase = .returned ok →
    s.instances (s.disconnects c).handle = false ∧ s.listeners (s.disconnects c).handle = false

variable {handles : ℕ → Bool} {s s' : Teardown}

/-- A call has invoked the callback only in its section. -/
theorem inSection_of_hasCalledBack {phase : DisconnectPhase} (h : phase.hasCalledBack = true) :
    phase.inSection = true := by
  cases phase <;> first | rfl | cases h

/-- A call of `shutdown` invokes the callback only for what it has reached. -/
theorem calledBackBelow_le (phase : ShutdownPhase) :
    phase.calledBackBelow ≤ phase.reachedBelow := by
  cases phase <;> grind

/-- No instance comes back. -/
theorem instances_step (h : TeardownStep s s') {handle : ℕ} (hhandle : s.instances handle = false) :
    s'.instances handle = false := by
  cases h <;> grind [Function.update_apply]

/-- No listener comes back. -/
theorem listeners_step (h : TeardownStep s s') {handle : ℕ} (hhandle : s.listeners handle = false) :
    s'.listeners handle = false := by
  cases h <;> grind [Function.update_apply]

/-- A call of `disconnect` that has invoked the callback removes its instance, unless the socket
has thrown. -/
theorem hasCalledBack_step (h : TeardownStep s s') {c : ℕ}
    (hc : (s.disconnects c).phase.hasCalledBack = true)
    (hok : (s.disconnects c).phase.failed = false) :
    (s'.disconnects c).phase.hasCalledBack = true ∧
        (s'.disconnects c).handle = (s.disconnects c).handle ∨
      s'.instances (s.disconnects c).handle = false := by
  cases h <;> grind [Function.update_apply]

/-- A call of `shutdown` goes on, and removes all instances in the end. -/
theorem calledBackBelow_step (h : TeardownStep s s') (k : ℕ) :
    (s.shutdowns k).calledBackBelow ≤ (s'.shutdowns k).calledBackBelow ∨
      ∀ handle, s'.instances handle = false := by
  cases h <;> grind

/-- The callback is invoked by a call that is at the handle. -/
theorem callbacks_step (h : TeardownStep s s') (handle : ℕ) :
    s'.callbacks handle = s.callbacks handle ∨
      (∃ c ok, (s.disconnects c).phase = .closed ok ∧ (s.disconnects c).handle = handle ∧
        (s'.disconnects c).phase.hasCalledBack = true ∧ (s'.disconnects c).handle = handle) ∨
      ∃ k, s.shutdowns k = .silenced handle ∧ handle < (s'.shutdowns k).calledBackBelow := by
  cases h with
  | callBack c ok hc =>
    by_cases hhandle : (s.disconnects c).handle = handle
    · exact .inr (.inl ⟨c, ok, hc, hhandle, by grind, by grind⟩)
    · exact .inl (by grind)
  | callBackAll k i hk =>
    by_cases hhandle : i = handle
    · exact .inr (.inr ⟨k, hhandle ▸ hk, by grind⟩)
    · exact .inl (by grind)
  | _ => exact .inl (by grind)

/-- A call of `disconnect` has invoked the callback before, or has just done so. -/
theorem newlyCalledBack (h : TeardownStep s s') {c : ℕ}
    (hc : (s'.disconnects c).phase.hasCalledBack = true) :
    ((s.disconnects c).phase.hasCalledBack = true ∧
        (s'.disconnects c).handle = (s.disconnects c).handle) ∨
      ∃ ok, (s.disconnects c).phase = .closed ok ∧
        (s'.disconnects c).handle = (s.disconnects c).handle ∧
        s'.callbacks (s.disconnects c).handle = s.callbacks (s.disconnects c).handle + 1 := by
  cases h <;> grind [Function.update_apply]

/-- A call of `shutdown` has come by a handle before, or has just done so, or there was nothing. -/
theorem newlyCalledBackBelow (h : TeardownStep s s') {k handle : ℕ}
    (hk : handle < (s'.shutdowns k).calledBackBelow) :
    handle < (s.shutdowns k).calledBackBelow ∨
      (s.shutdowns k = .silenced handle ∧ s'.callbacks handle = s.callbacks handle + 1) ∨
      s.instances handle = false := by
  cases h <;> grind

/-- An instance is removed by a call that has invoked the callback for it. -/
theorem removed_instance (h : TeardownStep s s') {handle : ℕ} (hsome : s.instances handle = true)
    (hnone : s'.instances handle = false) :
    (∃ c, (s.disconnects c).phase.hasCalledBack = true ∧ (s.disconnects c).handle = handle) ∨
      ∃ k, handle < (s.shutdowns k).calledBackBelow := by
  cases h <;> grind [Function.update_apply]

/-- A call that has found its handle returns from its section, without the instance if the socket
closed. -/
theorem newlyReturned (h : TeardownStep s s') {c : ℕ} {ok : Bool}
    (hc : (s'.disconnects c).phase = .returned ok) :
    ((s.disconnects c).phase = .returned ok ∧
        (s'.disconnects c).handle = (s.disconnects c).handle) ∨
      ((s.disconnects c).phase = .removed ok ∧
        (s'.disconnects c).handle = (s.disconnects c).handle ∧
        (ok = true → s'.instances (s.disconnects c).handle = false)) := by
  cases h <;> grind [Function.update_apply]

namespace Tearing

section

variable (hs : s.Tearing handles) (h : TeardownStep s s')

include hs h

/-- Whoever is in the section keeps `instancesMutex`. -/
theorem mutex_step (c : ℕ) (hc : (s'.disconnects c).phase.inSection = true) :
    s'.instancesMutex = some c := by
  have hmutex := hs.mutex
  cases h <;> grind [Function.update_apply]

/-- Only the connections of the beginning are there. -/
theorem connected_step (handle : ℕ) (hhandle : s'.instances handle = true) :
    handles handle = true := by
  by_contra hnot
  have hnone : s.instances handle = false := by
    by_contra hsome
    exact hnot (hs.connected handle (by simpa using hsome))
  rw [instances_step h hnone] at hhandle
  cases hhandle

/-- A call has removed its listener before it leaves its section. -/
theorem removed_step (c : ℕ) (ok : Bool) (hc : (s'.disconnects c).phase = .removed ok) :
    s'.listeners (s'.disconnects c).handle = false := by
  have hremoved := hs.removed
  cases h <;> grind [Function.update_apply]

variable (ho : s.Orderly)

include ho

/-- What a call has found stays there while the call is in its section. -/
theorem found_step (c : ℕ) (hc : (s'.disconnects c).phase.inSection = true) :
    s'.instances (s'.disconnects c).handle = true := by
  have hmutex := hs.mutex
  have hfound := hs.found
  have hapart := ho.apart
  cases h <;> grind [Function.update_apply]

/-- What a call of `shutdown` has reached stays there while the call is at it. -/
theorem reached_step (k handle : ℕ) (hk : s'.shutdowns k = .reached handle ∨
    s'.shutdowns k = .silenced handle ∨ s'.shutdowns k = .calledBack handle) :
    s'.instances handle = true := by
  have hreached := hs.reached
  have hapart := ho.apart
  have halone := ho.alone
  cases h <;> grind [Function.update_apply]

/-- The callback is invoked for a connection that is about to go, or gone. -/
theorem touched_step (handle : ℕ) (hhandle : s'.callbacks handle ≠ 0) :
    handles handle = true ∧ (s'.instances handle = false ∨
      (∃ c, (s'.disconnects c).phase.hasCalledBack = true ∧ (s'.disconnects c).handle = handle) ∨
      ∃ k, handle < (s'.shutdowns k).calledBackBelow) := by
  rcases callbacks_step h handle with hsame | ⟨c, ok, hc, rfl, hc', hhandle'⟩ | ⟨k, hk, hk'⟩
  · obtain ⟨hconnected, hcase⟩ := hs.touched handle (hsame ▸ hhandle)
    refine ⟨hconnected, ?_⟩
    rcases hcase with hnone | ⟨c, hc, rfl⟩ | ⟨k, hk⟩
    · exact .inl (instances_step h hnone)
    · rcases hasCalledBack_step h hc (ho.closes c) with hc' | hnone
      · exact .inr (.inl ⟨c, hc'⟩)
      · exact .inl hnone
    · rcases calledBackBelow_step h k with hle | hnone
      · exact .inr (.inr ⟨k, lt_of_lt_of_le hk hle⟩)
      · exact .inl (hnone handle)
  · exact ⟨hs.connected _ (hs.found c (by rw [hc]; rfl)), .inr (.inl ⟨c, hc', hhandle'⟩)⟩
  · exact ⟨hs.connected _ (hs.reached k handle (.inr (.inl hk))), .inr (.inr ⟨k, hk'⟩)⟩

omit h

/-- The callback was not invoked for the connection that a call has found and closed. -/
theorem callbacks_of_closed {c : ℕ} {ok : Bool} (hc : (s.disconnects c).phase = .closed ok) :
    s.callbacks (s.disconnects c).handle = 0 := by
  have hsection : (s.disconnects c).phase.inSection = true := by rw [hc]; rfl
  by_contra hne
  obtain ⟨-, hnone | ⟨c', hc', -⟩ | ⟨k, hk⟩⟩ := hs.touched _ hne
  · rw [hs.found c hsection] at hnone
    cases hnone
  · -- only one call is in its section
    have hmutex := hs.mutex c' (inSection_of_hasCalledBack hc')
    rw [hs.mutex c hsection] at hmutex
    obtain rfl := Option.some.inj hmutex
    rw [hc] at hc'
    cases hc'
  · have hle := ho.apart c k hsection
    have hle' := calledBackBelow_le (s.shutdowns k)
    omega

/-- The callback was not invoked for the connection that a call of `shutdown` is at. -/
theorem callbacks_of_silenced {k handle : ℕ} (hk : s.shutdowns k = .silenced handle) :
    s.callbacks handle = 0 := by
  have hbelow : handle < (s.shutdowns k).reachedBelow := by
    rw [hk]
    exact Nat.lt_succ_self handle
  have hsome := hs.reached k handle (.inr (.inl hk))
  by_contra hne
  obtain ⟨-, hnone | ⟨c, hc, rfl⟩ | ⟨k', hk'⟩⟩ := hs.touched _ hne
  · rw [hsome] at hnone
    cases hnone
  · have hle := ho.apart c k (inSection_of_hasCalledBack hc)
    omega
  · have hle := calledBackBelow_le (s.shutdowns k')
    obtain rfl := ho.alone k k' handle hsome hbelow (by omega)
    rw [hk] at hk'
    exact lt_irrefl handle hk'

include h

/-- A callback that was invoked once is not invoked again. -/
theorem callbacks_stay {handle : ℕ} (hone : s.callbacks handle = 1) : s'.callbacks handle = 1 := by
  rcases callbacks_step h handle with hsame | ⟨c, ok, hc, rfl, -⟩ | ⟨k, hk, -⟩
  · exact hsame.trans hone
  · rw [hs.callbacks_of_closed ho hc] at hone
    cases hone
  · rw [hs.callbacks_of_silenced ho hk] at hone
    cases hone

/-- A call of `disconnect` invokes the callback once. -/
theorem disconnecting_step (c : ℕ) (hc : (s'.disconnects c).phase.hasCalledBack = true) :
    s'.callbacks (s'.disconnects c).handle = 1 := by
  rcases newlyCalledBack h hc with ⟨hc, hhandle⟩ | ⟨ok, hc, hhandle, hmore⟩
  · rw [hhandle]
    exact hs.callbacks_stay h ho (hs.disconnecting c hc)
  · rw [hhandle, hmore, hs.callbacks_of_closed ho hc]

/-- A call of `shutdown` invokes the callback once for each instance. -/
theorem shutting_step (k handle : ℕ) (hhandle : s'.instances handle = true)
    (hk : handle < (s'.shutdowns k).calledBackBelow) : s'.callbacks handle = 1 := by
  have hsome : s.instances handle = true := by
    by_contra hnone
    rw [instances_step h (by simpa using hnone)] at hhandle
    cases hhandle
  rcases newlyCalledBackBelow h hk with hk | ⟨hk, hmore⟩ | hnone
  · exact hs.callbacks_stay h ho (hs.shutting k handle hsome hk)
  · rw [hmore, hs.callbacks_of_silenced ho hk]
  · rw [hsome] at hnone
    cases hnone

/-- The callback was invoked for a connection that is gone. -/
theorem torn_step (handle : ℕ) (hconnected : handles handle = true)
    (hnone : s'.instances handle = false) : s'.callbacks handle = 1 := by
  apply hs.callbacks_stay h ho
  cases hsome : s.instances handle with
  | false => exact hs.torn handle hconnected hsome
  | true =>
    rcases removed_instance h hsome hnone with ⟨c, hc, rfl⟩ | ⟨k, hk⟩
    · exact hs.disconnecting c hc
    · exact hs.shutting k handle hsome hk

/-- A call that has found its handle leaves it in neither map. -/
theorem gone_step (c : ℕ) (ok : Bool) (hc : (s'.disconnects c).phase = .returned ok) :
    s'.instances (s'.disconnects c).handle = false ∧
      s'.listeners (s'.disconnects c).handle = false := by
  rcases newlyReturned h hc with ⟨hc, hhandle⟩ | ⟨hc, hhandle, hnone⟩
  · obtain ⟨hinstance, hlistener⟩ := hs.gone c ok hc
    rw [hhandle]
    exact ⟨instances_step h hinstance, listeners_step h hlistener⟩
  · rw [hhandle]
    have hok : ok = true := by
      have hcloses := ho.closes c
      rw [hc] at hcloses
      simpa [DisconnectPhase.failed] using hcloses
    exact ⟨hnone hok, listeners_step h (hs.removed c ok hc)⟩

/-- An orderly step. -/
theorem step : s'.Tearing handles where
  mutex := hs.mutex_step h
  found := hs.found_step h ho
  reached := hs.reached_step h ho
  connected := hs.connected_step h
  touched := hs.touched_step h ho
  disconnecting := hs.disconnecting_step h ho
  shutting := hs.shutting_step h ho
  torn := hs.torn_step h ho
  removed := hs.removed_step h
  gone := hs.gone_step h ho

end

/-- No callback is invoked twice. -/
theorem tornDownOnce (hs : s.Tearing handles) : s.TornDownOnce handles where
  atMostOnce handle := by
    by_cases hzero : s.callbacks handle = 0
    · omega
    · obtain ⟨hconnected, hcase⟩ := hs.touched handle hzero
      cases hsome : s.instances handle with
      | false => exact (hs.torn handle hconnected hsome).le
      | true =>
        rcases hcase with hnone | ⟨c, hc, rfl⟩ | ⟨k, hk⟩
        · rw [hsome] at hnone
          cases hnone
        · exact (hs.disconnecting c hc).le
        · exact (hs.shutting k handle hsome hk).le
  torn := hs.torn
  gone := hs.gone

end Tearing

/-- Every connection is there, and no callback was invoked. -/
theorem tearing_connected : (connected handles).Tearing handles := by
  constructor <;>
    simp [connected, DisconnectPhase.inSection, DisconnectPhase.hasCalledBack,
      ShutdownPhase.calledBackBelow]

/-- Without calls of `shutdown` it is enough that the sockets close. -/
theorem orderly_of_closes (hk : s.shutdowns = fun _ => .notCalled)
    (hc : ∀ c, (s.disconnects c).phase.failed = false) : s.Orderly where
  closes := hc
  apart c k _ := by
    rw [hk]
    exact Nat.zero_le _
  alone k k' handle _ hlt := by
    rw [hk] at hlt
    cases hlt

end Teardown

open Teardown

/-- In a run whose steps are taken from orderly states, every connection is torn down once. -/
theorem tornDownOnce_of_orderly {handles : ℕ → Bool} {s : Teardown}
    (h : Relation.ReflTransGen OrderlyStep (connected handles) s) : s.TornDownOnce handles := by
  have htearing : s.Tearing handles := by
    induction h with
    | refl => exact tearing_connected
    | tail _ hstep ih => exact ih.step hstep.2 hstep.1
  exact htearing.tornDownOnce

/-- The connection 0 only. -/
def single : ℕ → Bool := fun handle => handle == 0

/-- A connection that the user disconnects is torn down once. -/
theorem tornDownOnce_disconnect : ∃ s : Teardown,
    Relation.ReflTransGen OrderlyStep (connected single) s ∧
      (s.disconnects 0).phase = .returned true ∧ s.TornDownOnce single := by
  have hentered := (Relation.ReflTransGen.refl (r := OrderlyStep) (a := connected single)).tail
    ⟨orderly_of_closes rfl fun _ => rfl, .disconnect 0 0 rfl⟩
  have hclosed := (hentered.tail ⟨orderly_of_closes rfl fun c => by cases c <;> rfl,
    .find 0 rfl rfl rfl⟩).tail ⟨orderly_of_closes rfl fun c => by cases c <;> rfl,
      .close 0 true rfl⟩
  have hremoved := (hclosed.tail ⟨orderly_of_closes rfl fun c => by cases c <;> rfl,
    .callBack 0 true rfl⟩).tail ⟨orderly_of_closes rfl fun c => by cases c <;> rfl,
      .removeConnection 0 true rfl⟩
  have herased := hremoved.tail ⟨orderly_of_closes rfl fun c => by cases c <;> rfl, .erase 0 rfl⟩
  exact ⟨_, herased, rfl, tornDownOnce_of_orderly herased⟩

/-- A call whose socket throws leaves its handle in the map, and the listener calls back again. So
does a listener that was stopped by `shutdown` and comes before the instances are removed. -/
theorem not_tornDownOnce :
    (∃ s : Teardown, Relation.ReflTransGen TeardownStep (connected single) s ∧
      (s.disconnects 0).phase = .returned false ∧ s.instances (s.disconnects 0).handle = true ∧
      s.callbacks 0 = 2 ∧ ¬s.TornDownOnce single) ∧
    ∃ s : Teardown, Relation.ReflTransGen TeardownStep (connected single) s ∧
      (∀ c, (s.disconnects c).phase.failed = false) ∧ s.callbacks 0 = 2 ∧
      ¬s.TornDownOnce single := by
  have hinitial := Relation.ReflTransGen.refl (r := TeardownStep) (a := connected single)
  constructor
  · have hthrown := ((hinitial.tail (.disconnect 0 0 rfl)).tail (.find 0 rfl rfl rfl)).tail
      (.close 0 false rfl)
    have hfailed := ((hthrown.tail (.callBack 0 false rfl)).tail
      (.removeConnection 0 false rfl)).tail (.fail 0 rfl)
    have hagain := (((hfailed.tail (.disconnect 1 0 rfl)).tail (.find 1 rfl rfl rfl)).tail
      (.close 1 true rfl)).tail (.callBack 1 true rfl)
    exact ⟨_, hagain, rfl, rfl, rfl, fun h => absurd (h.gone 0 false rfl).1 (by decide)⟩
  · have hsilenced := ((hinitial.tail (.shutdown 0 rfl)).tail
      (.reach 0 0 0 rfl (Nat.le_refl 0) rfl fun i _ _ => Nat.zero_le i)).tail (.silence 0 0 rfl)
    have hagain := ((((hsilenced.tail (.callBackAll 0 0 rfl)).tail (.disconnect 0 0 rfl)).tail
      (.find 0 rfl rfl rfl)).tail (.close 0 true rfl)).tail (.callBack 0 true rfl)
    refine ⟨_, hagain, fun c => ?_, rfl, fun h => absurd (h.atMostOnce 0) (by decide)⟩
    cases c <;> rfl

end NymphRpc
