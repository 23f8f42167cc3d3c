import NymphRpc.Base.Locks
import NymphRpc.Client.Callbacks

/-!
# The mutexes of a server

The sessions and the threads of the application call the functions of `NymphRemoteClient`, and so
does a method, which runs while `methodsMutex` is locked: it can register methods, call callbacks
or be the built-in one. The mutexes are recursive, and all functions lock them in one order.

What a call finds in the tables and the sessions, and what a method calls, is chosen when the call
is made, so a run here may find what is not there. A method returns; what becomes of the mutex of
one that throws is seen in the sessions.
-/

namespace NymphRpc

open Locks

/-- The mutexes of `NymphRemoteClient`, and `handleMutex` of `NymphSession`. -/
inductive ServerMutex
  | methods
  | sessions
  | callbacks
  | handle
  deriving DecidableEq

/-- The order in which they are locked. -/
def ServerMutex.order : ServerMutex → ℕ
  | .methods => 0
  | .sessions => 1
  | .callbacks => 2
  | .handle => 3

/-- What is done while a mutex is locked. -/
inductive ServerWork
  | registry (call : RegistryCall)
  | serializeMethods
  | enterMethod (methodId : UInt32)
  | returnMethod (methodId : UInt32)
  | callback (call : CallbackCall)
  | send (handle : ℤ) (name : Bytes)
  | addSession (handle : ℤ)
  | removeSession (handle : ℤ)
  | nextHandle

/-- The mutex that guards it. -/
def ServerWork.guard : ServerWork → ServerMutex
  | .registry _ | .serializeMethods | .enterMethod _ | .returnMethod _ => .methods
  | .send _ _ | .addSession _ | .removeSession _ => .sessions
  | .callback _ => .callbacks
  | .nextHandle => .handle

/-- The calls that a thread makes, with what they find. -/
inductive ServerCall
  | registerMethod (name : Bytes) (method : NymphMethod)
  | removeMethod (name : Bytes)
  /-- The method makes calls of its own if it is found. -/
  | callMethodCallback (methodId : UInt32) (found : Bool) (calls : List ServerCall)
  /-- The built-in callback. -/
  | syncMethods (synced : Bool)
  | registerCallback (name : Bytes) (method : FlaggedMethod)
  | removeCallback (name : Bytes)
  | callCallback (handle : ℤ) (name : Bytes) (handleFound nameFound : Bool)
  | addSession (handle : ℤ)
  | removeSession (handle : ℤ)
  /-- The handle that `NymphSession::run` takes. -/
  | nextHandle

/-- A section of a mutex. -/
def locked (l : ServerMutex) (actions : List (Action ServerMutex ServerWork)) :
    List (Action ServerMutex ServerWork) :=
  .lock l :: (actions ++ [.unlock l])

mutual

/-- What a call does. -/
def ServerCall.actions : ServerCall → List (Action ServerMutex ServerWork)
  | .registerMethod name method =>
    locked .methods [.work (.registry (.registerMethod name method))]
  | .removeMethod name => locked .methods [.work (.registry (.removeMethod name))]
  | .callMethodCallback methodId found calls =>
    locked .methods (if found then
      .work (.enterMethod methodId) :: (ServerCall.allActions calls ++
        [.work (.returnMethod methodId)])
    else [])
  | .syncMethods synced => if synced then [] else locked .methods [.work .serializeMethods]
  | .registerCallback name method =>
    locked .callbacks [.work (.callback (.registerCallback name method))]
  | .removeCallback name => locked .callbacks [.work (.callback (.removeCallback name))]
  | .callCallback handle name handleFound nameFound =>
    locked .sessions (if handleFound then
      locked .callbacks (if nameFound then [.work (.send handle name)] else [])
    else [])
  | .addSession handle => locked .sessions [.work (.addSession handle)]
  | .removeSession handle => locked .sessions [.work (.removeSession handle)]
  | .nextHandle => locked .handle [.work .nextHandle]

/-- What calls do in order. -/
def ServerCall.allActions : List ServerCall → List (Action ServerMutex ServerWork)
  | [] => []
  | call :: calls => call.actions ++ ServerCall.allActions calls

end

/-- The threads of a server. -/
abbrev ServerThreads := System ServerMutex ServerWork

namespace ServerThreads

/-- Before the first call. -/
def initial : ServerThreads := ⟨fun _ => ⟨[], []⟩, []⟩

/-- The calls in a log that change the methods. -/
def registryCalls (log : List (ℕ × ServerWork)) : List RegistryCall :=
  log.filterMap fun e => match e.2 with
    | .registry call => some call
    | _ => none

/-- The methods after what was done so far, unless an absent one was removed. -/
def registry (s : ServerThreads) : Option NymphRemoteClient :=
  NymphRemoteClient.applyAll .init (registryCalls s.log)

end ServerThreads

open ServerThreads

/-- A thread makes a call when it is through with the last one, or gets on with it. -/
inductive ServerThreadStep : ServerThreads → ServerThreads → Prop
  | call {s : ServerThreads} (i : ℕ) (c : ServerCall) (hi : (s.threads i).todo = []) :
      ServerThreadStep s (s.set i ⟨(s.threads i).held, c.actions⟩)
  | step {s s' : ServerThreads} (h : Step s s') : ServerThreadStep s s'

/-- The states that the threads can get into. -/
def ServerThreads.Reachable (s : ServerThreads) : Prop :=
  Relation.ReflTransGen ServerThreadStep initial s

namespace ServerThreads

/-- The thread keeps the order of the mutexes. -/
abbrev Keeps (held : List ServerMutex) (todo : List (Action ServerMutex ServerWork)) : Prop :=
  Ordered ServerMutex.order ServerWork.guard held todo

/-- A section keeps the order if its mutex does, and its actions with what comes after. -/
theorem keeps_section {l : ServerMutex} {held : List ServerMutex}
    {actions rest : List (Action ServerMutex ServerWork)}
    (hl : l ∈ held ∨ ∀ k ∈ held, k.order < l.order)
    (hactions : Keeps (l :: held) (actions ++ .unlock l :: rest)) :
    Keeps held (locked l actions ++ rest) := by
  rw [locked, List.cons_append, List.append_assoc, List.singleton_append]
  exact ⟨hl, hactions⟩

/-- The mutex is unlocked at its end. -/
theorem keeps_unlock {l : ServerMutex} {held : List ServerMutex}
    {rest : List (Action ServerMutex ServerWork)} (hrest : Keeps held rest) :
    Keeps (l :: held) (.unlock l :: rest) := by
  refine ⟨List.mem_cons_self, ?_⟩
  rw [List.erase_cons_head]
  exact hrest

/-- A section with one piece of work keeps the order. -/
theorem keeps_work {a : ServerWork} {l : ServerMutex} (hguard : a.guard = l)
    {held : List ServerMutex} {rest : List (Action ServerMutex ServerWork)}
    (hl : l ∈ held ∨ ∀ k ∈ held, k.order < l.order) (hrest : Keeps held rest) :
    Keeps held (locked l [.work a] ++ rest) := by
  apply keeps_section hl
  refine ⟨?_, keeps_unlock hrest⟩
  rw [hguard]
  exact List.mem_cons_self

/-- A mutex can be locked if no mutex is, or only `methodsMutex`. -/
theorem lockable {held : List ServerMutex} (hheld : ∀ k ∈ held, k = .methods) (l : ServerMutex) :
    l ∈ held ∨ ∀ k ∈ held, k.order < l.order := by
  cases held with
  | nil => exact .inr (by simp)
  | cons k held =>
    by_cases hl : l = .methods
    · left
      rw [hl, ← hheld k List.mem_cons_self]
      exact List.mem_cons_self
    · right
      intro k hk
      rw [hheld k hk]
      cases l <;> simp_all [ServerMutex.order]

mutual

/-- Every call keeps the order, also one that a method makes. -/
theorem keeps_actions {held : List ServerMutex} (hheld : ∀ k ∈ held, k = .methods)
    {rest : List (Action ServerMutex ServerWork)} (hrest : Keeps held rest) (c : ServerCall) :
    Keeps held (c.actions ++ rest) := by
  cases c with
  | registerMethod | removeMethod | registerCallback | removeCallback | addSession |
    removeSession | nextHandle =>
    rw [ServerCall.actions]
    exact keeps_work (by rfl) (lockable hheld _) hrest
  | syncMethods synced =>
    rw [ServerCall.actions]
    cases synced with
    | false =>
      rw [if_neg Bool.false_ne_true]
      exact keeps_work (by rfl) (lockable hheld _) hrest
    | true => exact hrest
  | callCallback handle name handleFound nameFound =>
    rw [ServerCall.actions]
    apply keeps_section (lockable hheld .sessions)
    cases handleFound with
    | false => exact keeps_unlock hrest
    | true =>
      have hcallbacks : ∀ k ∈ ServerMutex.sessions :: held,
          k.order < ServerMutex.callbacks.order := by
        intro k hk
        rcases List.mem_cons.mp hk with rfl | hold
        · exact Nat.lt_succ_self 1
        · rw [hheld k hold]
          exact Nat.zero_lt_succ 1
      apply keeps_section (.inr hcallbacks)
      have hunlock : Keeps (ServerMutex.callbacks :: ServerMutex.sessions :: held)
          (.unlock .callbacks :: .unlock .sessions :: rest) := keeps_unlock (keeps_unlock hrest)
      cases nameFound with
      | false => exact hunlock
      | true => exact ⟨List.mem_cons_of_mem _ List.mem_cons_self, hunlock⟩
  | callMethodCallback methodId found calls =>
    rw [ServerCall.actions]
    apply keeps_section (lockable hheld .methods)
    cases found with
    | false => exact keeps_unlock hrest
    | true =>
      have hmethods : ∀ k ∈ ServerMutex.methods :: held, k = .methods := by
        intro k hk
        rcases List.mem_cons.mp hk with rfl | hold
        · rfl
        · exact hheld k hold
      have hreturn : Keeps (ServerMutex.methods :: held)
          (.work (.returnMethod methodId) :: .unlock .methods :: rest) :=
        ⟨List.mem_cons_self, keeps_unlock hrest⟩
      rw [if_pos rfl, List.cons_append, List.append_assoc, List.singleton_append]
      exact ⟨List.mem_cons_self, keeps_allActions hmethods hreturn calls⟩

/-- So do calls that are made in order. -/
theorem keeps_allActions {held : List ServerMutex} (hheld : ∀ k ∈ held, k = .methods)
    {rest : List (Action ServerMutex ServerWork)} (hrest : Keeps held rest)
    (calls : List ServerCall) : Keeps held (ServerCall.allActions calls ++ rest) := by
  cases calls with
  | nil => exact hrest
  | cons call calls =>
    rw [ServerCall.allActions, List.append_assoc]
    exact keeps_actions hheld (keeps_allActions hheld hrest calls) call

end

/-- All threads keep the order, no two have one mutex, and only so many have made calls. -/
structure Sound (s : ServerThreads) : Prop where
  disciplined : Disciplined ServerMutex.order ServerWork.guard s
  exclusive : Exclusive s
  bounded : ∃ n, Bounded n s

/-- A thread that is through with its calls has no mutex. -/
theorem Sound.held {s : ServerThreads} (hs : s.Sound) {i : ℕ} (hi : (s.threads i).todo = []) :
    (s.threads i).held = [] := by
  have hordered := hs.disciplined i
  rw [hi] at hordered
  exact hordered

/-- The invariant survives every step. -/
theorem Sound.step {s s' : ServerThreads} (hs : s.Sound) (h : ServerThreadStep s s') :
    s'.Sound := by
  have hdisciplined := hs.disciplined
  obtain ⟨n, hn⟩ := hs.bounded
  cases h with
  | step h =>
    exact ⟨disciplined_step hdisciplined h, exclusive_step hs.exclusive h, n, bounded_step hn h⟩
  | call i c hi =>
    refine ⟨fun j => ?_, hs.exclusive.set fun l hl => hl, max n (i + 1), fun j hj => ?_⟩
    · rw [System.threads_set]
      split_ifs with heq
      · have hnone : Keeps [] [] := rfl
        have hactions := keeps_actions (by simp) hnone c
        rw [List.append_nil] at hactions
        rw [hs.held hi]
        exact hactions
      · exact hdisciplined j
    · rw [System.threads_set, if_neg (by omega)]
      exact hn j (by omega)

/-- The invariant holds in every state that the threads can get into. -/
theorem Reachable.sound {s : ServerThreads} (hs : s.Reachable) : s.Sound := by
  have hinitial : initial.Sound :=
    ⟨fun _ => rfl, fun i j l hl => by simp [initial] at hl, 0, fun _ _ => rfl⟩
  exact Runs.invariant (fun s s' hs h => hs.step h) hinitial hs

/-- While a thread keeps `methodsMutex`, all work that it guards is the thread's own. -/
theorem log_of_kept {s s' : ServerThreads} (hs : s.Reachable) {i : ℕ}
    (hrun : Relation.ReflTransGen
      (fun t t' => .methods ∈ (t.threads i).held ∧ ServerThreadStep t t') s s') :
    ∃ added, s'.log = s.log ++ added ∧ ∀ e ∈ added, e.2.guard = .methods → e.1 = i := by
  suffices h : s'.Reachable ∧
      ∃ added, s'.log = s.log ++ added ∧ ∀ e ∈ added, e.2.guard = .methods → e.1 = i from h.2
  induction hrun with
  | refl => exact ⟨hs, [], by simp⟩
  | tail hrun h ih =>
    obtain ⟨hheld, hstep⟩ := h
    obtain ⟨ht, added, hlog, hown⟩ := ih
    refine ⟨ht.tail hstep, ?_⟩
    cases hstep with
    | call j c hj => exact ⟨added, hlog, hown⟩
    | step hstep =>
      obtain ⟨more, hmore, hown'⟩ :=
        log_step ht.sound.exclusive ht.sound.disciplined hheld hstep
      refine ⟨added ++ more, by rw [hmore, hlog, List.append_assoc], ?_⟩
      intro e he
      rcases List.mem_append.mp he with hold | hnew
      · exact hown e hold
      · exact hown' e hnew

/-- The methods depend on what is guarded by `methodsMutex`. -/
theorem registryCalls_own {log : List (ℕ × ServerWork)} {i : ℕ}
    (hown : ∀ e ∈ log, e.2.guard = .methods → e.1 = i) :
    registryCalls (log.filter fun e => e.1 = i) = registryCalls log := by
  induction log with
  | nil => rfl
  | cons e log ih =>
    have hrest := ih fun e he => hown e (List.mem_cons_of_mem _ he)
    have hhead := hown e List.mem_cons_self
    rw [List.filter_cons]
    simp only [decide_eq_true_eq]
    split_ifs with heq
    · rw [registryCalls, registryCalls, List.filterMap_cons, List.filterMap_cons]
      rw [registryCalls, registryCalls] at hrest
      rw [hrest]
    · rw [hrest, registryCalls, registryCalls, List.filterMap_cons]
      cases hwork : e.2 with
      | registry call =>
        rw [hwork] at hhead
        exact absurd (hhead rfl) heq
      | _ => rfl

end ServerThreads

/-- Calls are made one after the other. -/
theorem NymphRemoteClient.applyAll_append (s : NymphRemoteClient) (calls more : List RegistryCall) :
    applyAll s (calls ++ more) = (applyAll s calls).bind fun s' => applyAll s' more := by
  induction calls generalizing s with
  | nil => rfl
  | cons call calls ih =>
    rw [List.cons_append, applyAll, applyAll, Option.bind_assoc]
    exact congrArg _ (funext ih)

open ServerThreads

/-- The calls of a server come back. From any state that its threads can get into, whatever they
have called and whatever the methods call in turn, if no more calls are made then all come to an
end in whatever order the threads take their steps, and every mutex is free. -/
theorem serverCalls_return {s : ServerThreads} (hs : s.Reachable) :
    Runs.ComesToRest Step
      (fun t : ServerThreads => ∀ i, (t.threads i).todo = [] ∧ (t.threads i).held = []) s := by
  obtain ⟨hdisciplined, hexclusive, n, hn⟩ := hs.sound
  exact comesToRest hn hexclusive hdisciplined

/-- A method that calls a callback comes back, and a call of a callback beside it. -/
theorem serverCalls_return_two : ∃ s t : ServerThreads,
    .methods ∈ (s.threads 0).held ∧ .sessions ∈ (s.threads 1).held ∧
      Relation.ReflTransGen Step s t ∧ ∀ i, (t.threads i).todo = [] ∧ (t.threads i).held = [] := by
  have hs : ServerThreads.Reachable _ :=
    (((Relation.ReflTransGen.refl.tail
      (.call 0 (.callMethodCallback 1 true [.callCallback 0 [] true true]) rfl)).tail
      (.step (.lock 0 .methods _ rfl fun j hj => by simp [hj, initial]))).tail
      (.call 1 (.callCallback 0 [] true true) rfl)).tail
      (.step (.lock 1 .sessions _ rfl fun j hj => by
        by_cases hzero : j = 0 <;> simp [hj, hzero, initial]))
  obtain ⟨t, hrun, -, ht⟩ := (serverCalls_return hs).exists_run
  exact ⟨_, t, by simp, by simp, hrun, ht⟩

/-- A method runs alone. While a thread keeps `methodsMutex`, and so from before a method is called
until it has returned, the methods of the server change by its own calls only. -/
theorem registry_of_kept {s s' : ServerThreads} (hs : s.Reachable) {i : ℕ}
    (hrun : Relation.ReflTransGen
      (fun t t' => .methods ∈ (t.threads i).held ∧ ServerThreadStep t t') s s') :
    ∃ added, s'.log = s.log ++ added ∧ (∀ e ∈ added, e.2.guard = .methods → e.1 = i) ∧
      s'.registry = s.registry.bind fun r =>
        r.applyAll (registryCalls (added.filter fun e => e.1 = i)) := by
  obtain ⟨added, hlog, hown⟩ := log_of_kept hs hrun
  refine ⟨added, hlog, hown, ?_⟩
  rw [registryCalls_own hown, registry, hlog, registryCalls, List.filterMap_append]
  exact NymphRemoteClient.applyAll_append _ _ _

/-- A method registers another one while a callback is removed beside it. -/
theorem registry_of_kept_two : ∃ (s s' : ServerThreads) (added : List (ℕ × ServerWork))
    (call : RegistryCall), (1, .callback (.removeCallback [0x61])) ∈ added ∧
      (0, .registry call) ∈ added ∧ s'.log = s.log ++ added ∧
      s'.registry = s.registry.bind fun r =>
        r.applyAll (registryCalls (added.filter fun e => e.1 = 0)) := by
  let call : RegistryCall := .registerMethod [0x61] (NymphRemoteClient.silentMethod [0x61])
  have hs : ServerThreads.Reachable _ :=
    ((Relation.ReflTransGen.refl.tail
      (.call 0 (.callMethodCallback 1 true
        [.registerMethod [0x61] (NymphRemoteClient.silentMethod [0x61])]) rfl)).tail
      (.step (.lock 0 .methods _ rfl fun j hj => by simp [hj, initial]))).tail
      (.call 1 (.removeCallback [0x61]) rfl)
  obtain ⟨added, hlog, -, hregistry⟩ := registry_of_kept hs (i := 0)
    (((((Relation.ReflTransGen.refl.tail
      ⟨by simp, .step (.work 0 (.enterMethod 1) _ rfl)⟩).tail
      ⟨by simp, .step (.lock 1 .callbacks _ rfl fun j hj => by
        by_cases hzero : j = 0 <;> simp [hj, hzero, initial])⟩).tail
      ⟨by simp, .step (.work 1 (.callback (.removeCallback [0x61])) _ rfl)⟩).tail
      ⟨by simp, .step (.lock 0 .methods _ rfl fun j hj => by
        by_cases hone : j = 1 <;> simp [hj, hone, initial])⟩).tail
      ⟨by simp, .step (.work 0 (.registry call) _ rfl)⟩)
  refine ⟨_, _, added, call, ?_, ?_, hlog, hregistry⟩
  · simp [initial] at hlog
    simp [← hlog]
  · simp [initial] at hlog
    simp [← hlog]

end NymphRpc
