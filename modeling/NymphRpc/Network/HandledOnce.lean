import NymphRpc.Network.CallbackCalls

/-!
# Every callback is handled once

A frame is taken once, by the listener of its connection, and becomes one request; the dispatcher
keeps the request in one place, and the worker that executes it calls `process` once. So no
callback is called twice for one call of the server, and what is called is registered at that time,
and gets the values, the session and the data that belong to it.
-/

namespace NymphRpc

open NymphMessage

namespace CallbackNetwork

variable {ε : Type} {poolSize : ℕ} {session : ℕ → ℤ} {data : ℕ → Option ℕ}
  {t t' : CallbackNetwork ε}

/-- The request has the message of the frame, with the session and the data of the connection. -/
structure OfFrame (data : ℕ → Option ℕ) (p : PassedRequest) (f : CallbackFrame) : Prop where
  session : p.request.session = .ofNat p.handle
  data : p.request.data = data p.handle
  decoded : ∃ u um, (decode u um f.frame.length (f.frame.drop 8)).result = .ok p.request.msg
  brings : f.Brings p.request.msg

/-- Each frame that a listener has taken was passed as one request, in the order they were sent. -/
structure Passed (data : ℕ → Option ℕ) (t : CallbackNetwork ε) : Prop where
  called : ∀ r, t.dispatcher.calls r ≠ .notCalled ↔ r < t.requests.length
  flagged : ∀ h name m, (t.servers h).find? name = some m → m.isCallback = true
  carries : ∀ h, ∀ f ∈ t.sent h, f.Carries
  bounded : ∀ h, t.taken h ≤ (t.sent h).length
  place : ∀ (r : ℕ) p, t.requests[r]? = some p → p.place < t.taken p.handle
  passed : ∀ h i, i < t.taken h → ∃ (r : ℕ) (p : _), t.requests[r]? = some p ∧ p.handle = h ∧
    p.place = i
  inOrder : ∀ (r r' : ℕ) p p', t.requests[r]? = some p → t.requests[r']? = some p' →
    p.handle = p'.handle → r < r' → p.place < p'.place
  origin : ∀ (r : ℕ) p, t.requests[r]? = some p →
    ∃ f, (t.sent p.handle)[p.place]? = some f ∧ OfFrame data p f

namespace Passed

section

variable (hs : t.Passed data) (h : CallbackStep poolSize session data t t')

include hs h

/-- A request was passed if it is in the list. -/
theorem called_step (r : ℕ) : t'.dispatcher.calls r ≠ .notCalled ↔ r < t'.requests.length := by
  have hcalled := hs.called
  cases h with
  | take h f m u um =>
    have hr := hcalled r
    simp only [Dispatcher.calls_setCall, List.length_append, List.length_singleton]
    split_ifs with heq
    · simp [heq]
    · rw [hr]
      omega
  | dispatch hstep hfinish =>
    rw [← hcalled r]
    exact not_congr (hstep.notCalled_iff r)
  | _ => exact hcalled r

/-- All callbacks of a server are flagged. -/
theorem flagged_step (i : ℕ) (name : Bytes) (m : FlaggedMethod)
    (hm : (t'.servers i).find? name = some m) : m.isCallback = true := by
  have hflagged := hs.flagged
  cases h with
  | register j call =>
    simp only [Function.update_apply] at hm
    cases call <;> grind [Callbacks.apply, Callbacks.registerCallback, Callbacks.removeCallback,
      FlaggedMethod.enableCallback, Option.or_eq_some_iff]
  | _ => exact hflagged i name m hm

/-- What was sent carries what it was sent for. -/
theorem carries_step (i : ℕ) (f : CallbackFrame) (hf : f ∈ t'.sent i) : f.Carries := by
  have hcarries := hs.carries
  cases h with
  | callCallback j name m vs ts env result frame hm hvalues hsize hcalled =>
    simp only [Function.update_apply] at hf
    split_ifs at hf with hi
    · rcases List.mem_append.mp hf with hold | hnew
      · exact hcarries j f hold
      · obtain rfl := List.mem_singleton.mp hnew
        rw [Callbacks.callCallback, if_neg (by simp), hm] at hcalled
        simp only [hs.flagged j name m hm] at hcalled
        exact carries_of_callSession hvalues hsize hcalled
    · exact hcarries i f hf
  | _ => exact hcarries i f hf

/-- No listener takes more than was sent. -/
theorem bounded_step (i : ℕ) : t'.taken i ≤ (t'.sent i).length := by
  have hbounded := hs.bounded i
  cases h with
  | callCallback j => grind
  | take j f m u um hf => grind
  | _ => exact hbounded

/-- A request was passed for a frame that was taken. -/
theorem place_step (r : ℕ) (p : PassedRequest) (hp : t'.requests[r]? = some p) :
    p.place < t'.taken p.handle := by
  have hplace := hs.place
  cases h with
  | take j f m u um hf => grind
  | _ => exact hplace r p hp

/-- A request was passed for each frame that was taken. -/
theorem passed_step (i n : ℕ) (hn : n < t'.taken i) :
    ∃ (r : ℕ) (p : _), t'.requests[r]? = some p ∧ p.handle = i ∧ p.place = n := by
  have hpassed := hs.passed
  cases h with
  | take j f m u um hf =>
    by_cases hold : n < t.taken i
    · obtain ⟨r, p, hp, hhandle, hplace⟩ := hpassed i n hold
      have hlt := (List.getElem?_eq_some_iff.mp hp).1
      exact ⟨r, p, by rw [List.getElem?_append_left hlt]; exact hp, hhandle, hplace⟩
    · obtain ⟨rfl, rfl⟩ : i = j ∧ n = t.taken j := by grind
      exact ⟨t.requests.length, _, List.getElem?_concat_length, rfl, rfl⟩
  | _ => exact hpassed i n hn

/-- The requests of a connection were passed in the order of their frames. -/
theorem inOrder_step (r r' : ℕ) (p p' : PassedRequest) (hp : t'.requests[r]? = some p)
    (hp' : t'.requests[r']? = some p') (hhandle : p.handle = p'.handle) (hlt : r < r') :
    p.place < p'.place := by
  have hinOrder := hs.inOrder
  have hplace := hs.place
  cases h with
  | take j f m u um hf =>
    have hle : r' ≤ t.requests.length := by
      have hbound := (List.getElem?_eq_some_iff.mp hp').1
      rw [List.length_append, List.length_singleton] at hbound
      omega
    rw [List.getElem?_append_left (by omega)] at hp
    rcases Nat.lt_or_eq_of_le hle with hold | rfl
    · rw [List.getElem?_append_left hold] at hp'
      exact hinOrder r r' p p' hp hp' hhandle hlt
    · obtain rfl := Option.some.inj (List.getElem?_concat_length.symm.trans hp')
      have hbefore := hplace r p hp
      rw [hhandle] at hbefore
      exact hbefore
  | _ => exact hinOrder r r' p p' hp hp' hhandle hlt

/-- A request has what its frame carries. -/
theorem origin_step (r : ℕ) (p : PassedRequest) (hp : t'.requests[r]? = some p) :
    ∃ f, (t'.sent p.handle)[p.place]? = some f ∧ OfFrame data p f := by
  have horigin := hs.origin
  cases h with
  | callCallback j name m vs ts env result frame =>
    obtain ⟨f, hf, hof⟩ := horigin r p hp
    refine ⟨f, ?_, hof⟩
    grind
  | take j f m u um hf hdecode =>
    by_cases hold : r < t.requests.length
    · rw [List.getElem?_append_left hold] at hp
      exact horigin r p hp
    · obtain rfl : ⟨⟨.ofNat j, m, data j⟩, j, t.taken j⟩ = p := by grind
      obtain ⟨m', hm', hbrings⟩ := hs.carries j f (List.mem_of_getElem? hf) u um
      cases hdecode.symm.trans hm'
      exact ⟨f, hf, rfl, rfl, ⟨u, um, hdecode⟩, hbrings⟩
  | _ => exact horigin r p hp

/-- The invariant survives every step. -/
theorem step : t'.Passed data where
  called := hs.called_step h
  flagged := hs.flagged_step h
  carries := hs.carries_step h
  bounded := hs.bounded_step h
  place := hs.place_step h
  passed := hs.passed_step h
  inOrder := hs.inOrder_step h
  origin := hs.origin_step h

end

end Passed

/-- Nothing was passed before the first call. -/
theorem passed_initial : (initial : CallbackNetwork ε).Passed data := by
  constructor <;> simp [initial, Dispatcher.initial]

/-! ### Processing -/

/-- What was registered after the first changes does not change. -/
theorem callbacksAfter_append {n : ℕ} (hn : n ≤ t.changes.length) (call : ListenerCall ε) :
    ({ t with changes := t.changes ++ [call] } : CallbackNetwork ε).callbacksAfter n =
      t.callbacksAfter n := by
  rw [callbacksAfter, callbacksAfter, List.take_append_of_le_length hn]

/-- What is registered is what was registered after all changes. -/
theorem callbacksAfter_length : t.callbacksAfter t.changes.length = t.callbacks := by
  rw [callbacksAfter, List.take_length, callbacks]

/-- Handling one more request, the others stay handled. -/
theorem hasHandled_append {x : HandledRequest ε} {r : ℕ} {processed : ℕ → Bool}
    {mutex : Option ℕ} :
    ({ t with
      processed := processed
      callbacksMutex := mutex
      handled := t.handled ++ [x] } : CallbackNetwork ε).HasHandled r ↔
        t.HasHandled r ∨ x.request = r := by
  simp [HasHandled, or_and_right, exists_or]

/-- A worker has called `process` for the request it executes just if the request was handled, and
`process` has done what it does with the callbacks that were registered then. -/
structure Handling (poolSize : ℕ) (t : CallbackNetwork ε) : Prop where
  reachable : t.dispatcher.Reachable poolSize
  executing : ∀ w r, (t.dispatcher.allWorkers w).phase = .processing r →
    (t.processed w = true ↔ t.HasHandled r)
  idle : ∀ w, (t.dispatcher.allWorkers w).phase.executes = false → t.processed w = false
  started : ∀ x ∈ t.handled, t.dispatcher.Started x.request
  once : (t.handled.map HandledRequest.request).Nodup
  finished : ∀ r ∈ t.dispatcher.finished, t.HasHandled r
  outcome : ∀ x ∈ t.handled, x.after ≤ t.changes.length ∧ ∃ p,
    t.requests[x.request]? = some p ∧ p.request.Process (t.callbacksAfter x.after) x.outcome

namespace Handling

section

variable (hs : t.Handling poolSize)

include hs

/-- A request that is handled is not with a worker that has yet to execute it. -/
theorem not_assigned {w r : ℕ} (hr : t.dispatcher.At r (.assigned w)) : ¬t.HasHandled r := by
  rintro ⟨x, hx, rfl⟩
  obtain ⟨-, hplaced⟩ := hs.reachable.invariant
  rcases hs.started x hx with ⟨w', hw'⟩ | hfinished
  · cases hplaced.unique _ _ (.processing w') hr hw'
  · cases hplaced.unique _ _ .finished hr hfinished

/-- A request that a worker executes and has not called `process` for is not handled. -/
theorem not_handled {w r : ℕ} (hw : (t.dispatcher.allWorkers w).phase = .processing r)
    (hcalls : t.processed w = false) : ¬t.HasHandled r := by
  intro hhandled
  rw [(hs.executing w r hw).mpr hhandled] at hcalls
  cases hcalls

/-- The dispatcher and its workers take a step. -/
theorem dispatch {d : Dispatcher} (hstep : DispatchStep poolSize t.dispatcher d)
    (hfinish : ∀ w r, (t.dispatcher.allWorkers w).phase = .processing r →
      (d.allWorkers w).phase ≠ .processing r → t.processed w = true ∧ t.callbacksMutex ≠ some r) :
    Handling poolSize { t with
      dispatcher := d
      processed := fun w => t.processed w && (d.allWorkers w).phase.executes } := by
  have hpooled := hs.reachable.invariant.1
  have hreachable : d.Reachable poolSize := hs.reachable.tail hstep
  refine ⟨hreachable, ?_, ?_, ?_, hs.once, ?_, hs.outcome⟩
  · intro w r hw
    have hexecutes : (d.allWorkers w).phase.executes = true := by rw [hw]; rfl
    dsimp only
    rw [hexecutes, Bool.and_true]
    rcases Dispatcher.executing_step hstep hw with hold | ⟨hrunning, hassigned⟩
    · exact hs.executing w r hold
    · -- the worker has just begun
      rw [hs.idle w (by rw [hrunning]; rfl)]
      exact iff_of_false Bool.false_ne_true (hs.not_assigned hassigned)
  · intro w hw
    dsimp only at hw ⊢
    rw [hw, Bool.and_false]
  · intro x hx
    exact Dispatcher.started_step hpooled hstep (hs.started x hx)
  · intro r hr
    by_cases hold : r ∈ t.dispatcher.finished
    · exact hs.finished r hold
    · -- the worker that has finished it has left it
      rcases Dispatcher.finished_step hpooled hstep hr with ⟨w, hw⟩ | hfinished
      · refine (hs.executing w r hw).mp (hfinish w r hw ?_).1
        intro hw'
        cases hreachable.invariant.2.unique r (.processing w) .finished hw' hr
      · exact absurd hfinished hold

/-- A worker calls `process`. -/
theorem process {w r : ℕ} {p : PassedRequest} {outcome : Processed ε}
    (hw : (t.dispatcher.allWorkers w).phase = .processing r) (hcalls : t.processed w = false)
    (hp : t.requests[r]? = some p) (houtcome : p.request.Process t.callbacks outcome)
    (mutex : Option ℕ) :
    Handling poolSize { t with
      processed := Function.update t.processed w true
      callbacksMutex := mutex
      handled := t.handled ++ [⟨r, t.changes.length, outcome⟩] } := by
  have hnot := hs.not_handled hw hcalls
  refine ⟨hs.reachable, ?_, ?_, ?_, ?_, ?_, ?_⟩
  · intro w' r' hw'
    rw [hasHandled_append]
    dsimp only at hw' ⊢
    rw [Function.update_apply]
    split_ifs with heq
    · subst heq
      cases hw.symm.trans hw'
      exact iff_of_true rfl (.inr rfl)
    · rw [hs.executing w' r' hw', or_iff_left]
      rintro rfl
      cases hs.reachable.invariant.2.unique _ (.processing w') (.processing w) hw' hw
      exact heq rfl
  · intro w' hw'
    dsimp only at hw' ⊢
    rw [Function.update_of_ne, hs.idle w' hw']
    rintro rfl
    rw [hw] at hw'
    cases hw'
  · intro x hx
    rcases List.mem_append.mp hx with hold | hnew
    · exact hs.started x hold
    · obtain rfl := List.mem_singleton.mp hnew
      exact .inl ⟨w, hw⟩
  · rw [List.map_append]
    refine List.Nodup.append hs.once (List.nodup_singleton _) ?_
    intro i hi hi'
    obtain ⟨x, hx, rfl⟩ := List.mem_map.mp hi
    exact hnot ⟨x, hx, List.mem_singleton.mp hi'⟩
  · intro i hi
    exact hasHandled_append.mpr (.inl (hs.finished i hi))
  · intro x hx
    rcases List.mem_append.mp hx with hold | hnew
    · exact hs.outcome x hold
    · obtain rfl := List.mem_singleton.mp hnew
      refine ⟨le_rfl, p, hp, ?_⟩
      change p.request.Process (t.callbacksAfter t.changes.length) outcome
      rw [callbacksAfter_length]
      exact houtcome

/-- The invariant survives every step. -/
theorem step (hp : t.Passed data) (h : CallbackStep poolSize session data t t') :
    t'.Handling poolSize := by
  cases h with
  | register | callCallback | unlock =>
    exact ⟨hs.reachable, hs.executing, hs.idle, hs.started, hs.once, hs.finished, hs.outcome⟩
  | take h f m u um hf =>
    have hnew : t.dispatcher.calls t.requests.length = .notCalled := by
      by_contra hcalled
      exact absurd ((hp.called _).mp hcalled) (lt_irrefl _)
    refine ⟨hs.reachable.tail (.addRequest _ hnew), hs.executing, hs.idle, hs.started, hs.once,
      hs.finished, ?_⟩
    intro x hx
    obtain ⟨hafter, p, hp, houtcome⟩ := hs.outcome x hx
    have hlt := (List.getElem?_eq_some_iff.mp hp).1
    exact ⟨hafter, p, by rw [List.getElem?_append_left hlt]; exact hp, houtcome⟩
  | dispatch hstep hfinish => exact hs.dispatch hstep.step hfinish
  | process w r p outcome hw hcalls hp' hfree houtcome =>
    exact hs.process hw hcalls hp' houtcome _
  | change call =>
    refine ⟨hs.reachable, hs.executing, hs.idle, hs.started, hs.once, hs.finished, ?_⟩
    intro x hx
    obtain ⟨hafter, p, hp, houtcome⟩ := hs.outcome x hx
    refine ⟨?_, p, hp, ?_⟩
    · rw [List.length_append]
      exact Nat.le_add_right_of_le hafter
    · rw [callbacksAfter_append hafter]
      exact houtcome

end

end Handling

/-- Nothing was handled before the first call. -/
theorem handling_initial : (initial : CallbackNetwork ε).Handling poolSize := by
  constructor <;>
    simp [initial, Dispatcher.Reachable, Dispatcher.initial, Relation.ReflTransGen.refl]

/-- The invariants hold in every state that the callbacks can get into. -/
theorem Reachable.invariant (ht : t.Reachable poolSize session data) :
    t.Passed data ∧ t.Handling poolSize := by
  refine Runs.invariant (I := fun t => t.Passed data ∧ t.Handling poolSize) ?_
    ⟨passed_initial, handling_initial⟩ ht
  rintro t t' ⟨hp, hs⟩ h
  exact ⟨hp.step h, hs.step hp h⟩

/-- The request was passed for a frame of a connection. -/
def For (t : CallbackNetwork ε) (x : HandledRequest ε) (h i : ℕ) : Prop :=
  ∃ p, t.requests[x.request]? = some p ∧ p.handle = h ∧ p.place = i

/-- No two requests are passed for one frame. -/
theorem Passed.request_unique (hp : t.Passed data) {r r' : ℕ} {p p' : PassedRequest}
    (hr : t.requests[r]? = some p) (hr' : t.requests[r']? = some p')
    (hhandle : p'.handle = p.handle) (hplace : p'.place = p.place) : r = r' := by
  rcases Nat.lt_trichotomy r r' with hlt | heq | hlt
  · have hbefore := hp.inOrder _ _ p p' hr hr' hhandle.symm hlt
    omega
  · exact heq
  · have hbefore := hp.inOrder _ _ p' p hr' hr hhandle hlt
    omega

/-- No two requests are handled for one frame. -/
theorem Reachable.handled_unique (ht : t.Reachable poolSize session data) {k k' h i : ℕ}
    {x x' : HandledRequest ε} (hk : t.handled[k]? = some x) (hk' : t.handled[k']? = some x')
    (hx : t.For x h i) (hx' : t.For x' h i) : k = k' := by
  obtain ⟨hp, hs⟩ := Reachable.invariant ht
  obtain ⟨p, hx, rfl, rfl⟩ := hx
  obtain ⟨p', hx', hhandle, hplace⟩ := hx'
  have hsame := hp.request_unique hx hx' hhandle hplace
  have hlt := (List.getElem?_eq_some_iff.mp hk).1
  apply (List.getElem?_inj (by simpa using hlt) hs.once).mp
  rw [List.getElem?_map, List.getElem?_map, hk, hk']
  exact congrArg some hsame

end CallbackNetwork

end NymphRpc
