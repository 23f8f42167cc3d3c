import NymphRpc.Dispatcher.InOrder
import NymphRpc.Network.HandledOnce

/-!
# Every callback is handled

If the servers send no more, the listeners take every frame and the dispatcher comes to rest, so
each callback is handled unless its request is left beside waiting workers; and if no gaps of the
dispatcher overlap, all are. A pool of one worker then handles the callbacks of a connection in
the order in which they were sent.
-/

namespace NymphRpc

open NymphMessage

namespace CallbackNetwork

variable {ε : Type} {poolSize : ℕ} {session : ℕ → ℤ} {data : ℕ → Option ℕ}
  {t t' : CallbackNetwork ε}

instance (t : CallbackNetwork ε) (r : ℕ) : Decidable (t.HasHandled r) :=
  inferInstanceAs (Decidable (∃ x ∈ t.handled, x.request = r))

/-- A step by which a listener, the dispatcher or a worker gets on, and no server sends. -/
structure Onward (poolSize : ℕ) (session : ℕ → ℤ) (data : ℕ → Option ℕ)
    (t t' : CallbackNetwork ε) : Prop where
  step : CallbackStep poolSize session data t t'
  sent : t'.sent = t.sent
  moves : t'.taken ≠ t.taken ∨ t'.dispatcher ≠ t.dispatcher ∨ t'.handled ≠ t.handled ∨
    t'.callbacksMutex ≠ t.callbacksMutex

/-! ### Every run comes to an end -/

/-- How many frames the listener has not taken. -/
def untaken (t : CallbackNetwork ε) (h : ℕ) : ℕ := (t.sent h).length - t.taken h

/-- What is before the listeners, the dispatcher and the workers. -/
def rank (poolSize n k : ℕ) (t : CallbackNetwork ε) : ℕ ×ₗ (ℕ ×ₗ ℕ ×ₗ ℕ) ×ₗ ℕ ×ₗ ℕ :=
  toLex (∑ h ∈ Finset.range n, t.untaken h, toLex (t.dispatcher.rank poolSize k,
    toLex (∑ r ∈ Finset.range k, (if t.HasHandled r then 0 else 1),
      if t.callbacksMutex.isSome then 1 else 0)))

/-- The first connections are used, and no more requests than so many will be passed. -/
structure BoundedBy (t : CallbackNetwork ε) (n k : ℕ) : Prop where
  sent : ∀ h, n ≤ h → t.sent h = []
  requests : t.requests.length + ∑ h ∈ Finset.range n, t.untaken h ≤ k

/-- Only so many connections are used in any state. -/
theorem Reachable.bounded (ht : t.Reachable poolSize session data) : ∃ n k, t.BoundedBy n k := by
  suffices h : ∃ n, ∀ h, n ≤ h → t.sent h = [] by
    obtain ⟨n, hn⟩ := h
    exact ⟨n, _, hn, le_rfl⟩
  induction ht with
  | refl => exact ⟨0, fun _ _ => rfl⟩
  | tail _ h ih =>
    obtain ⟨n, hn⟩ := ih
    cases h with
    | callCallback j => exact ⟨max n (j + 1), by grind⟩
    | _ => exact ⟨n, hn⟩

/-- Taking a frame leaves one fewer. -/
theorem sum_untaken_lt {n i : ℕ} {taken : ℕ → ℕ} (hn : ∀ h, n ≤ h → t.sent h = [])
    (hi : t.taken i < (t.sent i).length)
    (htaken : taken = Function.update t.taken i (t.taken i + 1)) :
    ∑ h ∈ Finset.range n, ((t.sent h).length - taken h) <
      ∑ h ∈ Finset.range n, t.untaken h := by
  have hlt : (t.sent i).length - taken i < t.untaken i := by
    rw [untaken, htaken, Function.update_self]
    omega
  refine Runs.sum_lt (fun h => ?_) ⟨i, ?_, hlt⟩
  · rw [untaken, htaken, Function.update_apply]
    split_ifs with heq
    · rw [heq]
      omega
    · exact le_rfl
  · by_contra hge
    rw [hn i (by omega)] at hi
    simp at hi

/-- The same connections are used after such a step, and no more requests will be passed. -/
theorem BoundedBy.step {n k : ℕ} (hn : t.BoundedBy n k) (h : Onward poolSize session data t t') :
    t'.BoundedBy n k := by
  obtain ⟨hsent, hrequests⟩ := hn
  obtain ⟨hstep, hsame, hmoves⟩ := h
  refine ⟨fun i hi => by rw [hsame]; exact hsent i hi, ?_⟩
  cases hstep with
  | take i f m u um hf =>
    have hlt := sum_untaken_lt hsent (List.getElem?_eq_some_iff.mp hf).1 rfl
    simp only [untaken, List.length_append, List.length_singleton] at hlt hrequests ⊢
    omega
  | callCallback i =>
    have hlength := congrArg (fun sent => (sent i).length) hsame
    simp at hlength
  | _ => exact hrequests

/-- Every such step leaves fewer. -/
theorem Onward.rank_lt (h : Onward poolSize session data t t') (hp : t.Passed data)
    (hs : t.Handling poolSize) {n k : ℕ} (hn : t.BoundedBy n k) :
    t'.rank poolSize n k < t.rank poolSize n k := by
  have hle := Nat.le_of_add_right_le hn.requests
  obtain ⟨hstep, hsame, hmoves⟩ := h
  simp only [rank, Prod.Lex.toLex_lt_toLex]
  cases hstep with
  | register | change => simp at hmoves
  | callCallback i =>
    have hlength := congrArg (fun sent => (sent i).length) hsame
    simp at hlength
  | take i f m u um hf =>
    exact .inl (sum_untaken_lt hn.sent (List.getElem?_eq_some_iff.mp hf).1 rfl)
  | dispatch hdispatch hfinish =>
    refine .inr ⟨rfl, .inl (hdispatch.rank_lt hs.reachable.invariant.1 fun r hr => ?_)⟩
    by_contra hcalled
    have hlt := (hp.called r).mp hcalled
    omega
  | process w r p outcome hw hcalls hp' hfree =>
    refine .inr ⟨rfl, .inr ⟨rfl, .inl (Runs.sum_lt (fun i => ?_) ⟨r, ?_, ?_⟩)⟩⟩
    · by_cases hi : t.HasHandled i
      · rw [if_pos (hasHandled_append.mpr (.inl hi))]
        exact Nat.zero_le _
      · rw [if_neg hi]
        exact ite_le_sup 0 1 _
    · have hlt := (List.getElem?_eq_some_iff.mp hp').1
      omega
    · rw [if_neg (hs.not_handled hw hcalls), if_pos (hasHandled_append.mpr (.inr rfl))]
      exact Nat.zero_lt_one
  | unlock r hr => exact .inr ⟨rfl, .inr ⟨rfl, .inr ⟨rfl, by simp [hr]⟩⟩⟩

/-- If the servers send no more, every run ends. -/
theorem Reachable.ends (ht : t.Reachable poolSize session data) :
    Acc (fun t' t => Onward poolSize session data t t') t := by
  obtain ⟨n, k, hn⟩ := ht.bounded
  refine Runs.acc_of_rank
    (I := fun t => t.Reachable poolSize session data ∧ t.BoundedBy n k) (rank poolSize n k)
    ?_ ?_ ⟨ht, hn⟩
  · rintro t t' ⟨ht, hn⟩ h
    exact ⟨ht.tail h.step, hn.step h⟩
  · rintro t t' ⟨ht, hn⟩ h
    obtain ⟨hp, hs⟩ := ht.invariant
    exact h.rank_lt hp hs hn

/-! ### Where nothing can happen -/

/-- Nothing can happen any more, except that a listener takes a frame. -/
def Settled (poolSize : ℕ) (session : ℕ → ℤ) (data : ℕ → Option ℕ) (t : CallbackNetwork ε) : Prop :=
  ∀ t', Onward poolSize session data t t' → t'.taken ≠ t.taken

/-- So it is where nothing can happen. -/
theorem settled_of_rest (hrest : Runs.AtRest (Onward poolSize session data) t) :
    t.Settled poolSize session data :=
  fun t' h => absurd h (hrest t')

section

variable (hsettled : t.Settled poolSize session data)

include hsettled

/-- A step by which no listener takes a frame does not get anything on. -/
theorem Settled.not_onward (h : Onward poolSize session data t t') (htaken : t'.taken = t.taken) :
    False :=
  hsettled t' h htaken

/-- No callback is being called. -/
theorem mutex_of_settled : t.callbacksMutex = none := by
  cases hmutex : t.callbacksMutex with
  | none => rfl
  | some r =>
    refine (hsettled.not_onward ⟨.unlock r hmutex, rfl, .inr (.inr (.inr ?_))⟩ rfl).elim
    simp [hmutex]

variable (ht : t.Reachable poolSize session data)

include ht

/-- A request that a worker executes was handled. -/
theorem handled_of_processing {w r : ℕ} (hw : (t.dispatcher.allWorkers w).phase = .processing r) :
    t.HasHandled r := by
  obtain ⟨hp, hs⟩ := ht.invariant
  obtain ⟨-, hplaced⟩ := hs.reachable.invariant
  have hlt : r < t.requests.length :=
    (hp.called r).mp ((hplaced.passed r).mpr ⟨.processing w, hw⟩)
  by_contra hnot
  have hcalls := Bool.eq_false_iff.mpr fun h => hnot ((hs.executing w r hw).mp h)
  obtain ⟨outcome, houtcome⟩ := (t.requests[r]).request.exists_process t.callbacks
  refine hsettled.not_onward ⟨.process w r _ outcome hw hcalls (List.getElem?_eq_getElem hlt)
    (mutex_of_settled hsettled) houtcome, rfl, .inr (.inr (.inl ?_))⟩ rfl
  simp

/-- So the dispatcher is at rest. -/
theorem dispatcher_of_settled : Runs.AtRest (Dispatcher.Onward poolSize) t.dispatcher := by
  intro d h
  obtain ⟨hp, hs⟩ := ht.invariant
  have hpooled := hs.reachable.invariant.1
  refine hsettled.not_onward ⟨.dispatch h ?_, rfl, .inr (.inl ?_)⟩ rfl
  · intro w r hw _
    exact ⟨(hs.executing w r hw).mpr (handled_of_processing hsettled ht hw),
      by simp [mutex_of_settled hsettled]⟩
  · rintro rfl
    obtain ⟨n, hn⟩ := hs.reachable.bounded
    exact lt_irrefl _ (h.rank_lt hpooled hn)

/-- All calls of `addRequest` have returned. -/
theorem returned_of_settled {r : ℕ} {p : PassedRequest} (hr : t.requests[r]? = some p) :
    t.dispatcher.calls r = .returned := by
  obtain ⟨hp, hs⟩ := ht.invariant
  exact Dispatcher.returned_of_rest hs.reachable (dispatcher_of_settled hsettled ht)
    ((hp.called r).mpr (List.getElem?_eq_some_iff.mp hr).1)

/-- The listener can take the next frame. -/
theorem exists_take {h : ℕ} (hlt : t.taken h < (t.sent h).length) :
    ∃ t', Onward poolSize session data t t' ∧
      t'.taken = Function.update t.taken h (t.taken h + 1) := by
  obtain ⟨hp, -⟩ := ht.invariant
  have hf := List.getElem?_eq_getElem hlt
  obtain ⟨m, hdecode, hbrings⟩ :=
    hp.carries h _ (List.mem_of_getElem? hf) (fun _ => ⟨0, 0⟩) ⟨0, 0⟩
  refine ⟨_, ⟨.take h _ m _ _ hf hdecode ⟨hbrings.corrupt, hbrings.isCallback⟩ ?_, rfl, .inl ?_⟩,
    rfl⟩
  · intro r p hpassed _
    exact returned_of_settled hsettled ht hpassed
  · intro heq
    have hsame := congrFun heq h
    simp at hsame

/-- A request was passed for every frame that was taken, and it was finished or is left in its
queue. -/
theorem passed_of_settled {h i : ℕ} (hi : i < t.taken h) :
    ∃ (r : ℕ) (p : _), t.requests[r]? = some p ∧ p.handle = h ∧ p.place = i ∧
      (t.HasHandled r ∨ r ∈ t.dispatcher.requests) := by
  obtain ⟨hp, hs⟩ := ht.invariant
  obtain ⟨r, p, hpassed, hhandle, hplace⟩ := hp.passed h i hi
  have hcalled := (hp.called r).mpr (List.getElem?_eq_some_iff.mp hpassed).1
  refine ⟨r, p, hpassed, hhandle, hplace, ?_⟩
  rcases Dispatcher.finished_or_queued hs.reachable (dispatcher_of_settled hsettled ht) hcalled with
    hfinished | hqueued
  · exact .inl (hs.finished r hfinished)
  · exact .inr hqueued

end

/-- Every frame was taken. -/
theorem taken_of_rest (ht : t.Reachable poolSize session data)
    (hrest : Runs.AtRest (Onward poolSize session data) t) (h : ℕ) :
    t.taken h = (t.sent h).length := by
  refine Nat.le_antisymm (ht.invariant.1.bounded h) ?_
  by_contra hlt
  obtain ⟨t', hstep, -⟩ := exists_take (settled_of_rest hrest) ht (not_le.mp hlt)
  exact hrest t' hstep

/-! ### Messages without a callback -/

/-- No message was deleted twice, and none will be while the same callbacks are registered: each
frame was handled, or its name has a callback, or it carries no string, array or struct. -/
structure Heard (t : CallbackNetwork ε) : Prop where
  outcome : ∀ x ∈ t.handled, x.outcome ≠ .deletedTwice
  frames : ∀ h (i : ℕ) f, (t.sent h)[i]? = some f → (∃ x ∈ t.handled, t.For x h i) ∨
    (t.callbacks.find? f.name).isSome ∨ ∀ v ∈ f.content, v.counted = false

/-- Then the message of a request that is not handled has a callback, or is destroyed once. -/
theorem Heard.of_not_handled (hh : t.Heard) (hp : t.Passed data) {r : ℕ} {p : PassedRequest}
    (hr : t.requests[r]? = some p) (hnot : ¬t.HasHandled r) :
    (t.callbacks.find? p.request.msg.callbackName).isSome ∨
      DestroyedOnce p.request.msg .delete := by
  obtain ⟨f, hf, hof⟩ := hp.origin r p hr
  obtain ⟨u, um, hdecode⟩ := hof.decoded
  rw [hof.brings.name]
  rcases hh.frames p.handle p.place f hf with ⟨x, hx, p', hp', hhandle, hplace⟩ | hsome | hcontent
  · exact absurd ⟨x, hx, (hp.request_unique hr hp' hhandle hplace).symm⟩ hnot
  · exact .inl hsome
  · right
    apply destroyedOnce_of_parameters hdecode hof.brings.corrupt hof.brings.isReply
    rw [hof.brings.content]
    exact hcontent

/-- It stays so while the servers send no more and the same callbacks are registered. -/
theorem Heard.step (hh : t.Heard) (hp : t.Passed data) (hs : t.Handling poolSize)
    (h : Onward poolSize session data t t') : t'.Heard := by
  obtain ⟨hstep, hsent, hmoves⟩ := h
  obtain ⟨houtcome, hframes⟩ := id hh
  cases hstep with
  | register | change => simp at hmoves
  | callCallback i =>
    have hlength := congrArg (fun sent => (sent i).length) hsent
    simp at hlength
  | take i f m u um hf =>
    refine ⟨houtcome, fun h k f hf => ?_⟩
    rcases hframes h k f hf with ⟨x, hx, p, hp, hfor⟩ | hsafe
    · have hlt := (List.getElem?_eq_some_iff.mp hp).1
      exact .inl ⟨x, hx, p, by rw [List.getElem?_append_left hlt]; exact hp, hfor⟩
    · exact .inr hsafe
  | dispatch | unlock => exact ⟨houtcome, hframes⟩
  | process w r p outcome hw hcalls hr hfree hprocess =>
    refine ⟨fun x hx => ?_, fun h k f hf => ?_⟩
    · rcases List.mem_append.mp hx with hold | hnew
      · exact houtcome x hold
      · obtain rfl := List.mem_singleton.mp hnew
        exact hprocess.ne_deletedTwice (hh.of_not_handled hp hr (hs.not_handled hw hcalls))
    · rcases hframes h k f hf with ⟨x, hx, hfor⟩ | hsafe
      · exact .inl ⟨x, List.mem_append_left _ hx, hfor⟩
      · exact .inr hsafe

/-- What has come to rest: no callback is being called, no message was deleted twice, and each frame
was passed as a request that was handled, or is left in its queue beside a full pool of waiting
workers. -/
structure AllHandled (poolSize : ℕ) (t t' : CallbackNetwork ε) : Prop where
  callbacksMutex : t'.callbacksMutex = none
  outcome : ∀ x ∈ t'.handled, x.outcome ≠ .deletedTwice
  handled : ∀ h i, i < (t.sent h).length → ∃ (r : ℕ) (p : _), t'.requests[r]? = some p ∧
    p.handle = h ∧ p.place = i ∧
      (t'.HasHandled r ∨ t'.dispatcher.Served poolSize r ∧ r ∈ t'.dispatcher.requests)

/-- Where nothing can happen and every frame was taken, all are handled. -/
theorem Settled.allHandled (hsettled : t'.Settled poolSize session data)
    (ht : t'.Reachable poolSize session data) (hh : t'.Heard)
    (htaken : ∀ h, t'.taken h = (t'.sent h).length) (hsent : t'.sent = t.sent) :
    t.AllHandled poolSize t' := by
  refine ⟨mutex_of_settled hsettled, hh.outcome, fun h i hi => ?_⟩
  rw [← hsent, ← htaken h] at hi
  obtain ⟨r, p, hp, hhandle, hplace, hhandled | hqueued⟩ := passed_of_settled hsettled ht hi
  · exact ⟨r, p, hp, hhandle, hplace, .inl hhandled⟩
  · obtain ⟨hpassed, hs⟩ := ht.invariant
    have hcalled := (hpassed.called r).mpr (List.getElem?_eq_some_iff.mp hp).1
    have hserved := Dispatcher.served hs.reachable (dispatcher_of_settled hsettled ht) hcalled
    exact ⟨r, p, hp, hhandle, hplace, .inr ⟨hserved, hqueued⟩⟩

/-! ### Without overlapping gaps -/

/-- A step from a state in which no gaps of the dispatcher overlap. -/
def Apart (poolSize : ℕ) (session : ℕ → ℤ) (data : ℕ → Option ℕ)
    (t t' : CallbackNetwork ε) : Prop :=
  ¬t.dispatcher.GapsOverlap ∧ CallbackStep poolSize session data t t'

/-- Steps without overlapping gaps are steps. -/
theorem reachable_of_apart (ht : Relation.ReflTransGen (Apart poolSize session data) initial t) :
    t.Reachable poolSize session data := by
  induction ht with
  | refl => exact .refl
  | tail _ h ih => exact ih.tail h.2

/-- The dispatcher of such a run has a run without overlapping gaps. -/
theorem apart_dispatcher (ht : Relation.ReflTransGen (Apart poolSize session data) initial t) :
    Relation.ReflTransGen (Dispatcher.ApartStep poolSize) .initial t.dispatcher := by
  induction ht with
  | refl => exact .refl
  | @tail t t' hrun h ih =>
    obtain ⟨hp, -⟩ := (reachable_of_apart hrun).invariant
    obtain ⟨hgaps, hstep⟩ := h
    cases hstep with
    | dispatch hdispatch => exact ih.tail ⟨hgaps, hdispatch.step⟩
    | take i f m u um hf =>
      have hnew : t.dispatcher.calls t.requests.length = .notCalled := by
        by_contra hcalled
        exact absurd ((hp.called _).mp hcalled) (lt_irrefl _)
      exact ih.tail ⟨hgaps, .addRequest _ hnew⟩
    | _ => exact ih

/-! ### In order -/

/-- The first request was passed before the second, and both came in on one connection. -/
def Before (t : CallbackNetwork ε) (r r' : ℕ) : Prop :=
  r < r' ∧ ∃ p p', t.requests[r]? = some p ∧ t.requests[r']? = some p' ∧ p.handle = p'.handle

/-- The dispatcher keeps the requests of each connection in order, and they were handled so. -/
structure Ordered (t : CallbackNetwork ε) : Prop where
  dispatcher : t.dispatcher.InOrder t.Before
  handled : ∀ (k : ℕ) x, t.handled[k]? = some x → ∀ r, t.Before r x.request →
    ∃ k' < k, ∃ x', t.handled[k']? = some x' ∧ x'.request = r

/-- A request that was passed before is one that was there, or the new one is the second. -/
theorem before_append {p : PassedRequest} {r r' : ℕ}
    (h : ({ t with requests := t.requests ++ [p] } : CallbackNetwork ε).Before r r') :
    t.Before r r' ∨
      r' = t.requests.length ∧ ∃ q, t.requests[r]? = some q ∧ q.handle = p.handle := by
  obtain ⟨hlt, q, q', hq, hq', hhandle⟩ := h
  have hle : r' ≤ t.requests.length := by
    have hbound := (List.getElem?_eq_some_iff.mp hq').1
    rw [List.length_append, List.length_singleton] at hbound
    omega
  rw [List.getElem?_append_left (by omega)] at hq
  rcases Nat.lt_or_eq_of_le hle with hold | rfl
  · rw [List.getElem?_append_left hold] at hq'
    exact .inl ⟨hlt, q, q', hq, hq', hhandle⟩
  · obtain rfl := Option.some.inj (List.getElem?_concat_length.symm.trans hq')
    exact .inr ⟨rfl, q, hq, hhandle⟩

/-- Without overlapping gaps one worker keeps the order. -/
theorem Ordered.step (ho : t.Ordered) (hp : t.Passed data) (hs : t.Handling 1)
    (hempty : t.dispatcher.OneEmpty) (h : CallbackStep 1 session data t t') : t'.Ordered := by
  obtain ⟨hpooled, hplaced⟩ := hs.reachable.invariant
  have hwaits := hs.reachable.waits
  have hirrefl : ∀ t : CallbackNetwork ε, ∀ r, ¬t.Before r r := fun t r h => lt_irrefl r h.1
  obtain ⟨hdispatcher, hhandled⟩ := ho
  cases h with
  | register | callCallback | unlock | change => exact ⟨hdispatcher, hhandled⟩
  | dispatch hdispatch hfinish =>
    refine ⟨hdispatcher.step hplaced hdispatch.step hpooled hwaits hempty (hirrefl t) ?_, hhandled⟩
    intro r' hr' hcalled
    exact absurd (hdispatch.notCalled r' hr') hcalled
  | take i f m u um hf hdecode hm hidle =>
    have hnew : t.dispatcher.calls t.requests.length = .notCalled := by
      by_contra hcalled
      exact absurd ((hp.called _).mp hcalled) (lt_irrefl _)
    refine ⟨?_, ?_⟩
    · refine (hdispatcher.extend hplaced ?_).step hplaced (.addRequest _ hnew) hpooled hwaits hempty
        (hirrefl _) ?_
      · intro r r' hbefore
        rcases before_append hbefore with hold | ⟨rfl, -⟩
        · exact .inl hold
        · exact .inr hnew
      · intro r' hr' hcalled r hbefore
        have heq : r' = t.requests.length := by
          by_contra hne
          rw [Dispatcher.calls_setCall, if_neg hne] at hcalled
          exact hcalled hr'
        rcases before_append hbefore with ⟨-, -, p', -, hp', -⟩ | ⟨-, q, hq, hhandle⟩
        · rw [heq, List.getElem?_eq_none_iff.mpr le_rfl] at hp'
          cases hp'
        · exact hidle r q hq hhandle
    · intro k x hx r hbefore
      rcases before_append hbefore with hold | ⟨heq, -⟩
      · exact hhandled k x hx r hold
      · obtain ⟨-, p, hpassed, -⟩ := hs.outcome x (List.mem_of_getElem? hx)
        rw [heq, List.getElem?_eq_none_iff.mpr le_rfl] at hpassed
        cases hpassed
  | process w r p outcome hw hcalls hp' hfree =>
    refine ⟨hdispatcher, ?_⟩
    intro k x hx i hbefore
    by_cases hold : k < t.handled.length
    · rw [List.getElem?_append_left hold] at hx
      obtain ⟨k', hk', x', hx', hrequest⟩ := hhandled k x hx i hbefore
      refine ⟨k', hk', x', ?_, hrequest⟩
      rw [List.getElem?_append_left (by omega)]
      exact hx'
    · obtain ⟨rfl, rfl⟩ : k = t.handled.length ∧ x = ⟨r, t.changes.length, outcome⟩ := by
        have hbound := (List.getElem?_eq_some_iff.mp hx).1
        rw [List.length_append, List.length_singleton] at hbound
        obtain rfl : k = t.handled.length := by omega
        exact ⟨rfl, (Option.some.inj (List.getElem?_concat_length.symm.trans hx)).symm⟩
      -- the worker has the request, so those before it are finished
      have hfinished := hdispatcher.given i r hbefore (.inr (.inl ⟨w, hw⟩))
      obtain ⟨x', hmem, hrequest⟩ := hs.finished i hfinished
      obtain ⟨k', hk'⟩ := List.mem_iff_getElem?.mp hmem
      have hlt := (List.getElem?_eq_some_iff.mp hk').1
      exact ⟨k', hlt, x', by rw [List.getElem?_append_left hlt]; exact hk', hrequest⟩

/-- Nothing is out of order before the first call. -/
theorem ordered_initial : (initial : CallbackNetwork ε).Ordered := by
  refine ⟨⟨?_, ?_, ?_⟩, ?_⟩
  · rintro r r' ⟨-, p, p', hp, -⟩
    simp [initial] at hp
  · rintro r r' ⟨-, p, p', hp, -⟩
    simp [initial] at hp
  · simp [initial, Dispatcher.initial]
  · simp [initial]

/-- One worker keeps the order in every run without overlapping gaps. -/
theorem ordered_of_apart (ht : Relation.ReflTransGen (Apart 1 session data) initial t) :
    t.Ordered := by
  induction ht with
  | refl => exact ordered_initial
  | tail hrun h ih =>
    obtain ⟨hp, hs⟩ := (reachable_of_apart hrun).invariant
    exact ih.step hp hs (Dispatcher.oneEmpty_run (apart_dispatcher hrun)) h.2

end CallbackNetwork

end NymphRpc
