import NymphRpc.Network.Rest

/-!
# Remote calls

What a client and its servers are for: a call by name comes back with what the method of that name
has answered, the method is run once for it, and if the answers come in time then every call is
answered.

All this is for reliable links, for clients that are in step with their servers, whose methods
were registered and removed without harm, and for methods that reply with values of the right size;
what a run does until a listener deletes a message twice is what is said of it.
-/

namespace NymphRpc

open NymphMessage NymphRemoteClient Network

/-! ### A server with one method -/

/-- A peer whose method 'c' always answers true. -/
def constantPeer : Peer where
  server := constantServer (.ofBool ⟨0, 0⟩ true)
  session := 0
  surroundings _ := blankSurroundings
  known := NymphServerInstance.addMethod NymphServerInstance.connected [0x63]
    (.make [0x63] [] .bool NymphServerInstance.dummyCallback)

/-- The client has synchronised with the peer, and its method answers. -/
theorem answering_constantPeer : constantPeer.Answering where
  registered := by
    have hharmless : Harmless init
        (.registerMethod [0x63] (constantMethod (.ofBool ⟨0, 0⟩ true))) :=
      .inr (.inr ⟨by decide, .inr (.inr ⟨rfl, rfl, by decide, rfl⟩)⟩)
    exact ⟨[.registerMethod [0x63] (constantMethod (.ofBool ⟨0, 0⟩ true))],
      List.forall_mem_singleton.mpr NymphMethodCallback.noConfusion,
      ⟨hharmless, fun _ _ => trivial⟩, rfl⟩
  synchronised := ⟨⟨_, rfl, rfl⟩, _, rfl, rfl⟩
  replying := replying_constantServer (.boolean ⟨0, 0⟩ true) (by decide)
  syncTable := by
    intro methods hmethods
    cases hmethods
    decide +kernel

/-- The method of the peer answers a request for it. -/
theorem answers_constantPeer {q : NymphMessage} (hframe : RequestFrame q.frame q [])
    (hshort : q.frame.length < 2 ^ 31 + 8) (hid : q.methodId = 1) (n : ℕ) :
    constantPeer.Answers n q [] ((constantMethod (.ofBool ⟨0, 0⟩ true)).setId 1)
      (.boolean true) := by
  obtain ⟨msg, hdecode, hreceived⟩ := hframe.decode hshort le_rfl blankSurroundings.uninit
    blankSurroundings.request
  refine ⟨?_, ⟨msg, _, hdecode, hreceived, rfl, .mk ⟨0, 0⟩ _ (.boolean ⟨0, 0⟩ true)⟩, rfl⟩
  rw [hid]
  rfl

/-- A call asks the peer for its method, and has not timed out. -/
structure Asks (t : Network) : Prop where
  entered : (t.client.calls 0).phase ≠ .ready
  handle : (t.client.calls 0).handle = 0
  asked : t.asked 0 = ([0x63], ⟨[], [], .nil, by decide⟩)
  inTime : (t.client.calls 0).phase.timedOut = false

/-- The call goes on asking for it. -/
theorem Asks.step {t t' : Network} (hs : Asks t) (h : Onward (fun _ => constantPeer) t t') :
    Asks t' := by
  obtain ⟨hentered, hhandle, hasked, htime⟩ := hs
  obtain ⟨hentered', hhandle', hasked'⟩ := h.keeps hentered
  refine ⟨hentered', hhandle'.trans hhandle, hasked'.trans hasked, ?_⟩
  by_contra htime'
  have hbefore := h.timedOut (Bool.of_not_eq_false htime')
  rw [htime] at hbefore
  cases hbefore

/-- No call has timed out. -/
theorem Asks.lateHarmless {t : Network} (hs : Asks t) (hn : t.Counted 1) {peers : ℕ → Peer} :
    t.LateHarmless peers := by
  intro j q htime
  have hnot : (t.client.calls j).phase.timedOut = false := by
    cases j with
    | zero => exact hs.inTime
    | succ j =>
      rw [hn.ready (j + 1) (by omega)]
      rfl
  rw [hnot] at htime
  cases htime

/-- A connection is added and the call is made, which is all that happens. -/
theorem exists_asks : ∃ t t' : Network, NetworkStep (fun _ => constantPeer) initial t ∧
    NetworkStep (fun _ => constantPeer) t t' ∧ (∀ i, t.links i = ⟨[], [], []⟩) ∧
      (∀ i, t'.links i = ⟨[], [], []⟩) ∧ (t'.client.calls 0).phase = .entered ∧ Asks t' ∧
        t'.Counted 1 := by
  have hlisted : NetworkStep (fun _ => constantPeer) initial _ :=
    .client (.addConnection 0) (by simp) (by simp [initial, Calls.initial]) rfl
  refine ⟨_, _, hlisted, .enter 0 0 true [0x63] ⟨[], [], .nil, by decide⟩ rfl (by simp) rfl,
    fun _ => rfl, fun _ => rfl, rfl, ⟨by simp, rfl, rfl, rfl⟩, fun j hj => ?_, by decide⟩
  simp [initial, Calls.initial, Nat.ne_of_gt hj]

/-- The call comes back, and it neither is refused nor times out. -/
theorem Asks.returned {t : Network} (hs : Asks t) (ht : t.Reachable (fun _ => constantPeer))
    (hsettled : t.Settled fun _ => constantPeer) (hn : t.Counted 1)
    (hreplies : ∀ h, (t.links h).replies = []) :
    ∃ o, (t.client.calls 0).phase = .returned o ∧ (t.client.calls 0).phase.signalled ∧
      o ≠ .timedOut ∧ ¬t.Refuses (fun _ => constantPeer) 0 ∧ ∃ q ∈ (t.links 0).served,
        (t.client.calls 0).message = some q := by
  have hpeers : ∀ _ : ℕ, constantPeer.Answering := fun _ => answering_constantPeer
  obtain ⟨hentered, hhandle, hasked, htime⟩ := hs
  have hknown : constantPeer.known.methods.find? (t.asked 0).1 = some ⟨1, (NymphMethod.make [0x63]
      [] .bool NymphServerInstance.dummyCallback).setId 1⟩ := by
    rw [hasked]
    rfl
  rcases returned_of_settled hpeers ht hsettled hn hreplies hentered with
    ⟨o, ho⟩ | ⟨hwaiting, i, q, -, hq, hnone⟩
  · have hnot : ¬t.Refuses (fun _ => constantPeer) 0 := by
      intro hrefuses
      refine hrefuses _ hknown ?_
      rw [hasked]
      exact ⟨rfl, by simp⟩
    have htimedOut : o ≠ .timedOut := by
      rintro rfl
      rw [ho] at htime
      cases htime
    have hsignalled : (t.client.calls 0).phase.signalled := by
      cases o with
      | refused => exact absurd (ht.explained.refused 0 ho) hnot
      | sendFailed => exact absurd ho (ht.explained.sendFailed 0)
      | timedOut => exact absurd rfl htimedOut
      | exception | value => rw [ho]; rfl
    have hsent : (t.client.calls 0).phase.isSent := by
      rw [ho] at hsignalled ⊢
      cases o <;> first | rfl | cases hsignalled
    obtain ⟨q, hq⟩ :=
      (ht.invariant hpeers).1.composed 0 (CallPhase.identified_of_isSent hsent)
    have hmem := (ht.tracked hpeers).sent 0 q hsent hq.message
    rw [requests_of_settled hpeers ht hsettled, List.append_nil, hhandle] at hmem
    exact ⟨o, ho, hsignalled, htimedOut, hnot, q, hmem, hq.message⟩
  · -- the server has the method and answers
    obtain ⟨q', hcomposed⟩ := (ht.invariant hpeers).1.composed 0 (by rw [hwaiting]; rfl)
    cases hq.symm.trans hcomposed.message
    obtain ⟨node, hnode, hid⟩ := hcomposed.method
    cases hknown.symm.trans hnode
    have hframe := hcomposed.frame
    rw [hasked] at hframe hnone
    exact absurd (answers_constantPeer hframe hcomposed.short hid i) (hnone _ _)

/-- The network gets to where the call has come back. -/
theorem reachable_returned : ∃ (t : Network) (o : CallOutcome),
    t.Reachable (fun _ => constantPeer) ∧ (t.client.calls 0).phase = .returned o ∧
      o ≠ .timedOut ∧ ¬t.Refuses (fun _ => constantPeer) 0 ∧ ∃ q ∈ (t.links 0).served,
        (t.client.calls 0).message = some q := by
  obtain ⟨t, t', hlisted, hentered, -, -, -, hasks, hn⟩ := exists_asks
  have ht : Network.Reachable (fun _ => constantPeer) t' := .tail (.single hlisted) hentered
  have hpeers : ∀ _ : ℕ, constantPeer.Answering := fun _ => answering_constantPeer
  obtain ⟨t'', hrun, hrest⟩ := Runs.exists_rest_of_acc (ht.ends hpeers)
  obtain ⟨ht', hn', hasks'⟩ : t''.Reachable (fun _ => constantPeer) ∧ t''.Counted 1 ∧ Asks t'' := by
    refine Runs.invariant (I := fun t => t.Reachable (fun _ => constantPeer) ∧ t.Counted 1 ∧ Asks t)
      ?_ ⟨ht, hn, hasks⟩ hrun
    rintro t₁ t₂ ⟨ht, hn, hasks⟩ h
    exact ⟨ht.tail h.step, hn.step h, hasks.step h⟩
  obtain ⟨o, ho, -, htimedOut, hnot, hq⟩ :=
    hasks'.returned ht' (settled_of_rest hrest) hn'
      (replies_of_rest hpeers ht' hrest hn' (hasks'.lateHarmless hn'))
  exact ⟨t'', o, ht', ho, htimedOut, hnot, hq⟩

/-! ### What a call returns -/

/-- A remote call is a call of the method. Whatever the threads of the client and the sessions of
its servers do, a call that returns was refused because the client has no method of its name that
takes its arguments, has timed out, or returns the value with which the method that its server
has under the name answered these arguments. -/
theorem returned_ownAnswer {peers : ℕ → Peer} (hpeers : ∀ h, (peers h).Answering) {t : Network}
    (ht : t.Reachable peers) {j : ℕ} {o : CallOutcome}
    (hret : (t.client.calls j).phase = .returned o) :
    o = .refused ∧ t.Refuses peers j ∨ o = .timedOut ∨
      ∃ k v, o = .value (some k) ∧ t.ReturnsAnswer peers j k v := by
  cases o with
  | refused => exact .inl ⟨rfl, ht.explained.refused j hret⟩
  | timedOut => exact .inr (.inl rfl)
  | sendFailed => exact absurd hret (ht.explained.sendFailed j)
  | exception data => exact .inr (.inr (ht.returnsAnswer hpeers hret (by rw [hret]; rfl)))
  | value r => exact .inr (.inr (ht.returnsAnswer hpeers hret (by rw [hret]; rfl)))

/-- A call of the method 'c' returns what the server answers. -/
theorem returned_ownAnswer_constant : ∃ (t : Network) (k : ℕ) (v : Value),
    (t.client.calls 0).phase = .returned (.value (some k)) ∧
      t.ReturnsAnswer (fun _ => constantPeer) 0 k v := by
  obtain ⟨t, o, ht, hret, htime, hrefuses, -⟩ := reachable_returned
  rcases returned_ownAnswer (fun _ => answering_constantPeer) ht hret with
    ⟨-, h⟩ | h | ⟨k, v, rfl, hreturns⟩
  · exact absurd h hrefuses
  · exact absurd h htime
  · exact ⟨t, k, v, hret, hreturns⟩

/-- A method is run at most once for a call, and for a call only whose request was sent. What a
session has served was made by one call on its connection, which has sent it; and no two requests
that it has served are of the same call. -/
theorem served_once {peers : ℕ → Peer} (hpeers : ∀ h, (peers h).Answering) {t : Network}
    (ht : t.Reachable peers) (h : ℕ) :
    (∀ q ∈ (t.links h).served, ∃! j, (t.client.calls j).message = some q ∧
      (t.client.calls j).handle = h ∧ (t.client.calls j).phase.isSent) ∧
    ∀ (n n' : ℕ) (q q' : NymphMessage) (j : ℕ), (t.links h).served[n]? = some q →
      (t.links h).served[n']? = some q' →
      (t.client.calls j).message = some q → (t.client.calls j).message = some q' → n = n' := by
  obtain ⟨hs, hc⟩ := ht.invariant hpeers
  have honce := hs.once h
  rw [List.map_append] at honce
  have hnodup := (List.nodup_append'.mp honce).1
  refine ⟨fun q hq => ?_, ?_⟩
  · obtain ⟨j, hhandle, hsent, hmessage⟩ := hs.sent h q (List.mem_append_left _ hq)
    refine ⟨j, ⟨hmessage, hhandle, hsent⟩, ?_⟩
    rintro i ⟨hmessage', -, hsent'⟩
    have hi := CallPhase.identified_of_isSent hsent'
    have hj := CallPhase.identified_of_isSent hsent
    obtain ⟨x, hx, hxid⟩ := hc.serialized i hi
    obtain ⟨y, hy, hyid⟩ := hc.serialized j hj
    cases hmessage'.symm.trans hx
    cases hmessage.symm.trans hy
    exact hc.unique i j hi hj (hxid.symm.trans hyid)
  · intro n n' q q' j hn hn' hq hq'
    cases hq.symm.trans hq'
    have hlt := (List.getElem?_eq_some_iff.mp hn).1
    apply (List.getElem?_inj (by simpa using hlt) hnodup).mp
    rw [List.getElem?_map, List.getElem?_map, hn, hn']

/-- The session has served the request of the call of the method 'c' once. -/
theorem served_once_constant : ∃ (t : Network) (q : NymphMessage), q ∈ (t.links 0).served ∧
    ∃! j, (t.client.calls j).message = some q ∧ (t.client.calls j).handle = 0 ∧
      (t.client.calls j).phase.isSent := by
  obtain ⟨t, o, ht, -, -, -, q, hq, -⟩ := reachable_returned
  exact ⟨t, q, hq, (served_once (fun _ => answering_constantPeer) ht 0).1 q hq⟩

/-- Every call is answered. From any state the network can get into, if no call enters and none
times out any more, there are message IDs left, and what can still come in for a call that has timed
out is no string, array or struct, then it comes to rest in whatever order the threads and the
sessions take their steps; and then all requests were served and all answers taken, and every call
that had entered has returned, or the server has no method for it that answers with a value of its
type. -/
theorem allAnswered {peers : ℕ → Peer} (hpeers : ∀ h, (peers h).Answering) {t : Network}
    (ht : t.Reachable peers) {n : ℕ} (hn : t.Counted n) (hlate : t.LateHarmless peers) :
    Runs.ComesToRest (Onward peers) (t.AllAnswered peers) t where
  ends := ht.ends hpeers
  rest t' hrun hrest := by
    have hstep : ∀ t₁ t₂,
        t₁.Reachable peers ∧ t₁.Counted n ∧ t₁.LateHarmless peers ∧ t.Follows t₁ →
        Onward peers t₁ t₂ →
        t₂.Reachable peers ∧ t₂.Counted n ∧ t₂.LateHarmless peers ∧ t.Follows t₂ := by
      rintro t₁ t₂ ⟨ht, hn, hlate, hfollows⟩ h
      exact ⟨ht.tail h.step, hn.step h, hlate.step (ht.invariant hpeers).1 h, hfollows.step h⟩
    obtain ⟨ht', hn', hlate', hfollows⟩ :=
      Runs.invariant hstep ⟨ht, hn, hlate, fun j hj => ⟨hj, fun h => h⟩⟩ hrun
    exact hfollows.answersAll hpeers ht' (settled_of_rest hrest) hn'
      (replies_of_rest hpeers ht' hrest hn' hlate')

/-- A call of the method 'c' that has entered comes to its end. -/
theorem allAnswered_constant : ∃ t t' : Network, (t.client.calls 0).phase = .entered ∧
    Relation.ReflTransGen (Onward fun _ => constantPeer) t t' ∧
      t.AllAnswered (fun _ => constantPeer) t' := by
  obtain ⟨t₀, t, hlisted, hentered, -, -, hphase, hasks, hn⟩ := exists_asks
  have ht : Network.Reachable (fun _ => constantPeer) t := .tail (.single hlisted) hentered
  obtain ⟨t', hrun, -, hanswered⟩ :=
    (allAnswered (fun _ => answering_constantPeer) ht hn (hasks.lateHarmless hn)).exists_run
  exact ⟨t, t', hphase, hrun, hanswered⟩

end NymphRpc
