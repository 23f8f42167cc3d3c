import NymphRpc.Network.RemoteCallbacks
import NymphRpc.Network.RemoteCalls
import NymphRpc.Network.Traffic

/-!
# Calls and callbacks together

A call does not come back before the callbacks were passed to the dispatcher that its server had
called before it served the request. And the two do not hold each other up: the listener waits for
`addRequest` only, and neither a reply nor a callback that comes first keeps the other from being
taken. So together the calls and the callbacks come to rest as each do alone, on reliable links and
with servers that answer as in the network of calls.
-/

namespace NymphRpc

open NymphMessage Network Traffic

/-- Either no listener takes a reply, or one does. -/
theorem Network.adds_or_takes {peers : ℕ → Peer} {t t' : Network} (h : NetworkStep peers t t') :
    (∃ i log, t.Adds t' i log) ∨ ∃ i, (t'.links i).replies.length < (t.links i).replies.length := by
  cases h with
  | client | enter | refuse | compose => exact .inl ⟨0, [], fun i => by simp⟩
  | send j q hphase hq =>
    refine .inl ⟨0, [], fun i => ?_⟩
    rw [links_setLink]
    split_ifs <;> simp
  | serve i q rest hq hserve =>
    refine .inl ⟨i, ((peers i).serve (t.links i).served.length q).log, fun h => ?_⟩
    rw [links_setLink]
    split_ifs with heq
    · rw [heq]
    · simp
  | drop i r rest m u um hr | notFound i r rest m u um hr | find i r rest m j u um hr =>
    refine .inr ⟨i, ?_⟩
    rw [links_setLink, if_pos rfl, hr]
    exact Nat.lt_succ_self _

/-- The listener that goes on with the rest has taken the first. -/
theorem Network.takes_setLink {t : Network} {h : ℕ} {r : NymphMessage} {rest : List NymphMessage}
    (hr : (t.links h).replies = r :: rest) (c : Calls) :
    t.Takes ({ t with client := c }.setLink h fun l => { l with replies := rest }) h := by
  refine ⟨r, rest, hr, fun i => ?_⟩
  rw [links_setLink]
  split_ifs <;> rfl

namespace Traffic

variable {ε : Type} {peers : ℕ → Peer} {poolSize : ℕ} {data : ℕ → Option ℕ} {t t' : Traffic ε}

/-- A step by which the calls or the callbacks get on. -/
structure Onward (peers : ℕ → Peer) (poolSize : ℕ) (data : ℕ → Option ℕ) (t t' : Traffic ε) :
    Prop where
  step : TrafficStep peers poolSize data t t'
  moves : Network.Onward peers t.calls t'.calls ∧ t'.callbacks = t.callbacks ∨
    CallbackNetwork.Onward poolSize (fun h => (peers h).session) data t.callbacks t'.callbacks ∧
      t'.calls = t.calls

/-- Every run comes to an end. -/
theorem Reachable.ends (hpeers : ∀ h, (peers h).Answering)
    (ht : t.Reachable peers poolSize data) :
    Acc (fun t' t => Onward peers poolSize data t t') t :=
  Runs.acc_of_parts Traffic.calls Traffic.callbacks (fun _ _ h => h.moves)
    (ht.parts.1.ends hpeers) ht.parts.2.ends

section

variable (hrest : Runs.AtRest (Onward peers poolSize data) t)

include hrest

/-- The calls are settled. -/
theorem settled_calls : t.calls.Settled peers := by
  intro n h
  rcases adds_or_takes h.step with ⟨i, log, hadds⟩ | htakes
  · exact absurd ⟨.calls i log h.step hadds, .inl ⟨h, rfl⟩⟩ (hrest _)
  · exact htakes

/-- So are the callbacks. -/
theorem settled_callbacks :
    t.callbacks.Settled poolSize (fun h => (peers h).session) data := by
  intro c h htaken
  exact absurd ⟨.callbacks h.step h.sent htaken, .inr ⟨h, rfl⟩⟩ (hrest _)

/-- Nothing is left on the links. -/
theorem frames_of_rest (hpeers : ∀ h, (peers h).Answering)
    (ht : t.Reachable peers poolSize data) {n : ℕ} (hn : t.calls.Counted n)
    (hlate : t.calls.LateHarmless peers) (h : ℕ) : t.frames h = [] := by
  obtain ⟨hcalls, hcallbacks⟩ := ht.parts
  have hsettled := settled_calls hrest
  have hmerged := ht.merged
  cases hframes : t.frames h with
  | nil => rfl
  | cons k rest =>
    cases k with
    | reply =>
      have hcount := hmerged.replies h
      rw [hframes, List.count_cons_self] at hcount
      cases hr : (t.calls.links h).replies with
      | nil =>
        rw [hr] at hcount
        cases hcount
      | cons r others =>
        obtain ⟨c, hstep⟩ := Network.exists_take hpeers hcalls hsettled hn hlate hr
        refine absurd ⟨.reply h rest hstep.step (takes_setLink hr c) hframes ?_,
          .inl ⟨hstep, rfl⟩⟩ (hrest _)
        intro k p hp _
        exact CallbackNetwork.returned_of_settled (settled_callbacks hrest) hcallbacks hp
    | callback =>
      have hcount := hmerged.callbacks h
      rw [hframes, List.count_cons_self] at hcount
      obtain ⟨c, hstep, htaken⟩ := CallbackNetwork.exists_take (settled_callbacks hrest) hcallbacks
        (h := h) (by omega)
      have hstill := still_of_settled hpeers hcalls hsettled hn
      have hidle := hcalls.harmless.sound.idle_of_still hstill h
      exact absurd ⟨.take h rest hstep.step hstep.sent htaken hframes hidle, .inr ⟨hstep, rfl⟩⟩
        (hrest _)

end

/-- What has come to rest: the calls are answered and the callbacks handled. -/
structure Done (peers : ℕ → Peer) (poolSize : ℕ) (t t' : Traffic ε) : Prop where
  frames : ∀ h, t'.frames h = []
  calls : t.calls.AllAnswered peers t'.calls
  callbacks : t.callbacks.AllHandled poolSize t'.callbacks

/-- The calls that had entered are still there, no callback was called since, and neither a late
answer nor a callback is a message that is deleted twice. -/
structure Later (peers : ℕ → Peer) (poolSize : ℕ) (data : ℕ → Option ℕ) (n : ℕ)
    (t t' : Traffic ε) : Prop where
  reachable : t'.Reachable peers poolSize data
  counted : t'.calls.Counted n
  late : t'.calls.LateHarmless peers
  heard : t'.callbacks.Heard
  follows : t.calls.Follows t'.calls
  sent : t'.callbacks.sent = t.callbacks.sent

/-- So it is after every step. -/
theorem Later.step {n : ℕ} {t'' : Traffic ε} (hpeers : ∀ h, (peers h).Answering)
    (hs : Later peers poolSize data n t t') (h : Onward peers poolSize data t' t'') :
    Later peers poolSize data n t t'' := by
  obtain ⟨ht, hn, hlate, hheard, hfollows, hsent⟩ := hs
  obtain ⟨hstep, ⟨hcalls, hsame⟩ | ⟨hcallbacks, hsame⟩⟩ := h
  · have hl := (ht.parts.1.invariant hpeers).1
    exact ⟨ht.tail hstep, hn.step hcalls, hlate.step hl hcalls, hsame ▸ hheard,
      hfollows.step hcalls, hsame ▸ hsent⟩
  · obtain ⟨hp, hs⟩ := ht.parts.2.invariant
    exact ⟨ht.tail hstep, hsame ▸ hn, hsame ▸ hlate, hheard.step hp hs hcallbacks,
      hsame ▸ hfollows, hcallbacks.sent.trans hsent⟩

/-- Where nothing can happen, all is done. -/
theorem Later.done {n : ℕ} (hs : Later peers poolSize data n t t')
    (hpeers : ∀ h, (peers h).Answering) (hrest : Runs.AtRest (Onward peers poolSize data) t') :
    t.Done peers poolSize t' := by
  obtain ⟨ht, hn, hlate, hheard, hfollows, hsent⟩ := hs
  have hframes := frames_of_rest hrest hpeers ht hn hlate
  have hmerged := ht.merged
  have hreplies : ∀ h, (t'.calls.links h).replies = [] := by
    intro h
    have hcount := hmerged.replies h
    rw [hframes h] at hcount
    exact List.eq_nil_of_length_eq_zero hcount.symm
  have htaken : ∀ h, t'.callbacks.taken h = (t'.callbacks.sent h).length := by
    intro h
    have hcount := hmerged.callbacks h
    rw [hframes h, List.count_nil, Nat.zero_add] at hcount
    exact hcount
  exact ⟨hframes, hfollows.answersAll hpeers ht.parts.1 (settled_calls hrest) hn hreplies,
    (settled_callbacks hrest).allHandled ht.parts.2 hheard htaken hsent⟩

end Traffic

/-- A callback is called for which the client has one, and then a call of the method 'c' is made. -/
theorem exists_traffic : ∃ t : Traffic UInt32,
    t.Reachable (fun _ => constantPeer) 1 (fun _ => none) ∧ 0 < (t.callbacks.sent 0).length ∧
      (t.calls.links 0).served = [] ∧ (t.calls.client.calls 0).phase = .entered ∧
        Asks t.calls ∧ t.calls.Counted 1 ∧ t.callbacks.Heard := by
  obtain ⟨n, n', hlisted, hentered, hlinks, hlinks', hphase, hasks, hn⟩ := exists_asks
  let serving : CallbackNetwork UInt32 := { CallbackNetwork.initial with
    servers := Function.update (fun _ => .empty) 0 CallbackNetwork.plainServer }
  let registered : CallbackNetwork UInt32 := { serving with
    changes := [.addCallback CallbackNetwork.plainListener] }
  have hserving : Traffic.Reachable (fun _ => constantPeer) 1 (fun _ => none)
      { (initial : Traffic UInt32) with callbacks := serving } :=
    .single (.callbacks (.register 0 (.registerCallback [0x63] CallbackNetwork.plainCallback))
      rfl rfl)
  have hregistered : Traffic.Reachable (fun _ => constantPeer) 1 (fun _ => none)
      { (initial : Traffic UInt32) with callbacks := registered } :=
    hserving.tail (.callbacks (.change (.addCallback CallbackNetwork.plainListener)) rfl rfl)
  have hhears : registered.Hears :=
    ⟨rfl, fun _ _ hf => absurd hf List.not_mem_nil, rfl, fun _ hx => absurd hx List.not_mem_nil⟩
  obtain ⟨f, hcall, hheard⟩ :=
    @CallbackNetwork.Hears.exists_called 1 (fun _ => 0) (fun _ => none) registered hhears
  have hlistedAdds : Network.initial.Adds n 0 [] := fun i => by
    rw [hlinks]
    split_ifs <;> rfl
  have henteredAdds : n.Adds n' 0 [] := fun i => by
    rw [hlinks', hlinks]
    split_ifs <;> rfl
  refine ⟨_, ((hregistered.tail (.callCallback 0 f hcall rfl rfl)).tail
    (.calls 0 [] hlisted hlistedAdds)).tail (.calls 0 [] hentered henteredAdds), ?_, ?_, hphase,
    hasks, hn, hheard.heard⟩
  · simp
  · simp [hlinks']

/-- A call comes back after the callbacks that were called before it was served. In every run of a
client with its servers, when a call was signalled whose request a session had not served at some
state, all callbacks that the server had called on the connection until then were passed to the
dispatcher. -/
theorem passed_of_signalled {ε : Type} {peers : ℕ → Peer} (hpeers : ∀ h, (peers h).Answering)
    {poolSize : ℕ} {data : ℕ → Option ℕ} {s t : Traffic ε} (hs : s.Reachable peers poolSize data)
    (hrun : Relation.ReflTransGen (TrafficStep peers poolSize data) s t) {j : ℕ} {q : NymphMessage}
    (hj : (t.calls.client.calls j).phase.signalled)
    (hq : (t.calls.client.calls j).message = some q)
    (hlate : q ∉ (s.calls.links (t.calls.client.calls j).handle).served) :
    PassedSince s t (t.calls.client.calls j).handle := by
  obtain ⟨ht, hcomes, hserved⟩ := comes_of_run hs hrun (t.calls.client.calls j).handle
  rcases hcomes with hpassed | ⟨before, after, old, new, hpending⟩
  · exact hpassed
  · obtain ⟨hl, hc⟩ := ht.parts.1.invariant hpeers
    obtain ⟨hl₀, -⟩ := hs.parts.1.invariant hpeers
    have hid := CallPhase.identified_of_signalled hj
    obtain ⟨sent, hsent, hsentId⟩ := hc.serialized j hid
    cases hq.symm.trans hsent
    obtain ⟨k, m, hm, -⟩ := hc.signalled j hj
    -- the answer belongs to a request that was served by then
    obtain ⟨q', hq', hid'⟩ : ∃ q' ∈ (s.calls.links (t.calls.client.calls j).handle).served,
        q'.messageId = m.responseId := by
      rcases hpending.received m (List.mem_of_getElem? hm.received) with hold | ⟨r, hr, hdecodes⟩
      · exact hl₀.served_of_received hold
      · exact hl₀.served_of_decodes hr hdecodes
    have hsame := hl.eq_of_messageId hc hid hq (hserved q' hq')
      (hid'.trans (hm.responseId.trans hsentId.symm))
    exact absurd (hsame ▸ hq') hlate

/-- The callback is passed before the call comes back. -/
theorem passed_of_signalled_constant : ∃ s t : Traffic UInt32, 0 < (s.callbacks.sent 0).length ∧
    (t.calls.client.calls 0).phase.signalled ∧ PassedSince s t 0 := by
  obtain ⟨s, hs, hsent, hserved, hphase, hasks, hn, hheard⟩ := exists_traffic
  have hpeers : ∀ _ : ℕ, constantPeer.Answering := fun _ => answering_constantPeer
  obtain ⟨t, hrun, hrest⟩ := Runs.exists_rest_of_acc (hs.ends hpeers)
  let I (t : Traffic UInt32) : Prop := Relation.ReflTransGen
    (TrafficStep (fun _ => constantPeer) 1 fun _ => none) s t ∧ Asks t.calls ∧
      Later (fun _ => constantPeer) 1 (fun _ => none) 1 s t
  have hstep : ∀ t t', I t → Onward (fun _ => constantPeer) 1 (fun _ => none) t t' → I t' := by
    rintro t t' ⟨hrun, hasks, hlater⟩ h
    refine ⟨hrun.tail h.step, ?_, hlater.step hpeers h⟩
    rcases h.moves with ⟨hcalls, -⟩ | ⟨-, hsame⟩
    · exact hasks.step hcalls
    · exact hsame ▸ hasks
  obtain ⟨hrun', hasks', hlater⟩ := Runs.invariant hstep
    ⟨.refl, hasks, hs, hn, hasks.lateHarmless hn, hheard, fun j hj => ⟨hj, fun h => h⟩, rfl⟩ hrun
  obtain ⟨o, ho, hsignalled, -, -, q, hq, hmessage⟩ := hasks'.returned hlater.reachable.parts.1
    (settled_calls hrest) hlater.counted (hlater.done hpeers hrest).calls.replies
  have hpassed := passed_of_signalled hpeers hs hrun' hsignalled hmessage
    (by rw [hasks'.handle, hserved]; exact List.not_mem_nil)
  rw [hasks'.handle] at hpassed
  exact ⟨s, t, hsent, hsignalled, hpassed⟩

/-- Calls and callbacks do not hold each other up. From any state that a client and its servers can
get into, if no call enters or times out, no callback is called any more, the callbacks of the
client are not changed, there are message IDs left, and neither a late answer nor a callback that
nobody is registered for has a string, an array or a struct, then they come to rest in whatever
order they take their steps; and then no listener has anything left to take, the calls are answered
and the callbacks handled. -/
theorem done_of_rest {ε : Type} {peers : ℕ → Peer} (hpeers : ∀ h, (peers h).Answering)
    {poolSize : ℕ} {data : ℕ → Option ℕ} {t : Traffic ε} (ht : t.Reachable peers poolSize data)
    {n : ℕ} (hn : t.calls.Counted n) (hlate : t.calls.LateHarmless peers)
    (hheard : t.callbacks.Heard) :
    Runs.ComesToRest (Traffic.Onward peers poolSize data) (t.Done peers poolSize) t where
  ends := ht.ends hpeers
  rest t' hrun hrest := by
    have hlater : Later peers poolSize data n t t :=
      ⟨ht, hn, hlate, hheard, fun j hj => ⟨hj, fun h => h⟩, rfl⟩
    have hs := Runs.invariant (fun _ _ hs h => hs.step hpeers h) hlater hrun
    exact hs.done hpeers hrest

/-- The call is answered and the callback handled. -/
theorem done_of_rest_constant : ∃ t t' : Traffic UInt32, 0 < (t.callbacks.sent 0).length ∧
    (t.calls.client.calls 0).phase = .entered ∧
      Relation.ReflTransGen (Traffic.Onward (fun _ => constantPeer) 1 fun _ => none) t t' ∧
        t.Done (fun _ => constantPeer) 1 t' := by
  obtain ⟨t, ht, hsent, -, hphase, hasks, hn, hheard⟩ := exists_traffic
  obtain ⟨t', hrun, -, hdone⟩ := (done_of_rest (fun _ => answering_constantPeer) ht hn
    (hasks.lateHarmless hn) hheard).exists_run
  exact ⟨t, t', hsent, hphase, hrun, hdone⟩

end NymphRpc
