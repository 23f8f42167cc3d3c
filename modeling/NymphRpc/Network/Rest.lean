import Mathlib.Data.Prod.Lex
import NymphRpc.Message.DestroyedOnce
import NymphRpc.Network.Links

/-!
# Where the network comes to rest

Seen from a call, its answer is always somewhere: its request is on the way to the session, or the
session has served it and the answer is on the way back, or the listener works on it, or the call
has been signalled. No request is taken from the listener while its call waits, and no signal is
lost, since the mutex of the request is kept until the wait. So if no call times out, the network
comes to rest in whatever order its threads take their steps, and then only those calls wait still
to which the server has no answer.
-/

namespace NymphRpc

open NymphMessage

/-- The call that the listener is about to signal. -/
@[grind] def ListenerPhase.brings : ListenerPhase → Option ℕ
  | found _ j | storing _ j | stored _ j => some j
  | idle | signalled _ _ | leaving => none

/-- A call that has sent its request and taken it back from its listener was signalled or has timed
out. -/
theorem CallPhase.timedOut_of_isSent {phase : CallPhase} (hsent : phase.isSent)
    (hpends : phase.pends = false) (hsignalled : phase.signalled = false) : phase.timedOut := by
  grind [cases CallPhase, cases CallOutcome]

/-- A call that has timed out has a request. -/
theorem CallPhase.identified_of_timedOut {phase : CallPhase} (h : phase.timedOut) :
    phase.identified := by
  grind [cases CallPhase, cases CallOutcome]

/-- The call has sent its request, and its wait has not ended. -/
@[grind] def CallPhase.awaits : CallPhase → Bool
  | sent | waiting => true
  | ready | entered | checking | serialized | added | waking _ | woken _ | removing _ => false
  | returning _ | returned _ => false

/-- A call whose request is with its listener is under way. -/
theorem CallPhase.underWay_of_pends {phase : CallPhase} (h : phase.pends) :
    phase.identified ∧ phase.underWay := by
  cases phase <;> first | exact ⟨rfl, rfl⟩ | cases h

/-- A call that awaits its answer has its request with its listener. -/
theorem CallPhase.pends_of_awaits {phase : CallPhase} (h : phase.awaits) :
    phase.pends ∧ phase.identified := by
  cases phase <;> first | exact ⟨rfl, rfl⟩ | cases h

/-- A call with its request finds it with its listener, if the listener is listed. -/
theorem Calls.pending_callStep {s s' : Calls} (h : CallStep s s') (hs : s.Matched)
    (hlisted : ∀ j, (s.calls j).phase.underWay →
      (s.connections (s.calls j).handle).listed = true)
    (hentry : ∀ j, (s.calls j).phase.pends →
      (s.connections (s.calls j).handle).messages.find? (s.calls j).request.messageId = some j)
    (j : ℕ) (hj : (s'.calls j).phase.pends) :
    (s'.connections (s'.calls j).handle).messages.find? (s'.calls j).request.messageId =
      some j := by
  have hunique := hs.unique
  have hpends := fun phase => @CallPhase.underWay_of_pends phase
  cases h with
  | addMessage i hphase =>
    have hi := hlisted i (by rw [hphase]; rfl)
    have hid : (s.calls i).phase.identified := by rw [hphase]; rfl
    by_cases hj' : j = i
    · subst hj'
      -- what is there already under the ID belongs to the same call
      have hsame : ∀ k, (s.connections (s.calls j).handle).messages.find?
          (s.calls j).request.messageId = some k → k = j := by
        intro k hk
        obtain ⟨hk', -, hsameId⟩ := hs.messages _ _ k hk
        exact hunique k j hk' hid hsameId
      cases hold : (s.connections (s.calls j).handle).messages.find?
          (s.calls j).request.messageId with
      | none => grind
      | some k => grind
    · have hold : (s.calls j).phase.pends := by grind
      have hne : (s.calls j).request.messageId ≠ (s.calls i).request.messageId :=
        fun heq => hj' (hunique j i (hpends _ hold).1 hid heq)
      grind
  | removeMessage i b hphase =>
    have hid : (s.calls i).phase.identified := by rw [hphase]; rfl
    have hj' : j ≠ i := by grind
    have hold : (s.calls j).phase.pends := by grind
    have hne : (s.calls j).request.messageId ≠ (s.calls i).request.messageId :=
      fun heq => hj' (hunique j i (hpends _ hold).1 hid heq)
    grind
  | _ => grind

/-- How many message IDs the call will still take. -/
@[grind] def CallPhase.toTake : CallPhase → ℕ
  | entered | checking => 1
  | ready | serialized | added | sent | waiting | waking _ | woken _ | removing _ => 0
  | returning _ | returned _ => 0

/-- Message IDs are taken on the way. -/
theorem CallPhase.toTake_le {phase phase' : CallPhase}
    (h : phase' = phase ∨ phase'.ahead < phase.ahead) : phase'.toTake ≤ phase.toTake := by
  have htoTake : ∀ phase : CallPhase, phase.toTake = if 9 ≤ phase.ahead then 1 else 0 := by
    intro phase
    cases phase <;> rfl
  rcases h with rfl | hlt
  · exact le_rfl
  · rw [htoTake, htoTake]
    split_ifs <;> omega

/-- No step but that of the call itself ends its wait before the listener has signalled it. -/
theorem Calls.awaits_callStep {s s' : Calls} (h : CallStep s s') (hheld : s.Held)
    (hphase : ∀ j, (s.calls j).phase = .added → (s'.calls j).phase = (s.calls j).phase) {j : ℕ}
    (hj : (s'.calls j).phase.awaits) :
    (s.calls j).phase.awaits ∧ (s'.calls j).message = (s.calls j).message ∧
      (s'.calls j).handle = (s.calls j).handle ∧
        ((s.connections (s.calls j).handle).listener.brings = some j →
          (s'.connections (s.calls j).handle).listener.brings = some j) := by
  have hcaller := hheld.caller
  have hlistener := hheld.listener
  cases h with
  | signal i k j' hstored =>
    -- the listener holds the mutex, so the call is not on its way to the wait
    have hmutex := hlistener i j' (by rw [hstored]; rfl)
    have hnot : (s.calls j').phase ≠ .sent := by
      intro hsent
      have hmutex' := hcaller j' (by rw [hsent]; rfl)
      cases hmutex.symm.trans hmutex'
    have hne : j ≠ j' := by
      rintro rfl
      cases hphase' : (s.calls j).phase <;> grind
    grind
  | _ => grind

namespace Network

variable {peers : ℕ → Peer} {t t' : Network}

/-- No step of the network does harm to the client. -/
theorem Reachable.harmless (ht : t.Reachable peers) :
    Calls.HarmlessRun .initial t.client := by
  refine Runs.simulates (f := Network.client) (I := fun _ => True) (fun _ _ _ _ => trivial) ?_
    trivial ht
  intro t t' _ h
  cases h with
  | client hstep hphase hknown hreceived =>
    exact .single ⟨_, .other hstep fun j hj => hphase j (.inr hj), trivial⟩
  | enter j h sync name args hphase hfree =>
    refine .single ⟨_, .other (.enter j h sync hphase hfree) fun i hi => ?_, trivial⟩
    grind
  | refuse j hphase => exact .single ⟨_, .unknownMethod j hphase, trivial⟩
  | compose j node um e heap msg sent hphase hname hmsg hcounter hsent =>
    have haccepts := NymphMethod.composeMessage_ok_iff.mp ⟨msg, hmsg⟩
    exact .single ⟨_, .compose j node.method false um _ e false false heap msg sent hphase hcounter
      hmsg hsent fun _ => rfl, haccepts⟩
  | send j q hphase => exact .single ⟨_, .send j hphase, rfl⟩
  | serve | drop => exact .refl
  | notFound h r rest m u um hr hdecode hidle hm hfree hlookup =>
    exact .single ⟨_, .notFound h m hidle hfree hlookup, trivial⟩
  | find h r rest m j u um hr hdecode hidle hm hfree hlookup =>
    exact .single ⟨_, .find h m j hidle hfree hlookup, trivial⟩

/-- Where the requests and the answers of the calls are. -/
structure Tracked (peers : ℕ → Peer) (t : Network) : Prop where
  listed : ∀ j, (t.client.calls j).phase.underWay →
    (t.client.connections (t.client.calls j).handle).listed = true
  entry : ∀ j, (t.client.calls j).phase.pends →
    (t.client.connections (t.client.calls j).handle).messages.find?
      (t.client.calls j).request.messageId = some j
  sent : ∀ j q, (t.client.calls j).phase.isSent → (t.client.calls j).message = some q →
    q ∈ (t.links (t.client.calls j).handle).served ++ (t.links (t.client.calls j).handle).requests
  answer : ∀ j q n, (t.client.calls j).phase.awaits → (t.client.calls j).message = some q →
    (t.links (t.client.calls j).handle).served[n]? = some q →
    ∀ r ∈ ((peers (t.client.calls j).handle).serve n q).log,
      r ∈ (t.links (t.client.calls j).handle).replies ∨
        (t.client.connections (t.client.calls j).handle).listener.brings = some j

namespace Tracked

section

variable (hs : t.Tracked peers) (h : NetworkStep peers t t')

include hs h

/-- The connection of a call under way stays listed. -/
theorem listed_step (j : ℕ) (hj : (t'.client.calls j).phase.underWay) :
    (t'.client.connections (t'.client.calls j).handle).listed = true := by
  have hlisted := hs.listed
  cases h with
  | client hstep hphase hknown hreceived =>
    clear hreceived
    cases hstep <;> grind
  | _ => grind

/-- A request that was sent is on the link or was served. -/
theorem sent_step (j : ℕ) (q : NymphMessage)
    (hj : (t'.client.calls j).phase.isSent) (hq : (t'.client.calls j).message = some q) :
    q ∈ (t'.links (t'.client.calls j).handle).served ++
      (t'.links (t'.client.calls j).handle).requests := by
  have hsent := hs.sent
  have hresult := isSent_result
  cases h with
  | client hstep hphase hknown hreceived =>
    clear hreceived
    cases hstep <;> grind
  | serve h q' rest hq' =>
    have hold := hsent j q hj hq
    grind
  | _ => grind

end

section

variable (hs : t.Tracked peers)

include hs

/-- What a session sends for the request of a call that awaits its answer is found by its call. -/
theorem lookup_of_awaits (hpeers : ∀ h, (peers h).Answering) (hl : t.Linked peers)
    (hc : t.client.Matched) {j : ℕ} {q r : NymphMessage} {n : ℕ}
    (hj : (t.client.calls j).phase.awaits) (hq : (t.client.calls j).message = some q)
    (hn : (t.links (t.client.calls j).handle).served[n]? = some q)
    (hr : r ∈ ((peers (t.client.calls j).handle).serve n q).log) :
    (t.client.connections (t.client.calls j).handle).messages.find? r.responseId = some j := by
  obtain ⟨hpends, hid⟩ := CallPhase.pends_of_awaits hj
  have hmem := List.mem_append_left (t.links (t.client.calls j).handle).requests
    (List.mem_of_getElem? hn)
  obtain ⟨sent, hsent, hsentId⟩ := hc.serialized j hid
  cases hq.symm.trans hsent
  rcases hl.log_serve hpeers hmem n with hnone | ⟨r', v, hone, hsends⟩
  · rw [hnone] at hr
    cases hr
  · rw [hone] at hr
    obtain rfl := List.mem_singleton.mp hr
    rw [hsends.isAnswer.responseId, hsentId]
    exact hs.entry j hpends

/-- Nobody waits for an answer only when its call has timed out. -/
theorem timedOut_of_lookup (hl : t.Linked peers) (hc : t.client.Matched) {h : ℕ}
    {r : NymphMessage} {rest : List NymphMessage} (hr : (t.links h).replies = r :: rest)
    {u : ℤ → Uninit} {um : MessageUninit} {m : NymphMessage}
    (hdecode : (decode u um r.frame.length (r.frame.drop 8)).result = .ok m)
    (hlookup : (t.client.connections h).messages.find? m.responseId = none) :
    ∃ j n q v, (t.client.calls j).handle = h ∧ (t.client.calls j).phase.timedOut ∧
      (t.client.calls j).message = some q ∧ q.messageId ∉ (t.client.connections h).replied ∧
        (peers h).Sends n q r v ∧ NymphMessage.Received r (.reply q.messageId v) m := by
  obtain ⟨hid, hnot, n, q, v, hq, hsends, hreceived⟩ := hl.not_replied hr hdecode
  rw [hid] at hlookup
  rw [hsends.isAnswer.responseId] at hlookup hnot
  obtain ⟨j, rfl, hsent, hmessage⟩ :=
    hl.sent h q (List.mem_append_left _ (List.mem_of_getElem? hq))
  have hidentified := CallPhase.identified_of_isSent hsent
  obtain ⟨q', hq', hsentId⟩ := hc.serialized j hidentified
  cases hmessage.symm.trans hq'
  refine ⟨j, n, q, v, rfl, ?_, hmessage, hnot, hsends, hreceived⟩
  apply CallPhase.timedOut_of_isSent hsent
  · by_contra hpends
    have hentry := hs.entry j (Bool.of_not_eq_false hpends)
    rw [← hsentId, hlookup] at hentry
    cases hentry
  · exact (hc.blank j hidentified (.inl (hsentId ▸ hnot))).2

/-- An answer is the next message, which is found by its call, or it stays behind that on the link,
or the listener brings it. -/
theorem answer_of_next (hpeers : ∀ h, (peers h).Answering) (hl : t.Linked peers)
    (hc : t.client.Matched) {j : ℕ} {q r r' : NymphMessage} {n : ℕ} {rest : List NymphMessage}
    (hj : (t.client.calls j).phase.awaits) (hq : (t.client.calls j).message = some q)
    (hn : (t.links (t.client.calls j).handle).served[n]? = some q)
    (hr : r ∈ ((peers (t.client.calls j).handle).serve n q).log)
    (hr' : (t.links (t.client.calls j).handle).replies = r' :: rest) :
    (t.client.connections (t.client.calls j).handle).messages.find? r'.responseId = some j ∨
      r ∈ rest ∨ (t.client.connections (t.client.calls j).handle).listener.brings = some j := by
  have hold := hs.answer j q n hj hq hn r hr
  rw [hr', List.mem_cons] at hold
  rcases hold with (rfl | hmem) | hbrings
  · exact .inl (hs.lookup_of_awaits hpeers hl hc hj hq hn hr)
  · exact .inr (.inl hmem)
  · exact .inr (.inr hbrings)

/-- An answer stays on the link until the listener takes it, and then it brings it to the call. -/
theorem answer_step (hpeers : ∀ h, (peers h).Answering) (hl : t.Linked peers)
    (hc : t.client.Matched) (hheld : t.client.Held) (h : NetworkStep peers t t') (j : ℕ)
    (q : NymphMessage) (n : ℕ) (hj : (t'.client.calls j).phase.awaits)
    (hq : (t'.client.calls j).message = some q)
    (hn : (t'.links (t'.client.calls j).handle).served[n]? = some q) (r : NymphMessage)
    (hr : r ∈ ((peers (t'.client.calls j).handle).serve n q).log) :
    r ∈ (t'.links (t'.client.calls j).handle).replies ∨
      (t'.client.connections (t'.client.calls j).handle).listener.brings = some j := by
  cases h with
  | client hstep hphase hknown hreceived =>
    obtain ⟨hold, hmessage, hhandle, hbrings⟩ :=
      Calls.awaits_callStep hstep hheld (fun i hi => hphase i (.inr (.inr hi))) hj
    simp only [hmessage, hhandle] at hq hn hr ⊢
    rcases hs.answer j q n hold hq hn r hr with hreplies | hbefore
    · exact .inl hreplies
    · exact .inr (hbrings hbefore)
  | enter i h sync name args hphase =>
    have hne : j ≠ i := by
      rintro rfl
      simp [CallPhase.awaits] at hj
    simp only [Calls.calls_enter, Calls.connections_enter, Calls.calls_setCall, if_neg hne]
      at hj hq hn hr ⊢
    exact hs.answer j q n hj hq hn r hr
  | refuse i hphase =>
    have hne : j ≠ i := by
      rintro rfl
      simp [CallPhase.awaits] at hj
    simp [hne] at hj hq hn hr ⊢
    have hold := hs.answer j q n hj hq hn r hr
    split_ifs <;> exact hold
  | compose i node um e heap msg sent hphase =>
    have hne : j ≠ i := by
      rintro rfl
      simp [CallPhase.awaits] at hj
    simp [hne] at hj hq hn hr ⊢
    have hold := hs.answer j q n hj hq hn r hr
    split_ifs <;> exact hold
  | send i q' hphase' hq' =>
    have hne : j ≠ i := by
      rintro rfl
      simp at hq hn
      cases hq'.symm.trans hq
      have hnot := hl.unsent hc (by rw [hphase']; rfl) (by rw [hphase']; rfl) hq'
        (t.client.calls j).handle
      exact hnot (List.mem_map_of_mem (List.mem_append_left _ (List.mem_of_getElem? hn)))
    by_cases hh : (t.client.calls j).handle = (t.client.calls i).handle
    · simp [hne, hh] at hj hq hn hr ⊢
      rw [← hh] at hn hr ⊢
      exact hs.answer j q n hj hq hn r hr
    · simp [hne, hh] at hj hq hn hr ⊢
      exact hs.answer j q n hj hq hn r hr
  | serve h q' rest hq' =>
    by_cases hh : (t.client.calls j).handle = h
    · subst hh
      simp only [client_setLink, links_setLink, if_true] at hj hq hn hr ⊢
      by_cases hlt : n < (t.links (t.client.calls j).handle).served.length
      · rw [List.getElem?_append_left hlt] at hn
        rcases hs.answer j q n hj hq hn r hr with hmem | hbrings
        · exact .inl (List.mem_append_left _ hmem)
        · exact .inr hbrings
      · obtain ⟨rfl, rfl⟩ : n = (t.links (t.client.calls j).handle).served.length ∧ q' = q := by
          grind
        exact .inl (List.mem_append_right _ hr)
    · simp only [client_setLink, links_setLink, if_neg hh] at hj hq hn hr ⊢
      exact hs.answer j q n hj hq hn r hr
  | drop h r' rest m u um hr' hdecode hidle hm =>
    exact absurd hm (hl.not_dropped hr' hdecode)
  | notFound h r' rest m u um hr' hdecode hidle hm hfree hlookup =>
    have hid := (hl.not_replied hr' hdecode).1
    by_cases hh : (t.client.calls j).handle = h
    · subst hh
      simp [links_setLink] at hj hq hn hr ⊢
      rcases hs.answer_of_next hpeers hl hc hj hq hn hr hr' with hfind | hmem | hbrings
      · rw [← hid, hlookup] at hfind
        cases hfind
      · exact .inl hmem
      · exact .inr hbrings
    · simp [links_setLink, hh] at hj hq hn hr ⊢
      exact hs.answer j q n hj hq hn r hr
  | find h r' rest m i u um hr' hdecode hidle hm hfree hlookup =>
    have hid := (hl.not_replied hr' hdecode).1
    by_cases hh : (t.client.calls j).handle = h
    · subst hh
      simp [links_setLink] at hj hq hn hr ⊢
      rcases hs.answer_of_next hpeers hl hc hj hq hn hr hr' with hfind | hmem | hbrings
      · rw [← hid, hlookup] at hfind
        exact .inr hfind
      · exact .inl hmem
      · rw [hidle] at hbrings
        cases hbrings
    · simp [links_setLink, hh] at hj hq hn hr ⊢
      exact hs.answer j q n hj hq hn r hr

end

/-- The invariant survives every step. -/
theorem step (hs : t.Tracked peers) (hpeers : ∀ h, (peers h).Answering) (hl : t.Linked peers)
    (hc : t.client.Matched) (hheld : t.client.Held) (h : NetworkStep peers t t') :
    t'.Tracked peers where
  listed := hs.listed_step h
  entry := by
    rcases hl.client_step h with hsame | hstep
    · rw [hsame]
      exact hs.entry
    · exact Calls.pending_callStep hstep hc hs.listed hs.entry
  sent := hs.sent_step h
  answer := hs.answer_step hpeers hl hc hheld h

end Tracked

/-- The requests and the answers of the calls are tracked in every state the network can get
into. -/
theorem Reachable.tracked (hpeers : ∀ h, (peers h).Answering) (ht : t.Reachable peers) :
    t.Tracked peers := by
  induction ht with
  | refl => constructor <;> simp [initial, Calls.initial, CallPhase.underWay, CallPhase.pends,
      CallPhase.isSent, CallPhase.awaits]
  | tail hrun h ih =>
    obtain ⟨hl, hc⟩ := Reachable.invariant hpeers hrun
    exact ih.step hpeers hl hc (Reachable.harmless hrun).sound.held h

/-! ### Every run comes to an end -/

/-- A step of the network by which something gets on, and neither does a call enter nor time
out. -/
structure Onward (peers : ℕ → Peer) (t t' : Network) : Prop where
  step : NetworkStep peers t t'
  ready : ∀ j, (t.client.calls j).phase = .ready → (t'.client.calls j).phase = .ready
  waits : ∀ j, (t.client.calls j).phase = .waiting → (t'.client.calls j).phase ≠ .waking false
  moves : (∃ j, (t'.client.calls j).phase ≠ (t.client.calls j).phase) ∨
    ∃ h, (t'.client.connections h).listener ≠ (t.client.connections h).listener ∨
      t'.links h ≠ t.links h

/-- From a number on no call has entered, and nothing is on the links. -/
structure BoundedBy (t : Network) (n : ℕ) : Prop where
  calls : ∀ i, n ≤ i → (t.client.calls i).phase = .ready
  listeners : ∀ i, n ≤ i → (t.client.connections i).listener = .idle
  requests : ∀ i, n ≤ i → (t.links i).requests = []
  replies : ∀ i, n ≤ i → (t.links i).replies = []
  handles : ∀ j, (t.client.calls j).phase ≠ .ready → (t.client.calls j).handle < n

/-- Without a new call the same calls and links are the used ones. -/
theorem BoundedBy.step {n : ℕ} (hs : t.BoundedBy n) (h : NetworkStep peers t t')
    (hready : ∀ j, (t.client.calls j).phase = .ready → (t'.client.calls j).phase = .ready) :
    t'.BoundedBy n := by
  obtain ⟨hcalls, hlisteners, hrequests, hreplies, hhandles⟩ := hs
  cases h with
  | client hstep hphase hknown hreceived =>
    refine ⟨fun i hi => hready i (hcalls i hi), fun i hi => ?_, hrequests, hreplies,
      fun j hj => ?_⟩
    · have hahead := (Calls.ahead_step (.other hstep fun j hj => hphase j (.inr hj)) hready
        hreceived i).2
      rw [hlisteners i hi] at hahead
      exact hahead.resolve_right (Nat.not_lt_zero _)
    · have hentered : (t.client.calls j).phase ≠ .ready := fun hold => hj (hready j hold)
      rw [(Calls.entered_step (.other hstep fun j hj => hphase j (.inr hj)) hentered).2]
      exact hhandles j hentered
  | _ => constructor <;> grind

/-- In every state the network can get into only so many calls and links are used. -/
theorem Reachable.bounded (ht : t.Reachable peers) : ∃ n, t.BoundedBy n := by
  induction ht with
  | refl => exact ⟨0, by constructor <;> simp [initial, Calls.initial]⟩
  | @tail t t' hrun h ih =>
    obtain ⟨n, hn⟩ := ih
    by_cases hready : ∀ j, (t.client.calls j).phase = .ready → (t'.client.calls j).phase = .ready
    · exact ⟨n, hn.step h hready⟩
    · obtain ⟨hcalls, hlisteners, hrequests, hreplies, hhandles⟩ := hn
      cases h with
      | client hstep hphase => exact absurd (fun j hj => (hphase j (.inl hj)).trans hj) hready
      | enter i h => exact ⟨max n (max (i + 1) (h + 1)), by constructor <;> grind⟩
      | _ => exact absurd (by grind) hready

/-- What is before the listener of a connection and its session. An answer takes the listener
fewer steps than are counted for it, and the session as well for a request. -/
@[grind] def before (t : Network) (h : ℕ) : ℕ :=
  (t.client.connections h).listener.ahead + 6 * (t.links h).replies.length +
    7 * (t.links h).requests.length

/-- What is before the calls, and what is before the first listeners and sessions. -/
def rank (n : ℕ) (t : Network) : ℕ ×ₗ ℕ :=
  toLex (∑ i ∈ Finset.range n, (t.client.calls i).phase.ahead, ∑ i ∈ Finset.range n, t.before i)

namespace Onward

/-- Every call stays where it is or gets on. -/
theorem ahead_calls (h : Onward peers t t') (i : ℕ) :
    (t'.client.calls i).phase = (t.client.calls i).phase ∨
      (t'.client.calls i).phase.ahead < (t.client.calls i).phase.ahead := by
  obtain ⟨hstep, hready, -, -⟩ := h
  cases hstep with
  | client hstep hphase hknown hreceived =>
    exact (Calls.ahead_step (.other hstep fun j hj => hphase j (.inr hj)) hready hreceived i).1
  | _ => grind

/-- If no call gets on, then a listener or a session does. -/
theorem before_links (h : Onward peers t t') (hl : t.Linked peers)
    (hpeers : ∀ h, (peers h).Answering)
    (hcalls : ∀ j, (t'.client.calls j).phase = (t.client.calls j).phase) (i : ℕ) :
    (t'.client.connections i).listener = (t.client.connections i).listener ∧
      t'.links i = t.links i ∨ t'.before i < t.before i := by
  obtain ⟨hstep, hready, -, -⟩ := h
  cases hstep with
  | client hstep hphase hknown hreceived =>
    have hahead := (Calls.ahead_step (.other hstep fun j hj => hphase j (.inr hj)) hready
      hreceived i).2
    grind
  | serve h q rest hq hserve =>
    have hmem : q ∈ (t.links h).served ++ (t.links h).requests :=
      List.mem_append_right _ (hq ▸ List.mem_cons_self)
    have hlog : ((peers h).serve (t.links h).served.length q).log.length ≤ 1 := by
      rcases hl.log_serve hpeers hmem (t.links h).served.length with hnone | ⟨r, v, hone, -⟩
      · simp [hnone]
      · simp [hone]
    grind
  | _ => grind

/-- A step by which something gets on leaves fewer steps. -/
theorem rank_lt (h : Onward peers t t') (hl : t.Linked peers) (hpeers : ∀ h, (peers h).Answering)
    {n : ℕ} (hn : t.BoundedBy n) : t'.rank n < t.rank n := by
  have hle : ∀ i, (t'.client.calls i).phase.ahead ≤ (t.client.calls i).phase.ahead := by
    intro i
    have hcall := h.ahead_calls i
    grind
  rw [rank, rank, Prod.Lex.toLex_lt_toLex]
  by_cases hcalls : ∀ j, (t'.client.calls j).phase = (t.client.calls j).phase
  · have hbefore := h.before_links hl hpeers hcalls
    refine .inr ⟨by simp only [hcalls], Runs.sum_lt (fun i => ?_) ?_⟩
    · have hi := hbefore i
      grind
    · obtain ⟨i, hi⟩ : ∃ i, (t'.client.connections i).listener ≠
          (t.client.connections i).listener ∨ t'.links i ≠ t.links i := by
        rcases h.moves with ⟨j, hj⟩ | hmoves
        · exact absurd (hcalls j) hj
        · exact hmoves
      have hlt : t'.before i < t.before i := by
        rcases hbefore i with ⟨hlistener, hlinks⟩ | hlt
        · rcases hi with hi | hi
          · exact absurd hlistener hi
          · exact absurd hlinks hi
        · exact hlt
      refine ⟨i, ?_, hlt⟩
      by_contra hle
      -- nothing is before a listener and a session that were never used
      have hzero : t.before i = 0 := by
        rw [before, hn.listeners i (by omega), hn.requests i (by omega), hn.replies i (by omega)]
        rfl
      omega
  · obtain ⟨j, hj⟩ := not_forall.mp hcalls
    have hlt : (t'.client.calls j).phase.ahead < (t.client.calls j).phase.ahead :=
      (h.ahead_calls j).resolve_left hj
    refine .inl (Runs.sum_lt hle ⟨j, ?_, hlt⟩)
    by_contra hle
    rw [hn.calls j (by omega)] at hlt
    cases hlt

end Onward

/-- Only the first calls have entered, and there is a message ID left for each of them. -/
structure Counted (t : Network) (n : ℕ) : Prop where
  ready : ∀ j, n ≤ j → (t.client.calls j).phase = .ready
  left : t.client.messageId + ∑ i ∈ Finset.range n, (t.client.calls i).phase.toTake < 2 ^ 63

/-- A step by which something gets on takes a message ID from the counter only for a call. -/
theorem Onward.ids (h : Onward peers t t') :
    t'.client.messageId = t.client.messageId ∨ t'.client.messageId = t.client.messageId + 1 ∧
      ∃ j, (t'.client.calls j).phase.toTake < (t.client.calls j).phase.toTake := by
  obtain ⟨hstep, hready, hwaits, hmoves⟩ := h
  cases hstep with
  | client hstep hphase hknown hreceived =>
    clear hreceived
    cases hstep <;> grind
  | compose j node um e heap msg sent hphase => exact .inr ⟨rfl, j, by grind⟩
  | _ => exact .inl rfl

/-- There is a message ID left for each call after such a step. -/
theorem Counted.step {n : ℕ} (hn : t.Counted n) (h : Onward peers t t') : t'.Counted n := by
  have hle : ∀ i, (t'.client.calls i).phase.toTake ≤ (t.client.calls i).phase.toTake :=
    fun i => CallPhase.toTake_le (h.ahead_calls i)
  refine ⟨fun j hj => h.ready j (hn.ready j hj), ?_⟩
  have hleft := hn.left
  rcases h.ids with hsame | ⟨htaken, j, hj⟩
  · have hsum := Finset.sum_le_sum fun i (_ : i ∈ Finset.range n) => hle i
    omega
  · have hsum := Runs.sum_lt (n := n) hle ⟨j, ?_, hj⟩
    · omega
    · by_contra hge
      rw [hn.ready j (by omega)] at hj
      cases hj

/-- A call that composes finds a message ID. -/
theorem Counted.counter {n : ℕ} (hn : t.Counted n) {j : ℕ}
    (hj : (t.client.calls j).phase = .checking) : t.client.messageId + 1 < 2 ^ 63 := by
  have hlt : j < n := by
    by_contra hge
    rw [hn.ready j (by omega)] at hj
    cases hj
  have hsum := Finset.single_le_sum (f := fun i => (t.client.calls i).phase.toTake)
    (fun _ _ => Nat.zero_le _) (Finset.mem_range.mpr hlt)
  rw [hj] at hsum
  have hleft := hn.left
  change 1 ≤ _ at hsum
  omega

/-- If no call enters or times out, every run ends. -/
theorem Reachable.ends (hpeers : ∀ h, (peers h).Answering) (ht : t.Reachable peers) :
    Acc (fun t' t => Onward peers t t') t := by
  obtain ⟨n, hn⟩ := ht.bounded
  refine Runs.acc_of_rank (I := fun t => t.Reachable peers ∧ t.BoundedBy n) (rank n) ?_ ?_ ⟨ht, hn⟩
  · rintro t t' ⟨ht, hn⟩ h
    exact ⟨ht.tail h.step, hn.step h.step h.ready⟩
  · rintro t t' ⟨ht, hn⟩ h
    exact h.rank_lt (Reachable.invariant hpeers ht).1 hpeers hn

/-! ### Where nothing can happen -/

/-- The session has served the request of the call, and has no method for it that answers with
a value of its type. -/
def Unanswered (peers : ℕ → Peer) (t : Network) (j : ℕ) : Prop :=
  ∃ n q, (t.links (t.client.calls j).handle).served[n]? = some q ∧
    (t.client.calls j).message = some q ∧
    ∀ m v, ¬(peers (t.client.calls j).handle).Answers n q (t.asked j).2.content m v

/-- What can still come in for a call that has timed out is no string, array or struct. -/
def LateHarmless (peers : ℕ → Peer) (t : Network) : Prop :=
  ∀ j q, (t.client.calls j).phase.timedOut → (t.client.calls j).message = some q →
    q.messageId ∉ (t.client.connections (t.client.calls j).handle).replied →
    ∀ n vs m v, (peers (t.client.calls j).handle).Answers n q vs m v → v.counted = false

/-- Then no listener deletes a message twice. -/
theorem LateHarmless.destroyedOnce (hlate : t.LateHarmless peers) (hs : t.Tracked peers)
    (hl : t.Linked peers) (hc : t.client.Matched) {h : ℕ} {r : NymphMessage}
    {rest : List NymphMessage} (hr : (t.links h).replies = r :: rest) {u : ℤ → Uninit}
    {um : MessageUninit} {m : NymphMessage}
    (hdecode : (decode u um r.frame.length (r.frame.drop 8)).result = .ok m)
    (hlookup : (t.client.connections h).messages.find? m.responseId = none) :
    DestroyedOnce m .delete := by
  obtain ⟨j, n, q, v, rfl, htime, hmessage, hnot, hsends, hreceived⟩ :=
    hs.timedOut_of_lookup hl hc hr hdecode hlookup
  obtain ⟨vs, method, hanswers⟩ := hsends.answers
  exact destroyedOnce_of_response hdecode hreceived.carried.2
    (hlate j q htime hmessage hnot n vs method v hanswers)

/-- Nothing can happen any more, except that a listener takes a reply. -/
def Settled (peers : ℕ → Peer) (t : Network) : Prop :=
  ∀ t', Onward peers t t' → ∃ h, (t'.links h).replies.length < (t.links h).replies.length

/-- So it is where nothing can happen. -/
theorem settled_of_rest (hrest : Runs.AtRest (Onward peers) t) : t.Settled peers :=
  fun t' h => absurd h (hrest t')

section

variable (hpeers : ∀ h, (peers h).Answering) (ht : t.Reachable peers)

section

variable (hsettled : t.Settled peers) {n : ℕ} (hn : t.Counted n)

include hsettled

/-- A step by which no listener takes a reply does not get anything on. -/
theorem Settled.not_onward (h : Onward peers t t')
    (hreplies : ∀ h, (t.links h).replies.length ≤ (t'.links h).replies.length) : False := by
  obtain ⟨i, hlt⟩ := hsettled t' h
  have hle := hreplies i
  omega

include hpeers ht

include hn in
/-- No call stops while it composes or sends, unless the message IDs have run out. -/
theorem still_of_settled : t.client.Still where
  rest c h := by
    have hstep : Onward peers t { t with client := c } := by
      refine ⟨.client h.step h.phase h.known h.received, ?_, h.waits, ?_⟩
      · intro j hj
        exact (h.phase j (.inl hj)).trans hj
      · rcases h.moves with hcall | ⟨i, hi⟩
        · exact .inl hcall
        · exact .inr ⟨i, .inl hi⟩
    exact hsettled.not_onward hstep fun _ => le_rfl
  checking j hphase := by
    by_cases hrefuses : t.Refuses peers j
    · refine hsettled.not_onward ⟨.refuse j hphase hrefuses, ?_, ?_, .inl ⟨j, ?_⟩⟩
        fun _ => le_rfl <;> grind
    · unfold Refuses at hrefuses
      push Not at hrefuses
      obtain ⟨node, hnode, haccepts⟩ := hrefuses
      obtain ⟨msg, hmsg⟩ : ∃ msg, node.method.composeMessage false ⟨0, 0⟩ _ = .ok msg :=
        NymphMethod.composeMessage_ok_iff.mpr haccepts
      obtain ⟨sent, hsent⟩ := NymphMethod.serialize_of_composeMessage hmsg
        (.ofNat t.client.messageId) fun _ => 0
      refine hsettled.not_onward ⟨.compose j node ⟨0, 0⟩ ⟨0, []⟩ (fun _ => 0) msg sent hphase hnode
        hmsg (hn.counter hphase) hsent, ?_, ?_, .inl ⟨j, ?_⟩⟩ fun _ => le_rfl <;> grind
  added j hphase := by
    obtain ⟨q, hq⟩ := (Reachable.invariant hpeers ht).1.composed j (by rw [hphase]; rfl)
    refine hsettled.not_onward ⟨.send j q hphase hq.message, ?_, ?_, .inl ⟨j, ?_⟩⟩ ?_ <;> grind

/-- Every request was served. -/
theorem requests_of_settled (h : ℕ) : (t.links h).requests = [] := by
  cases hq : (t.links h).requests with
  | nil => rfl
  | cons q rest =>
    have hl := (Reachable.invariant hpeers ht).1
    obtain ⟨j, hhandle, hsent, hmessage⟩ :=
      hl.sent h q (List.mem_append_right _ (hq ▸ List.mem_cons_self))
    obtain ⟨q', hcomposed⟩ := hl.composed j (CallPhase.identified_of_isSent hsent)
    cases hmessage.symm.trans hcomposed.message
    have hserve := ((hpeers h).serve hcomposed.frame hcomposed.short
      (t.links h).served.length).1
    refine (hsettled.not_onward ⟨.serve h q rest hq hserve, ?_, ?_, .inr ⟨h, .inr ?_⟩⟩ ?_).elim
    · exact fun j hj => hj
    · intro j hj
      simp [hj]
    · intro heq
      have hlength := congrArg (fun l => l.served.length) heq
      simp at hlength
    · intro i
      rw [links_setLink]
      split_ifs
      · rw [List.length_append]
        exact Nat.le_add_right _ _
      · exact le_rfl

include hn

/-- The listener can take the next reply. -/
theorem exists_take (hlate : t.LateHarmless peers) {h : ℕ} {r : NymphMessage}
    {rest : List NymphMessage} (hr : (t.links h).replies = r :: rest) :
    ∃ c, Onward peers t ({ t with client := c }.setLink h fun l => { l with replies := rest }) := by
  obtain ⟨hl, hc⟩ := Reachable.invariant hpeers ht
  have hsound := (Reachable.harmless ht).sound
  have hstill := still_of_settled hpeers ht hsettled hn
  have hidle := hsound.idle_of_still hstill h
  have hfree := hsound.messagesMutex_of_still hstill h
  obtain ⟨-, n, q, v, -, hsends⟩ := hl.replies h r (hr ▸ List.mem_cons_self)
  obtain ⟨m, hdecode, hm⟩ := hsends.isAnswer.decodes (fun _ => ⟨0, 0⟩) ⟨0, 0⟩ r.frame.length
    (by rw [body, List.length_drop]; omega)
  have htaken : ∀ c, ({ t with client := c }.setLink h fun l => { l with replies := rest }).links
      h ≠ t.links h := by
    intro c heq
    have hlength := congrArg (fun l => l.replies.length) heq
    simp [hr] at hlength
  have hkind := hsends.kind hm
  cases hlookup : (t.client.connections h).messages.find? m.responseId with
  | none =>
    have hdelete := hlate.destroyedOnce (ht.tracked hpeers) hl hc hr hdecode hlookup
    refine ⟨_, .notFound h r rest m _ _ hr hdecode hidle hkind hfree hlookup hdelete, ?_, ?_,
      .inr ⟨h, .inr (htaken _)⟩⟩ <;> grind
  | some j =>
    refine ⟨_, .find h r rest m j _ _ hr hdecode hidle hkind hfree hlookup, ?_, ?_,
      .inr ⟨h, .inr (htaken _)⟩⟩ <;> grind

variable (hreplies : ∀ h, (t.links h).replies = [])

include hreplies

/-- A call that waits has no answer. -/
theorem unanswered_of_settled {j : ℕ} (hphase : (t.client.calls j).phase = .waiting) :
    t.Unanswered peers j := by
  have hl := (Reachable.invariant hpeers ht).1
  have htracked := ht.tracked hpeers
  have hsound := (Reachable.harmless ht).sound
  obtain ⟨q, hq⟩ := hl.composed j (by rw [hphase]; rfl)
  have hmem := htracked.sent j q (by rw [hphase]; rfl) hq.message
  rw [requests_of_settled hpeers ht hsettled, List.append_nil] at hmem
  obtain ⟨i, hi⟩ := List.mem_iff_getElem?.mp hmem
  refine ⟨i, q, hi, hq.message, ?_⟩
  rcases ((hpeers _).serve hq.frame hq.short i).2 with ⟨-, hnone⟩ | ⟨r, v, hone, -⟩
  · exact hnone
  · -- the answer is not on the link, and the listener does not bring it
    rcases htracked.answer j q i (by rw [hphase]; rfl) hq.message hi r
      (hone ▸ List.mem_singleton.mpr rfl) with hmem | hbrings
    · rw [hreplies] at hmem
      cases hmem
    · rw [hsound.idle_of_still (still_of_settled hpeers ht hsettled hn)] at hbrings
      cases hbrings

/-- A call that has entered has returned, or waits in vain. -/
theorem returned_of_settled {j : ℕ} (hj : (t.client.calls j).phase ≠ .ready) :
    (∃ o, (t.client.calls j).phase = .returned o) ∨
      (t.client.calls j).phase = .waiting ∧ t.Unanswered peers j := by
  have hsound := (Reachable.harmless ht).sound
  have hstill := still_of_settled hpeers ht hsettled hn
  cases hunderWay : (t.client.calls j).phase.underWay with
  | true =>
    have hphase := hsound.waiting_of_still hstill hunderWay
    exact .inr ⟨hphase, unanswered_of_settled hpeers ht hsettled hn hreplies hphase⟩
  | false =>
    left
    cases hphase : (t.client.calls j).phase with
    | returned o => exact ⟨o, rfl⟩
    | ready => exact absurd hphase hj
    | entered | checking | serialized | added | sent | waiting | waking _ | woken _ | removing _
    | returning _ =>
      rw [hphase] at hunderWay
      cases hunderWay

end

include hpeers ht in
/-- The listener has taken every answer. -/
theorem replies_of_rest (hrest : Runs.AtRest (Onward peers) t) {n : ℕ} (hn : t.Counted n)
    (hlate : t.LateHarmless peers) (h : ℕ) : (t.links h).replies = [] := by
  cases hr : (t.links h).replies with
  | nil => rfl
  | cons r rest =>
    obtain ⟨c, hstep⟩ := exists_take hpeers ht (settled_of_rest hrest) hn hlate hr
    exact absurd hstep (hrest _)

end

/-- No call times out by a step that is no time-out. -/
theorem Onward.timedOut (h : Onward peers t t') {j : ℕ} (hj : (t'.client.calls j).phase.timedOut) :
    (t.client.calls j).phase.timedOut := by
  obtain ⟨hstep, hready, hwaits, hmoves⟩ := h
  cases hstep with
  | client hstep hphase hknown hreceived =>
    clear hreceived
    cases hstep <;> grind
  | _ => grind

/-- What can still come in for the calls that have timed out stays harmless. -/
theorem LateHarmless.step (hlate : t.LateHarmless peers) (hl : t.Linked peers)
    (h : Onward peers t t') : t'.LateHarmless peers := by
  intro j q htime hmessage hnot
  have htime' := h.timedOut htime
  rcases hl.client_step h.step with hsame | hstep
  · rw [hsame] at hmessage hnot ⊢
    exact hlate j q htime' hmessage hnot
  · have hkeeps := Calls.keeps_step hstep (CallPhase.identified_of_timedOut htime')
    rw [hkeeps.handle] at hnot ⊢
    refine hlate j q htime' (hkeeps.message.symm.trans hmessage) fun hmem => hnot ?_
    exact (Calls.replied_step hstep _ _).1 hmem

/-- What has come to rest: nothing is on the links, no listener is at work, and every call that
had entered has returned, or waits for a method that has no answer. -/
structure AllAnswered (peers : ℕ → Peer) (t t' : Network) : Prop where
  requests : ∀ h, (t'.links h).requests = []
  replies : ∀ h, (t'.links h).replies = []
  listeners : ∀ h, (t'.client.connections h).listener = .idle
  calls : ∀ j, (t.client.calls j).phase ≠ .ready →
    (∃ o, (t'.client.calls j).phase = .returned o ∧
      (o = .timedOut → (t.client.calls j).phase.timedOut)) ∨
    (t'.client.calls j).phase = .waiting ∧ t'.Unanswered peers j

/-- A call that has entered keeps its connection and what it asks for. -/
theorem Onward.keeps (h : Onward peers t t') {j : ℕ} (hj : (t.client.calls j).phase ≠ .ready) :
    (t'.client.calls j).phase ≠ .ready ∧ (t'.client.calls j).handle = (t.client.calls j).handle ∧
      t'.asked j = t.asked j := by
  obtain ⟨hstep, hready, hwaits, hmoves⟩ := h
  cases hstep with
  | client hstep hphase hknown hreceived =>
    obtain ⟨hphase', hhandle⟩ :=
      Calls.entered_step (.other hstep fun j hj => hphase j (.inr hj)) hj
    exact ⟨hphase', hhandle, rfl⟩
  | _ => grind

/-- The calls that had entered are still there, and none has timed out since. -/
def Follows (t t' : Network) : Prop :=
  ∀ j, (t.client.calls j).phase ≠ .ready → (t'.client.calls j).phase ≠ .ready ∧
    ((t'.client.calls j).phase.timedOut → (t.client.calls j).phase.timedOut)

/-- So they are after every step. -/
theorem Follows.step {t'' : Network} (hs : t.Follows t') (h : Onward peers t' t'') :
    t.Follows t'' := by
  intro j hj
  obtain ⟨hready, htime⟩ := hs j hj
  exact ⟨(h.keeps hready).1, fun h' => htime (h.timedOut h')⟩

/-- Where nothing can happen and no reply is left, all calls that had entered are answered. -/
theorem Follows.answersAll (hs : t.Follows t') (hpeers : ∀ h, (peers h).Answering)
    (ht : t'.Reachable peers) (hsettled : t'.Settled peers) {n : ℕ} (hn : t'.Counted n)
    (hreplies : ∀ h, (t'.links h).replies = []) : t.AllAnswered peers t' := by
  have hstill := still_of_settled hpeers ht hsettled hn
  refine ⟨requests_of_settled hpeers ht hsettled, hreplies,
    fun h => ht.harmless.sound.idle_of_still hstill h, fun j hj => ?_⟩
  obtain ⟨hready, htime⟩ := hs j hj
  rcases returned_of_settled hpeers ht hsettled hn hreplies hready with ⟨o, ho⟩ | hwaiting
  · refine .inl ⟨o, ho, ?_⟩
    rintro rfl
    exact htime (by rw [ho]; rfl)
  · exact .inr hwaiting

end Network

end NymphRpc
