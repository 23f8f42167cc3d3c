import NymphRpc.Message.DecodeFuel
import NymphRpc.Network.RemoteCalls

/-!
# Streams

The links of the network carry messages where the sockets carry bytes. A run of
`NymphSession::run` over the bytes of the requests that a session has served sends what the session
has sent, and a run of `NymphSocketListener::run` over the bytes of these messages hands their
bodies over, as long as each header arrives whole. The client has received the first of them, in
their order, and the others are under way. As in the network, no socket closes, throws or sends
part of a message.
-/

namespace NymphRpc

open NymphMessage NymphSession

/-! ### The bytes of the requests -/

namespace NymphSession

/-- A body that was served with less fuel is served in the same way with more. -/
theorem serve_of_le {s : NymphRemoteClient} {handle : ℤ} {fuel fuel' : ℕ} {w : Surroundings}
    {call : ℕ} {body : Bytes} (hle : fuel ≤ fuel')
    (h : (serve s handle fuel w call body).result = .ok ()) :
    serve s handle fuel' w call body = serve s handle fuel w call body := by
  have hcontinues : Continues (decode w.uninit w.request fuel body)
      (decode w.uninit w.request fuel' body) := decode_continues hle
  have hends : (decode w.uninit w.request fuel body).result ≠ .error .outOfFuel := by
    intro hfuel
    rw [serve, hfuel] at h
    cases h
  rw [serve, serve, hcontinues.result_eq hends]

end NymphSession

/-- What the session of a peer sends for requests that it serves one after the other. -/
def Peer.answers (p : Peer) (requests : List NymphMessage) : List NymphMessage :=
  (requests.mapIdx fun n q => (p.serve n q).log).flatten

/-- What is sent for one more request comes last. -/
theorem Peer.answers_concat (p : Peer) (requests : List NymphMessage) (q : NymphMessage) :
    p.answers (requests ++ [q]) = p.answers requests ++ (p.serve requests.length q).log := by
  rw [answers, List.mapIdx_concat, List.flatten_append, List.flatten_singleton]
  rfl

/-- A session sends this when it runs over the bytes of the requests. -/
theorem Peer.run_requests {p : Peer} {requests : List NymphMessage}
    (hserve : ∀ n q, requests[n]? = some q → (p.serve n q).result = .ok ())
    (hframed : ∀ q ∈ requests, Framed q.frame) {arrived : ℕ → ℕ}
    (harrive : ArriveWhole arrived (requests.map frame)) {fuel : ℕ}
    (hfuel : (sentBytes requests).length < fuel) :
    (run p.server p.session fuel p.surroundings arrived (sentBytes requests)).result = .ok () ∧
      (run p.server p.session fuel p.surroundings arrived (sentBytes requests)).log =
        p.answers requests := by
  have hmore : ∀ n q, requests[n]? = some q →
      NymphSession.serve p.server p.session fuel (p.surroundings n) n (q.frame.drop 8) =
        p.serve n q := by
    intro n q hq
    have hframe : q.frame ∈ requests.map frame :=
      List.mem_map_of_mem (List.mem_of_getElem? hq)
    have hle := (List.sublist_flatten_of_mem hframe).length_le
    apply serve_of_le
    · rw [sentBytes] at hfuel
      omega
    · exact hserve n q hq
  have hframes : ∀ f ∈ requests.map frame, Framed f := by
    intro f hf
    obtain ⟨q, hq, rfl⟩ := List.mem_map.mp hf
    exact hframed q hq
  have hserved : ∀ (n : ℕ) f, (requests.map frame)[n]? = some f →
      (NymphSession.serve p.server p.session fuel (p.surroundings n) n (f.drop 8)).result =
        .ok () := by
    intro n f hf
    rw [List.getElem?_map] at hf
    obtain ⟨q, hq, rfl⟩ := Option.map_eq_some_iff.mp hf
    rw [hmore n q hq]
    exact hserve n q hq
  obtain ⟨hresult, hlog⟩ := run_frames hframes harrive hfuel hserved
  refine ⟨hresult, hlog.trans ?_⟩
  rw [answers]
  congr 1
  apply List.ext_getElem?
  intro n
  rw [List.getElem?_mapIdx, List.getElem?_mapIdx, List.getElem?_map]
  cases hq : requests[n]? with
  | none => rfl
  | some q =>
    rw [Option.map_some, Option.map_some, Option.map_some, hmore n q hq]

/-! ### What has come in -/

/-- The messages that have come in on a connection. -/
def Calls.receivedOn (s : Calls) (h : ℕ) : List NymphMessage :=
  (s.received.filter fun p => p.1 = h).map Prod.snd

/-- What has come in comes last. -/
theorem Calls.receivedOn_append {s s' : Calls} {h : ℕ} {m : NymphMessage}
    (hreceived : s'.received = s.received ++ [(h, m)]) (i : ℕ) :
    s'.receivedOn i = s.receivedOn i ++ if i = h then [m] else [] := by
  rw [receivedOn, receivedOn, hreceived, List.filter_append, List.map_append]
  congr 1
  by_cases hi : i = h
  · rw [if_pos hi, hi]
    simp
  · have hother : ¬h = i := fun heq => hi heq.symm
    rw [if_neg hi]
    simp [hother]

namespace Network

variable {peers : ℕ → Peer} {t t' : Network}

/-- The client has received the first of what the sessions have sent, and the others are under
way. -/
def Delivers (peers : ℕ → Peer) (t : Network) : Prop :=
  ∀ h, ∃ taken, (peers h).answers (t.links h).served = taken ++ (t.links h).replies ∧
    List.Forall₂ Decodes taken (t.client.receivedOn h)

/-- It stays so while nothing is sent or received. -/
theorem Delivers.keeps (hs : t.Delivers peers)
    (hserved : ∀ h, (t'.links h).served = (t.links h).served)
    (hreplies : ∀ h, (t'.links h).replies = (t.links h).replies)
    (hreceived : t'.client.received = t.client.received) : t'.Delivers peers := by
  intro h
  rw [hserved, hreplies, Calls.receivedOn, hreceived]
  exact hs h

/-- It stays so when a session sends an answer. -/
theorem Delivers.serve (hs : t.Delivers peers) (h : ℕ) (q : NymphMessage)
    (rest : List NymphMessage) :
    (t.setLink h fun l =>
      { requests := rest
        served := l.served ++ [q]
        replies := l.replies ++ ((peers h).serve l.served.length q).log }).Delivers peers := by
  intro i
  obtain ⟨taken, hanswers, htaken⟩ := hs i
  refine ⟨taken, ?_, htaken⟩
  rw [links_setLink]
  split_ifs with hi
  · subst hi
    rw [Peer.answers_concat, hanswers, List.append_assoc]
  · exact hanswers

/-- It stays so when a listener takes the next message. -/
theorem Delivers.take (hs : t.Delivers peers) {c : Calls} {h : ℕ} {r m : NymphMessage}
    {rest : List NymphMessage} (hr : (t.links h).replies = r :: rest) (hm : Decodes r m)
    (hreceived : c.received = t.client.received ++ [(h, m)]) :
    ({ t with client := c }.setLink h fun l => { l with replies := rest }).Delivers peers := by
  intro i
  obtain ⟨taken, hanswers, htaken⟩ := hs i
  rw [links_setLink, client_setLink, Calls.receivedOn_append hreceived]
  split_ifs with hi
  · subst hi
    refine ⟨taken ++ [r], ?_, List.rel_append htaken (.cons hm .nil)⟩
    rw [hanswers, hr, List.append_assoc]
    rfl
  · rw [List.append_nil]
    exact ⟨taken, hanswers, htaken⟩

/-- What was sent is received in every state the network can get into. -/
theorem Reachable.delivers (hpeers : ∀ h, (peers h).Answering) (ht : t.Reachable peers) :
    t.Delivers peers := by
  have hstep : ∀ t₁ t₂, t₁.Reachable peers ∧ t₁.Delivers peers → NetworkStep peers t₁ t₂ →
      t₂.Reachable peers ∧ t₂.Delivers peers := by
    rintro t₁ t₂ ⟨ht₁, hs⟩ h
    refine ⟨ht₁.tail h, ?_⟩
    cases h with
    | client hstep hphase hknown hreceived =>
      exact hs.keeps (fun _ => rfl) (fun _ => rfl) hreceived
    | enter | refuse | compose => exact hs.keeps (fun _ => rfl) (fun _ => rfl) rfl
    | send j q hphase hq =>
      refine hs.keeps (fun i => ?_) (fun i => ?_) rfl
      · rw [links_setLink]
        split_ifs <;> rfl
      · rw [links_setLink]
        split_ifs <;> rfl
    | serve h q rest hq => exact hs.serve h q rest
    | drop h r rest m u um hr hdecode hidle hm =>
      exact absurd hm ((ht₁.invariant hpeers).1.not_dropped hr hdecode)
    | notFound h r rest m u um hr hdecode => exact hs.take hr ⟨u, um, hdecode⟩ rfl
    | find h r rest m j u um hr hdecode => exact hs.take hr ⟨u, um, hdecode⟩ rfl
  exact (Runs.invariant hstep ⟨.refl, fun h => ⟨[], rfl, .nil⟩⟩ ht).2

/-- A request that was served is framed, and its session has served it to the end. -/
theorem Linked.served (hs : t.Linked peers) (hpeers : ∀ h, (peers h).Answering) {h : ℕ}
    {q : NymphMessage} (hq : q ∈ (t.links h).served) :
    Framed q.frame ∧ ∀ n, ((peers h).serve n q).result = .ok () := by
  obtain ⟨j, -, hsent, hmessage⟩ := hs.sent h q (List.mem_append_left _ hq)
  obtain ⟨q', hcomposed⟩ := hs.composed j (CallPhase.identified_of_isSent hsent)
  cases hmessage.symm.trans hcomposed.message
  exact ⟨.inr hcomposed.frame.framed, fun n =>
    ((hpeers h).serve hcomposed.frame hcomposed.short n).1⟩

end Network

/-- What a session sends was serialised. -/
theorem NymphSession.mem_log_serve {s : NymphRemoteClient} {handle : ℤ} {fuel : ℕ}
    {w : Surroundings} {call : ℕ} {body : Bytes} {r : NymphMessage}
    (hr : r ∈ (serve s handle fuel w call body).log) :
    ∃ response : NymphMessage, response.serialize w.freshId w.heap = some r := by
  rw [serve] at hr
  split at hr
  · cases hr
  · rename_i msg _
    rw [serveMessage] at hr
    split_ifs at hr
    · cases hr
    · cases hr
    · split at hr
      · cases hr
      · cases hr
      · rename_i response _
        refine ⟨response, ?_⟩
        rw [respond] at hr
        cases hsent : response.serialize w.freshId w.heap with
        | none =>
          rw [hsent] at hr
          cases hr
        | some sent =>
          rw [hsent] at hr
          rw [List.mem_singleton.mp hr]

/-- So all of it is framed. -/
theorem Peer.framed_of_answers {p : Peer} {requests : List NymphMessage} {r : NymphMessage}
    (hr : r ∈ p.answers requests) : Framed r.frame := by
  obtain ⟨log, hlog, hmem⟩ := List.mem_flatten.mp hr
  obtain ⟨n, hn, rfl⟩ := List.mem_mapIdx.mp hlog
  obtain ⟨response, hresponse⟩ := NymphSession.mem_log_serve hmem
  exact framed_of_serialize hresponse

/-- A connection as the sockets at its ends see it: a run over the bytes of the requests that were
served comes to its end, what it sends is what the client has received and what is under way, and
the listener is handed the body of each message of it. -/
structure Network.Carried (peers : ℕ → Peer) (t : Network) (h : ℕ) (session : Session Unit) :
    Prop where
  result : session.result = .ok ()
  sent : ∃ taken, session.log = taken ++ (t.links h).replies ∧
    List.Forall₂ Network.Decodes taken (t.client.receivedOn h)
  handed : ∀ (back : ℕ → ℕ) (fuel : ℕ), ArriveWhole back (session.log.map frame) →
    (sentBytes session.log).length < fuel →
      HandsOver (NymphSocketListener.receive back) fuel session.log

/-- The messages on the links are the bytes on the sockets. In every state a client and its servers
can get into, `NymphSession::run` over the bytes of what a session has served sends what the client
has received on the connection, in this order and each once, and after that what is still under
way, if every header arrives whole. -/
theorem carried_whole {peers : ℕ → Peer} (hpeers : ∀ h, (peers h).Answering) {t : Network}
    (ht : t.Reachable peers) (h : ℕ) {arrived : ℕ → ℕ}
    (harrive : ArriveWhole arrived ((t.links h).served.map frame)) {fuel : ℕ}
    (hfuel : (sentBytes (t.links h).served).length < fuel) :
    t.Carried peers h (run (peers h).server (peers h).session fuel (peers h).surroundings arrived
      (sentBytes (t.links h).served)) := by
  have hlinked := (ht.invariant hpeers).1
  obtain ⟨taken, hanswers, htaken⟩ := ht.delivers hpeers h
  obtain ⟨hresult, hlog⟩ := Peer.run_requests (p := peers h)
    (fun n q hq => (hlinked.served hpeers (List.mem_of_getElem? hq)).2 n)
    (fun q hq => (hlinked.served hpeers hq).1) harrive hfuel
  refine ⟨hresult, ⟨taken, hlog.trans hanswers, htaken⟩, fun back fuelBack hback hfuelBack => ?_⟩
  rw [hlog] at hback hfuelBack ⊢
  have hframed : ∀ f ∈ ((peers h).answers (t.links h).served).map frame, Framed f := by
    intro f hf
    obtain ⟨r, hr, rfl⟩ := List.mem_map.mp hf
    exact Peer.framed_of_answers hr
  have hhanded := (receiveLoop_frames hframed hback hfuelBack).1
  rw [List.map_map] at hhanded
  exact hhanded

/-- Requests that were served arrive whole if everything has arrived. -/
theorem Network.Linked.arriveWhole {peers : ℕ → Peer} {t : Network} (hs : t.Linked peers) (h : ℕ) :
    ArriveWhole id ((t.links h).served.map frame) := by
  have hsize : ∀ f ∈ (t.links h).served.map frame, 8 ≤ f.length ∧ f.length < 2 ^ 31 + 8 := by
    intro f hf
    obtain ⟨q, hq, rfl⟩ := List.mem_map.mp hf
    obtain ⟨j, -, hsent, hmessage⟩ := hs.sent h q (List.mem_append_left _ hq)
    obtain ⟨q', hcomposed⟩ := hs.composed j (CallPhase.identified_of_isSent hsent)
    cases hmessage.symm.trans hcomposed.message
    refine ⟨?_, hcomposed.short⟩
    have hlength := congrArg List.length hcomposed.frame.framed.eq
    simp only [List.length_append, LittleEndian.toBytes_length] at hlength
    omega
  refine ⟨hsize, fun f rest hsuffix => ?_⟩
  have hlong := (hsize f (hsuffix.subset List.mem_cons_self)).1
  rw [List.flatten_cons, List.length_append, id]
  omega

/-- The session of the method 'c' has answered a request. -/
theorem carried_whole_constant : ∃ (t : Network) (q : NymphMessage), q ∈ (t.links 0).served ∧
    t.Carried (fun _ => constantPeer) 0 (run constantPeer.server constantPeer.session
      ((sentBytes (t.links 0).served).length + 1) constantPeer.surroundings id
      (sentBytes (t.links 0).served)) := by
  obtain ⟨t, o, ht, -, -, -, q, hq, -⟩ := reachable_returned
  have hpeers : ∀ _ : ℕ, constantPeer.Answering := fun _ => answering_constantPeer
  exact ⟨t, q, hq, carried_whole hpeers ht 0 ((ht.invariant hpeers).1.arriveWhole 0)
    (Nat.lt_succ_self _)⟩

end NymphRpc
