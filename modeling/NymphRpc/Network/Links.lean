import NymphRpc.Client.Composed
import NymphRpc.Network.Network

/-!
# What is on the links

The message IDs of the requests on a link are distinct, since each was taken from the counter of
the client for one call. A session takes a request once, and what it sends for it has its message
ID; so no two replies have the same, and a listener never looks the same ID up twice. That is what
the client relies on: each step of the network is a step of the client or none. So a call that was
signalled has the value with which the method of the name it was made with has answered its own
arguments.
-/

namespace NymphRpc

open NymphMessage NymphRemoteClient NymphSession

namespace CallPhase

/-- All bytes of the request were sent. -/
@[grind] def isSent : CallPhase → Bool
  | sent | waiting | waking _ | woken _ | removing _ | returning _ => true
  | returned .timedOut | returned (.exception _) | returned (.value _) => true
  | ready | entered | checking | serialized | added => false
  | returned .refused | returned .sendFailed => false

/-- A request that was sent is there. -/
theorem identified_of_isSent {phase : CallPhase} (h : phase.isSent) : phase.identified := by
  grind [cases CallPhase, cases CallOutcome]

end CallPhase

@[simp, grind =] theorem isSent_result (r : NymphRequest) (b : Bool) :
    (CallPhase.returned (r.result b)).isSent = true := by
  cases b <;> cases hr : r.exception <;>
    simp [NymphRequest.result, NymphRequest.outcome, hr, CallPhase.isSent]

/-- The method under the ID of the request gets its values and answers with a value of its type. -/
structure Peer.Answers (p : Peer) (n : ℕ) (q : NymphMessage) (vs : List Value) (m : NymphMethod)
    (v : Value) : Prop where
  method : p.server.methodOf q.methodId = some m
  replies : CallbackReplies p.server p.session q.frame.length (p.surroundings n) n q.frame q vs m v
  valuetype : v.valuetype = m.returnType

/-- The result of a reply has the type of its value. -/
theorem RepliesWith.valuetype {msg response : NymphMessage} {v : Value}
    (h : RepliesWith msg v response) :
    response.response.map NymphType.valuetype = some v.valuetype := by
  cases h with
  | mk um t h => exact congrArg some h.valuetype

/-- The message is what the session sends for the request. -/
structure Peer.Sends (p : Peer) (n : ℕ) (q r : NymphMessage) (v : Value) : Prop where
  answers : ∃ vs m, p.Answers n q vs m v
  isAnswer : IsAnswer q v r
  isCallback : r.isCallback = false

/-- A session sends the answer of the method to a request, or nothing if it has no such method or
the answer is of another type. -/
theorem Peer.Answering.serve {p : Peer} (hp : p.Answering) {q : NymphMessage} {vs : List Value}
    (hframe : RequestFrame q.frame q vs) (hshort : q.frame.length < 2 ^ 31 + 8) (n : ℕ) :
    (p.serve n q).result = .ok () ∧
      ((p.serve n q).log = [] ∧ (∀ m v, ¬p.Answers n q vs m v) ∨
        ∃ r v, (p.serve n q).log = [r] ∧ p.Sends n q r v) := by
  obtain ⟨hresult, hanswered⟩ := serve_answered hp.aligned.intact hp.replying hp.syncTable
    hframe hshort le_rfl p.session (p.surroundings n) n
  refine ⟨hresult, ?_⟩
  cases hm : p.server.methodOf q.methodId with
  | none =>
    refine .inl ⟨?_, fun m v h => ?_⟩
    · rw [Peer.serve]
      generalize (NymphSession.serve p.server p.session q.frame.length (p.surroundings n) n
        (q.frame.drop 8)).log = log at hanswered ⊢
      cases hanswered with
      | unknown => rfl
      | refused hsome | answered hsome => cases hm.symm.trans hsome
    · cases hm.symm.trans h.method
  | some m =>
    obtain ⟨msg, hdecode, hreceived⟩ := hframe.decode hshort le_rfl (p.surroundings n).uninit
      (p.surroundings n).request
    obtain ⟨v, response, hcallback, hreplies, hfits⟩ := exists_callback hp.aligned.intact
      hp.replying hp.syncTable hm (p.surroundings n).response n p.session msg
    have hserve := serve_of_replies hdecode hreceived hm hcallback hreplies
    have hreplied : CallbackReplies p.server p.session q.frame.length (p.surroundings n) n q.frame
        q vs m v := ⟨msg, response, hdecode, hreceived, hcallback, hreplies⟩
    by_cases htype : v.valuetype = m.returnType
    · obtain ⟨r, payload, hrespond, hpayload, hsent, hresponse, hmessage⟩ :=
        hreplies.respond hfits.2 (p.surroundings n)
      rw [if_pos htype, hrespond] at hserve
      refine .inr ⟨r, v, congrArg Traced.log hserve, ⟨vs, m, hm, hreplied, htype⟩,
        hreplies.isAnswer hfits hreceived.messageId hpayload hsent hresponse hmessage, ?_⟩
      have hflags : response.flags = 0 ||| flagReply := by
        cases hreplies
        rfl
      exact (announced_reply (hsent.flags.trans hflags)).2.2
    · rw [if_neg htype] at hserve
      refine .inl ⟨congrArg Traced.log hserve, fun m' v' h => htype ?_⟩
      cases hm.symm.trans h.method
      obtain ⟨msg', response', hdecode', -, hcallback', hreplies'⟩ := h.replies
      cases hdecode.symm.trans hdecode'
      cases hcallback.symm.trans hcallback'
      have hsame := hreplies.valuetype.symm.trans hreplies'.valuetype
      exact (Option.some.inj hsame).trans h.valuetype

/-- The values that a method gets are those of the request. -/
theorem Peer.Answers.values_eq {p : Peer} {n : ℕ} {q : NymphMessage} {vs vs' : List Value}
    {m : NymphMethod} {v : Value} (h : p.Answers n q vs m v) (hframe : RequestFrame q.frame q vs')
    (hshort : q.frame.length < 2 ^ 31 + 8) : vs = vs' := by
  obtain ⟨msg, response, hdecode, hreceived, -⟩ := h.replies
  obtain ⟨msg', hdecode', hreceived'⟩ := hframe.decode hshort le_rfl
    (p.surroundings n).uninit (p.surroundings n).request
  cases hdecode.symm.trans hdecode'
  exact hreceived.carried.symm.trans hreceived'.carried

/-- What comes in for a request has its message ID and its value. -/
theorem Peer.Sends.received {p : Peer} {n : ℕ} {q r : NymphMessage} {v : Value}
    (h : p.Sends n q r v) {u : ℤ → Uninit} {um : MessageUninit} {m : NymphMessage}
    (hdecode : (decode u um r.frame.length (r.frame.drop 8)).result = .ok m) :
    NymphMessage.Received r (.reply q.messageId v) m := by
  obtain ⟨m', hm', hreceived⟩ := h.isAnswer.decodes u um r.frame.length
    (by rw [body, List.length_drop]; omega)
  cases hdecode.symm.trans hm'
  exact hreceived

/-- What comes in for a request is a reply. -/
theorem Peer.Sends.isReply {p : Peer} {n : ℕ} {q r m : NymphMessage} {v : Value}
    (h : p.Sends n q r v) (hm : NymphMessage.Received r (.reply q.messageId v) m) :
    m.isReply = true := by
  rw [NymphMessage.isReply, hm.flags]
  exact h.isAnswer.isReply

/-- What comes in for a request is neither corrupt nor a callback. -/
theorem Peer.Sends.kind {p : Peer} {n : ℕ} {q r m : NymphMessage} {v : Value}
    (h : p.Sends n q r v) (hm : NymphMessage.Received r (.reply q.messageId v) m) :
    m.corrupt = false ∧ m.isCallback = false := by
  refine ⟨hm.corrupt, ?_⟩
  rw [NymphMessage.isCallback, hm.flags]
  exact h.isCallback

/-- What a method composes of arguments and serialises is the frame of a request that carries their
values and names the method, and there is room for it. -/
theorem CallArguments.requestFrame (args : CallArguments) {m : NymphMethod} {um : MessageUninit}
    {msg sent : NymphMessage} {freshId : UInt64} {heap : ℕ → UInt8}
    (hmsg : m.composeMessage false um args.values = .ok msg)
    (hsent : msg.serialize freshId heap = some sent) :
    RequestFrame sent.frame sent args.content ∧ sent.methodId = m.id ∧
      sent.frame.length < 2 ^ 31 + 8 := by
  have hshort := args.short
  have hall : Value.sizeAll args.content < 2 ^ 31 := by
    rw [Content.size] at hshort
    omega
  have hprepared : Prepared um m.id (.regular args.content) msg :=
    NymphMethod.prepared_of_composeMessage args.constructed hall hmsg
  obtain ⟨q, hq, hframe, hid, hlength⟩ := requestFrame_of_prepared hprepared (by omega) freshId heap
  cases hsent.symm.trans hq
  exact ⟨hframe, hid, by omega⟩

namespace Network

variable {peers : ℕ → Peer} {t t' : Network}

/-- The message decodes to what has come in for it. -/
def Decodes (r m : NymphMessage) : Prop :=
  ∃ u um, (decode u um r.frame.length (r.frame.drop 8)).result = .ok m

/-- The message is that of the call: the method of the name that the call was made with has composed
it of the arguments. -/
structure Composed (peers : ℕ → Peer) (t : Network) (j : ℕ) (q : NymphMessage) : Prop where
  message : (t.client.calls j).message = some q
  made : ∃ (node : MethodNode) (um : MessageUninit) (msg : NymphMessage) (freshId : UInt64)
    (heap : ℕ → UInt8), (peers (t.client.calls j).handle).known.methods.find? (t.asked j).1 =
      some node ∧ node.method.composeMessage false um (t.asked j).2.values = .ok msg ∧
        msg.serialize freshId heap = some q

/-- The invariant of the links. -/
structure Linked (peers : ℕ → Peer) (t : Network) : Prop where
  composed : ∀ j, (t.client.calls j).phase.identified → ∃ q, t.Composed peers j q
  sent : ∀ h, ∀ q ∈ (t.links h).served ++ (t.links h).requests, ∃ j,
    (t.client.calls j).handle = h ∧ (t.client.calls j).phase.isSent ∧
      (t.client.calls j).message = some q
  once : ∀ h, (((t.links h).served ++ (t.links h).requests).map messageId).Nodup
  replies : ∀ h, ∀ r ∈ (t.links h).replies,
    r.responseId ∉ (t.client.connections h).replied ∧
      ∃ n q v, (t.links h).served[n]? = some q ∧ (peers h).Sends n q r v
  distinct : ∀ h, ((t.links h).replies.map responseId).Nodup
  replied : ∀ h, ∀ id ∈ (t.client.connections h).replied,
    ∃ q ∈ (t.links h).served, q.messageId = id
  received : ∀ h m, (h, m) ∈ t.client.received → ∃ n q r v, (t.links h).served[n]? = some q ∧
    (peers h).Sends n q r v ∧ NymphMessage.Received r (.reply q.messageId v) m

/-- A step of the client that neither makes a request, sends, nor takes a message. -/
structure Quiet (c c' : Calls) : Prop where
  step : CallStep c c'
  identified : ∀ j, (c'.calls j).phase.identified → (c.calls j).phase.identified
  isSent : ∀ j, (c.calls j).phase.isSent → (c'.calls j).phase.isSent
  replied : ∀ h, (c'.connections h).replied = (c.connections h).replied
  received : c'.received = c.received

/-- A step that leaves alone what composes and what was received is quiet. -/
theorem quiet_of_client {c c' : Calls} (hstep : CallStep c c')
    (hphase : ∀ j, (c.calls j).phase = .ready ∨ (c.calls j).phase = .checking ∨
      (c.calls j).phase = .added → (c'.calls j).phase = (c.calls j).phase)
    (hreceived : c'.received = c.received) : Quiet c c' := by
  have hlength := congrArg List.length hreceived
  refine ⟨hstep, ?_, ?_, ?_, hreceived⟩
  · clear hreceived
    cases hstep <;> grind
  · clear hreceived
    cases hstep <;> grind
  · clear hreceived
    cases hstep <;> grind

/-- Making a call is quiet. -/
theorem quiet_of_enter {c : Calls} {j h : ℕ} {sync : Bool} (hphase : (c.calls j).phase = .ready)
    (hfree : sync = false → c.instancesMutex = none) : Quiet c (c.enter j h sync) := by
  refine ⟨.enter j h sync hphase hfree, ?_, ?_, ?_, rfl⟩
  · grind
  · grind
  · grind

/-- Refusing a call is quiet. -/
theorem quiet_of_refuse {c : Calls} {j : ℕ} (hphase : (c.calls j).phase = .checking) :
    Quiet c (c.comeBackFromMethod j .refused) := by
  refine ⟨.refuse j hphase, ?_, ?_, ?_, rfl⟩
  · grind
  · grind
  · grind

/-- The message of a call stays as long as the call keeps it. -/
theorem Composed.keeps {j : ℕ} {q : NymphMessage} (hq : t.Composed peers j q)
    (hmessage : (t'.client.calls j).message = (t.client.calls j).message)
    (hhandle : (t'.client.calls j).handle = (t.client.calls j).handle)
    (hasked : t'.asked j = t.asked j) : t'.Composed peers j q where
  message := hmessage.trans hq.message
  made := by
    rw [hhandle, hasked]
    exact hq.made

/-- The message names the method. -/
theorem Composed.method {j : ℕ} {q : NymphMessage} (hq : t.Composed peers j q) :
    ∃ node, (peers (t.client.calls j).handle).known.methods.find? (t.asked j).1 = some node ∧
      q.methodId = node.method.id := by
  obtain ⟨node, um, msg, freshId, heap, hname, hmsg, hsent⟩ := hq.made
  exact ⟨node, hname, ((t.asked j).2.requestFrame hmsg hsent).2.1⟩

/-- The message carries the values that the call was made with. -/
theorem Composed.frame {j : ℕ} {q : NymphMessage} (hq : t.Composed peers j q) :
    RequestFrame q.frame q (t.asked j).2.content := by
  obtain ⟨node, um, msg, freshId, heap, -, hmsg, hsent⟩ := hq.made
  exact ((t.asked j).2.requestFrame hmsg hsent).1

/-- There is room for it. -/
theorem Composed.short {j : ℕ} {q : NymphMessage} (hq : t.Composed peers j q) :
    q.frame.length < 2 ^ 31 + 8 := by
  obtain ⟨node, um, msg, freshId, heap, -, hmsg, hsent⟩ := hq.made
  exact ((t.asked j).2.requestFrame hmsg hsent).2.2

namespace Linked

section

variable (hs : t.Linked peers)

include hs

/-- What a session sent for a request is taken once. -/
theorem not_replied {h : ℕ} {r : NymphMessage} {rest : List NymphMessage}
    (hr : (t.links h).replies = r :: rest) {u : ℤ → Uninit} {um : MessageUninit} {m : NymphMessage}
    (hdecode : (decode u um r.frame.length (r.frame.drop 8)).result = .ok m) :
    m.responseId = r.responseId ∧ r.responseId ∉ (t.client.connections h).replied ∧
      ∃ n q v, (t.links h).served[n]? = some q ∧ (peers h).Sends n q r v ∧
        NymphMessage.Received r (.reply q.messageId v) m := by
  obtain ⟨hnot, n, q, v, hq, hsends⟩ := hs.replies h r (hr ▸ List.mem_cons_self)
  have hreceived := hsends.received hdecode
  exact ⟨hreceived.carried.1.trans hsends.isAnswer.responseId.symm, hnot, n, q, v, hq, hsends,
    hreceived⟩

/-- What a session sent is taken as a reply, be it one that nobody waits for. -/
theorem not_dropped {h : ℕ} {r : NymphMessage} {rest : List NymphMessage}
    (hr : (t.links h).replies = r :: rest) {u : ℤ → Uninit} {um : MessageUninit} {m : NymphMessage}
    (hdecode : (decode u um r.frame.length (r.frame.drop 8)).result = .ok m) :
    ¬(m.corrupt = true ∨ m.isCallback = true) := by
  obtain ⟨-, -, n, q, v, -, hsends, hreceived⟩ := hs.not_replied hr hdecode
  have hkind := hsends.kind hreceived
  rw [hkind.1, hkind.2]
  simp

/-- A step of the network is a step of the client, or none. -/
theorem client_step (h : NetworkStep peers t t') :
    t'.client = t.client ∨ CallStep t.client t'.client := by
  cases h with
  | client hstep => exact .inr hstep
  | enter j h sync name args hphase hfree => exact .inr (.enter j h sync hphase hfree)
  | refuse j hphase => exact .inr (.refuse j hphase)
  | compose j node um e heap msg sent hphase hname hmsg hcounter hsent =>
    exact .inr (.serialize j e heap msg sent hphase hcounter
      (NymphMethod.isReply_composeMessage hmsg) hsent)
  | send j q hphase => exact .inr (.send j hphase)
  | serve | drop => exact .inl rfl
  | notFound h r rest m u um hr hdecode hidle hm hfree hlookup =>
    obtain ⟨hid, hnot, -⟩ := hs.not_replied hr hdecode
    exact .inr (.notFound h m ⟨u, um, _, _, hdecode⟩ hidle hm (hid ▸ hnot) hfree hlookup)
  | find h r rest m j u um hr hdecode hidle hm hfree hlookup =>
    obtain ⟨hid, hnot, -⟩ := hs.not_replied hr hdecode
    exact .inr (.find h m j ⟨u, um, _, _, hdecode⟩ hidle hm (hid ▸ hnot) hfree hlookup)

/-- A quiet step of the client keeps the links. -/
theorem quiet {c : Calls} {asked : ℕ → Bytes × CallArguments} (h : Quiet t.client c)
    (hasked : ∀ j, (t.client.calls j).phase.identified → asked j = t.asked j) :
    ({ t with client := c, asked := asked }).Linked peers where
  composed j hj := by
    have hold := h.identified j hj
    obtain ⟨q, hq⟩ := hs.composed j hold
    have hkeeps := Calls.keeps_step h.step hold
    exact ⟨q, hq.keeps hkeeps.message hkeeps.handle (hasked j hold)⟩
  sent i q hq := by
    obtain ⟨j, hhandle, hsent, hmessage⟩ := hs.sent i q hq
    have hkeeps := Calls.keeps_step h.step (CallPhase.identified_of_isSent hsent)
    exact ⟨j, hkeeps.handle.trans hhandle, h.isSent j hsent, hkeeps.message.trans hmessage⟩
  once := hs.once
  replies i r hr := by
    rw [h.replied i]
    exact hs.replies i r hr
  distinct := hs.distinct
  replied i id hid := by
    rw [h.replied i] at hid
    exact hs.replied i id hid
  received i m hm := by
    rw [h.received] at hm
    exact hs.received i m hm

/-- Making a request keeps the links. -/
theorem compose {j : ℕ} {e : NymphException} {sent : NymphMessage}
    (hphase : (t.client.calls j).phase = .checking)
    (hmade : ∃ (node : MethodNode) (um : MessageUninit) (msg : NymphMessage) (freshId : UInt64)
      (heap : ℕ → UInt8), (peers (t.client.calls j).handle).known.methods.find? (t.asked j).1 =
        some node ∧ node.method.composeMessage false um (t.asked j).2.values = .ok msg ∧
          msg.serialize freshId heap = some sent) :
    ({ t with client := t.client.request j e sent }).Linked peers := by
  have hcalls : ∀ i, i ≠ j → (t.client.request j e sent).calls i = t.client.calls i :=
    fun i hi => Function.update_of_ne hi _ _
  have hcall : (t.client.request j e sent).calls j = { t.client.calls j with
      phase := .serialized
      message := some sent
      request := .prepare e (t.client.calls j).handle sent.messageId } := Function.update_self ..
  have hconnections : ∀ i, ((t.client.request j e sent).connections i).replied =
      (t.client.connections i).replied := by
    intro i
    grind
  constructor
  · intro i hi
    obtain rfl | hne := eq_or_ne i j
    · refine ⟨sent, ?_, ?_⟩
      · rw [hcall]
      · simpa [hcall] using hmade
    · rw [hcalls i hne] at hi
      obtain ⟨q, hq⟩ := hs.composed i hi
      have hsame := congrArg Call.message (hcalls i hne)
      exact ⟨q, hq.keeps hsame (congrArg Call.handle (hcalls i hne)) rfl⟩
  · intro i q hq
    obtain ⟨k, hhandle, hsent, hmessage⟩ := hs.sent i q hq
    have hne : k ≠ j := by
      rintro rfl
      rw [hphase] at hsent
      cases hsent
    exact ⟨k, by rw [hcalls k hne]; exact ⟨hhandle, hsent, hmessage⟩⟩
  · exact hs.once
  · intro i r hr
    rw [hconnections]
    exact hs.replies i r hr
  · exact hs.distinct
  · intro i id hid
    rw [hconnections] at hid
    exact hs.replied i id hid
  · exact hs.received

/-- The request of a call that has not sent it is on no link. -/
theorem unsent (hc : t.client.Matched) {j : ℕ} {q : NymphMessage}
    (hj : (t.client.calls j).phase.identified) (hnot : (t.client.calls j).phase.isSent = false)
    (hq : (t.client.calls j).message = some q) (h : ℕ) :
    q.messageId ∉ ((t.links h).served ++ (t.links h).requests).map messageId := by
  intro hmem
  obtain ⟨q', hq', hid⟩ := List.mem_map.mp hmem
  obtain ⟨k, -, hsent, hmessage⟩ := hs.sent h q' hq'
  have hk := CallPhase.identified_of_isSent hsent
  obtain ⟨x, hx, hxid⟩ := hc.serialized k hk
  obtain ⟨y, hy, hyid⟩ := hc.serialized j hj
  cases hmessage.symm.trans hx
  cases hq.symm.trans hy
  -- the IDs of two requests are the same, so they belong to one call
  obtain rfl := hc.unique k j hk hj (hxid.symm.trans (hid.trans hyid))
  rw [hnot] at hsent
  cases hsent

/-- Sending a request keeps the links, since no call sends twice. -/
theorem send (hc : t.client.Matched) {j : ℕ} {q : NymphMessage}
    (hphase : (t.client.calls j).phase = .added) (hq : (t.client.calls j).message = some q) :
    ({ t with
      client := (t.client.goTo j .sent).setConnection (t.client.calls j).handle fun c =>
        { c with methodsMutex := none } }.setLink (t.client.calls j).handle fun l =>
      { l with requests := l.requests ++ [q] }).Linked peers := by
  have hcall := CallStep.send j hphase
  have hidentified : ∀ i, (t.client.calls i).phase.identified →
      ((t.client.goTo j .sent).calls i).phase.identified := by
    intro i hi
    grind
  constructor
  · intro i hi
    have hold : (t.client.calls i).phase.identified := by
      simp only [client_setLink] at hi
      grind
    obtain ⟨q', hq'⟩ := hs.composed i hold
    have hkeeps := Calls.keeps_step hcall hold
    exact ⟨q', hq'.keeps hkeeps.message hkeeps.handle rfl⟩
  · intro i q' hq'
    have hmem : q' ∈ (t.links i).served ++ (t.links i).requests ∨
        i = (t.client.calls j).handle ∧ q' = q := by
      rw [links_setLink] at hq'
      grind
    rcases hmem with hold | ⟨rfl, rfl⟩
    · obtain ⟨k, hhandle, hsent, hmessage⟩ := hs.sent i q' hold
      refine ⟨k, ?_⟩
      simp only [client_setLink]
      grind
    · refine ⟨j, ?_⟩
      simp only [client_setLink]
      grind
  · intro i
    rw [links_setLink]
    split_ifs with hi
    · subst hi
      have honce := hs.once (t.client.calls j).handle
      have hnew := hs.unsent hc (by rw [hphase]; rfl) (by rw [hphase]; rfl) hq
        (t.client.calls j).handle
      rw [← List.append_assoc, List.map_append]
      exact List.Nodup.append honce (List.nodup_singleton _) (by simpa using hnew)
    · exact hs.once i
  · intro i r hr
    have hreplies : r ∈ (t.links i).replies := by
      rw [links_setLink] at hr
      grind
    obtain ⟨hnot, n, q', v, hserved, hsends⟩ := hs.replies i r hreplies
    refine ⟨?_, n, q', v, ?_, hsends⟩
    · simp only [client_setLink]
      grind
    · rw [links_setLink]
      grind
  · intro i
    rw [links_setLink]
    split_ifs
    · exact hs.distinct i
    · exact hs.distinct i
  · intro i id hid
    have hold : id ∈ (t.client.connections i).replied := by
      simp only [client_setLink] at hid
      grind
    rw [links_setLink]
    split_ifs
    · exact hs.replied i id hold
    · exact hs.replied i id hold
  · intro i m hm
    rw [links_setLink]
    split_ifs
    · exact hs.received i m hm
    · exact hs.received i m hm

/-- Taking a reply away keeps the links. -/
theorem drop {h : ℕ} {r : NymphMessage} {rest : List NymphMessage}
    (hr : (t.links h).replies = r :: rest) :
    (t.setLink h fun l => { l with replies := rest }).Linked peers := by
  have hserved : ∀ i, ((t.setLink h fun l => { l with replies := rest }).links i).served =
      (t.links i).served := by
    intro i
    rw [links_setLink]
    split_ifs <;> rfl
  have hrequests : ∀ i, ((t.setLink h fun l => { l with replies := rest }).links i).requests =
      (t.links i).requests := by
    intro i
    rw [links_setLink]
    split_ifs <;> rfl
  refine ⟨?_, ?_, ?_, ?_, ?_, ?_, ?_⟩
  · intro j hj
    obtain ⟨q, hq⟩ := hs.composed j hj
    exact ⟨q, hq.keeps rfl rfl rfl⟩
  · intro i q hq
    rw [hserved, hrequests] at hq
    exact hs.sent i q hq
  · intro i
    rw [hserved, hrequests]
    exact hs.once i
  · intro i r' hr'
    rw [hserved]
    refine hs.replies i r' ?_
    rw [links_setLink] at hr'
    split_ifs at hr' with hi
    · rw [hi, hr]
      exact List.mem_cons_of_mem _ hr'
    · exact hr'
  · intro i
    have hdistinct := hs.distinct i
    rw [links_setLink]
    split_ifs with hi
    · rw [hi, hr, List.map_cons, List.nodup_cons] at hdistinct
      exact hdistinct.2
    · exact hdistinct
  · intro i id hid
    rw [hserved]
    exact hs.replied i id hid
  · intro i m hm
    rw [hserved]
    exact hs.received i m hm

/-- Looking a reply up keeps the links. -/
theorem receive {c : Calls} {h : ℕ} {r : NymphMessage} {rest : List NymphMessage}
    (hr : (t.links h).replies = r :: rest) {u : ℤ → Uninit} {um : MessageUninit} {m : NymphMessage}
    (hdecode : (decode u um r.frame.length (r.frame.drop 8)).result = .ok m)
    (hcalls : c.calls = t.client.calls)
    (hreplied : ∀ i, ∀ id ∈ (c.connections i).replied, id ∈ (t.client.connections i).replied ∨
      i = h ∧ id = m.responseId)
    (hreceived : c.received = t.client.received ++ [(h, m)]) :
    ({ t with client := c }.setLink h fun l => { l with replies := rest }).Linked peers := by
  obtain ⟨hid, -, n, q, v, hserved, hsends, hm⟩ := hs.not_replied hr hdecode
  have hdropped := hs.drop hr
  have hdistinct := hs.distinct h
  rw [hr, List.map_cons, List.nodup_cons] at hdistinct
  have hlinks : ∀ i, ({ t with client := c }.setLink h fun l =>
      { l with replies := rest }).links i =
        (t.setLink h fun l => { l with replies := rest }).links i := fun _ => rfl
  have hservedAt : ∀ i, ((t.setLink h fun l => { l with replies := rest }).links i).served =
      (t.links i).served := by
    intro i
    rw [links_setLink]
    split_ifs <;> rfl
  refine ⟨?_, ?_, hdropped.once, ?_, hdropped.distinct, ?_, ?_⟩
  · intro j hj
    simp only [client_setLink, hcalls] at hj
    obtain ⟨q', hq'⟩ := hs.composed j hj
    have hsame : c.calls j = t.client.calls j := congrFun hcalls j
    exact ⟨q', hq'.keeps (congrArg Call.message hsame) (congrArg Call.handle hsame) rfl⟩
  · intro i q' hq'
    simp only [client_setLink, hcalls]
    exact hdropped.sent i q' hq'
  · intro i r' hr'
    rw [hlinks] at hr' ⊢
    obtain ⟨hnot, hanswered⟩ := hdropped.replies i r' hr'
    refine ⟨?_, hanswered⟩
    intro hmem
    rcases hreplied i _ hmem with hold | ⟨rfl, heq⟩
    · exact hnot hold
    · rw [links_setLink, if_pos rfl] at hr'
      exact hdistinct.1 (List.mem_map.mpr ⟨r', hr', heq.trans hid⟩)
  · intro i id hmem
    rw [hlinks]
    rcases hreplied i id hmem with hold | ⟨rfl, rfl⟩
    · exact hdropped.replied i id hold
    · rw [hservedAt]
      exact ⟨q, List.mem_of_getElem? hserved, hsends.isAnswer.responseId.symm.trans hid.symm⟩
  · intro i m' hm'
    rw [hlinks, hservedAt]
    simp only [client_setLink, hreceived] at hm'
    rcases List.mem_append.mp hm' with hold | hnew
    · exact hs.received i m' hold
    · obtain ⟨rfl, rfl⟩ := Prod.mk.inj (List.mem_singleton.mp hnew)
      exact ⟨n, q, r, v, hserved, hsends, hm⟩

/-- What a session sends for the request of a call is its answer, if anything. -/
theorem log_serve (hpeers : ∀ h, (peers h).Answering) {h : ℕ} {q : NymphMessage}
    (hq : q ∈ (t.links h).served ++ (t.links h).requests) (n : ℕ) :
    ((peers h).serve n q).log = [] ∨
      ∃ r v, ((peers h).serve n q).log = [r] ∧ (peers h).Sends n q r v := by
  obtain ⟨j, -, hsent, hmessage⟩ := hs.sent h q hq
  obtain ⟨q', hcomposed⟩ := hs.composed j (CallPhase.identified_of_isSent hsent)
  cases hmessage.symm.trans hcomposed.message
  rcases ((hpeers h).serve hcomposed.frame hcomposed.short n).2 with ⟨hnone, -⟩ | hsends
  · exact .inl hnone
  · exact .inr hsends

/-- Serving a request keeps the links. -/
theorem serve (hpeers : ∀ h, (peers h).Answering) {h : ℕ} {q : NymphMessage}
    {rest : List NymphMessage} (hq : (t.links h).requests = q :: rest) :
    (t.setLink h fun l =>
      { requests := rest
        served := l.served ++ [q]
        replies := l.replies ++ ((peers h).serve l.served.length q).log }).Linked peers := by
  have hmem : q ∈ (t.links h).served ++ (t.links h).requests :=
    List.mem_append_right _ (hq ▸ List.mem_cons_self)
  have hlog := hs.log_serve hpeers hmem (t.links h).served.length
  have honce := hs.once h
  rw [hq, List.append_cons, List.map_append] at honce
  have hall : (t.links h).served ++ [q] ++ rest = (t.links h).served ++ (t.links h).requests := by
    rw [hq, List.append_assoc]
    rfl
  have hnew : q.messageId ∉ (t.links h).served.map messageId := by
    have hfirst := (List.nodup_append'.mp honce).1
    rw [List.map_append] at hfirst
    intro hmem
    exact (List.nodup_append'.mp hfirst).2.2 hmem (List.mem_singleton.mpr rfl)
  have hserved : ∀ {n : ℕ} {q' : NymphMessage}, (t.links h).served[n]? = some q' →
      ((t.links h).served ++ [q])[n]? = some q' := fun hn => by
    rw [List.getElem?_append_left (List.getElem?_eq_some_iff.mp hn).1]
    exact hn
  refine ⟨?_, ?_, ?_, ?_, ?_, ?_, ?_⟩
  · intro j hj
    obtain ⟨q', hq'⟩ := hs.composed j hj
    exact ⟨q', hq'.keeps rfl rfl rfl⟩
  · intro i q' hq'
    refine hs.sent i q' ?_
    rw [links_setLink] at hq'
    split_ifs at hq' with hi
    · subst hi
      rwa [← hall]
    · exact hq'
  · intro i
    rw [links_setLink]
    split_ifs with hi
    · subst hi
      rw [List.map_append]
      exact honce
    · exact hs.once i
  · intro i r hr
    rw [links_setLink] at hr ⊢
    split_ifs at hr ⊢ with hi
    · subst hi
      rcases List.mem_append.mp hr with hold | hlogged
      · obtain ⟨hnot, n, q', v, hn, hsends⟩ := hs.replies i r hold
        exact ⟨hnot, n, q', v, hserved hn, hsends⟩
      · rcases hlog with hnone | ⟨r', v, hone, hsends⟩
        · rw [hnone] at hlogged
          cases hlogged
        · rw [hone] at hlogged
          obtain rfl := List.mem_singleton.mp hlogged
          refine ⟨?_, _, q, v, List.getElem?_concat_length, hsends⟩
          intro hmem
          obtain ⟨q', hq', hid⟩ := hs.replied i _ hmem
          exact hnew (List.mem_map.mpr ⟨q', hq', hid.trans hsends.isAnswer.responseId⟩)
    · exact hs.replies i r hr
  · intro i
    rw [links_setLink]
    split_ifs with hi
    · subst hi
      rcases hlog with hnone | ⟨r, v, hone, hsends⟩
      · simpa [hnone] using hs.distinct i
      · rw [hone, List.map_append]
        refine List.Nodup.append (hs.distinct i) (List.nodup_singleton _) ?_
        intro id hid hid'
        obtain ⟨r', hr', rfl⟩ := List.mem_map.mp hid
        obtain ⟨-, n, q', v', hn, hsends'⟩ := hs.replies i r' hr'
        have heq : r'.responseId = r.responseId := List.mem_singleton.mp hid'
        rw [hsends.isAnswer.responseId, hsends'.isAnswer.responseId] at heq
        exact hnew (List.mem_map.mpr ⟨q', List.mem_of_getElem? hn, heq⟩)
    · exact hs.distinct i
  · intro i id hid
    obtain ⟨q', hq', heq⟩ := hs.replied i id hid
    rw [links_setLink]
    split_ifs with hi
    · subst hi
      exact ⟨q', List.mem_append_left _ hq', heq⟩
    · exact ⟨q', hq', heq⟩
  · intro i m hm
    obtain ⟨n, q', r, v, hn, hsends, hreceived⟩ := hs.received i m hm
    refine ⟨n, q', r, v, ?_, hsends, hreceived⟩
    rw [links_setLink]
    split_ifs with hi
    · subst hi
      exact hserved hn
    · exact hn

/-- The invariant survives every step. -/
theorem step (hpeers : ∀ h, (peers h).Answering) (hc : t.client.Matched)
    (h : NetworkStep peers t t') : t'.Linked peers := by
  cases h with
  | client hstep hphase hknown hreceived =>
    exact hs.quiet (quiet_of_client hstep hphase hreceived) fun _ _ => rfl
  | enter j h sync name args hphase hfree =>
    refine hs.quiet (quiet_of_enter hphase hfree) fun i hi => Function.update_of_ne ?_ _ _
    rintro rfl
    rw [hphase] at hi
    cases hi
  | refuse j hphase => exact hs.quiet (quiet_of_refuse hphase) fun _ _ => rfl
  | compose j node um e heap msg sent hphase hname hmsg hcounter hsent =>
    exact hs.compose hphase ⟨node, um, msg, _, heap, hname, hmsg, hsent⟩
  | send j q hphase hq => exact hs.send hc hphase hq
  | serve h q rest hq => exact hs.serve hpeers hq
  | drop h r rest m u um hr => exact hs.drop hr
  | notFound h r rest m u um hr hdecode =>
    refine hs.receive hr hdecode rfl ?_ rfl
    intro i id hid
    grind
  | find h r rest m j u um hr hdecode =>
    refine hs.receive hr hdecode rfl ?_ rfl
    intro i id hid
    grind

end

end Linked

/-- Nothing is on the links before the first call. -/
theorem linked_initial : initial.Linked peers := by
  constructor <;> simp [initial, Calls.initial, CallPhase.identified]

/-- The invariants hold in every state the network can get into. -/
theorem Reachable.invariant (hpeers : ∀ h, (peers h).Answering) (ht : t.Reachable peers) :
    t.Linked peers ∧ t.client.Matched := by
  refine Runs.invariant (I := fun t => t.Linked peers ∧ t.client.Matched) ?_
    ⟨linked_initial, Calls.matched_initial⟩ ht
  rintro t t' ⟨hs, hc⟩ h
  refine ⟨hs.step hpeers hc h, ?_⟩
  rcases hs.client_step h with hsame | hstep
  · rw [hsame]
    exact hc
  · exact hc.step hstep

/-- A call is refused for a reason, and none comes back because its bytes were not sent. -/
structure Explained (peers : ℕ → Peer) (t : Network) : Prop where
  refused : ∀ j, (t.client.calls j).phase = .returned .refused → t.Refuses peers j
  sendFailed : ∀ j, (t.client.calls j).phase ≠ .returned .sendFailed

/-- A signalled or timed out call was sent and not refused. -/
theorem result_ne (r : NymphRequest) (b : Bool) :
    r.result b ≠ .refused ∧ r.result b ≠ .sendFailed := by
  cases b <;> cases hr : r.exception <;> simp [NymphRequest.result, NymphRequest.outcome, hr]

/-- A call that comes back is refused for a reason or not at all. -/
theorem Explained.refused_step (hs : t.Explained peers) (h : NetworkStep peers t t') (j : ℕ)
    (hret : (t'.client.calls j).phase = .returned .refused) : t'.Refuses peers j := by
  have hrefused := hs.refused j
  have hresult := fun r b => (result_ne r b).1
  unfold Refuses at hrefused ⊢
  cases h with
  | @client c hstep hphase hknown hreceived =>
    clear hreceived
    have hsame : (t.client.calls j).phase = .returned .refused := by
      cases hstep <;> grind
    have hhandle : (c.calls j).handle = (t.client.calls j).handle := by
      cases hstep <;> grind
    rw [hhandle]
    exact hrefused hsame
  | refuse i hphase hrefuses =>
    unfold Refuses at hrefuses
    grind
  | _ => grind

/-- No call comes back because its bytes were not sent. -/
theorem Explained.sendFailed_step (hs : t.Explained peers) (h : NetworkStep peers t t') (j : ℕ) :
    (t'.client.calls j).phase ≠ .returned .sendFailed := by
  have hsendFailed := hs.sendFailed j
  have hresult := fun r b => (result_ne r b).2
  cases h with
  | client hstep hphase hknown hreceived =>
    clear hreceived
    cases hstep <;> grind
  | _ => grind

/-- In every state that the network can get into, calls are refused for a reason. -/
theorem Reachable.explained (ht : t.Reachable peers) : t.Explained peers := by
  refine Runs.invariant (I := Explained peers) ?_ ⟨?_, ?_⟩ ht
  · intro t t' hs h
    exact ⟨hs.refused_step h, hs.sendFailed_step h⟩
  · intro j hret
    cases hret
  · intro j hret
    cases hret

end Network

open Network

/-- The network never asks more of the replies than the client can rely on: as seen by the client,
every run is one of its runs. -/
theorem Network.Reachable.client {peers : ℕ → Peer} (hpeers : ∀ h, (peers h).Answering)
    {t : Network} (ht : t.Reachable peers) : t.client.Reachable := by
  refine Runs.simulates (f := Network.client)
    (I := fun t => t.Linked peers ∧ t.client.Matched) ?_ ?_
    ⟨linked_initial, Calls.matched_initial⟩ ht
  · rintro t t' ⟨hs, hc⟩ h
    refine ⟨hs.step hpeers hc h, ?_⟩
    rcases hs.client_step h with hsame | hstep
    · rw [hsame]
      exact hc
    · exact hc.step hstep
  · rintro t t' ⟨hs, -⟩ h
    rcases hs.client_step h with hsame | hstep
    · rw [hsame]
    · exact .single hstep

/-- What a call returns that was given the answer of a session. -/
structure Network.ReturnsAnswer (peers : ℕ → Peer) (t : Network) (j k : ℕ) (v : Value) : Prop where
  received : ∃ m, t.client.received[k]? = some ((t.client.calls j).handle, m) ∧
    m.response.map NymphType.value = some v
  answered : ∃ n q node, (t.links (t.client.calls j).handle).served[n]? = some q ∧
    (t.client.calls j).message = some q ∧
    (peers (t.client.calls j).handle).server.methods.find? (t.asked j).1 = some node ∧
    (peers (t.client.calls j).handle).Answers n q (t.asked j).2.content node.method v

/-- A call that was signalled returns the answer to its own request. -/
theorem Network.Linked.returnsAnswer {peers : ℕ → Peer} (hpeers : ∀ h, (peers h).Answering)
    {t : Network} (hs : t.Linked peers) (hc : t.client.Matched) {j : ℕ}
    (hj : (t.client.calls j).phase.signalled) :
    ∃ k v, (t.client.calls j).request.outcome = .value (some k) ∧ t.ReturnsAnswer peers j k v := by
  have hid := CallPhase.identified_of_signalled hj
  obtain ⟨k, m, hm, houtcome⟩ := hc.signalled j hj
  obtain ⟨n, q, r, v, hserved, hsends, hreceived⟩ :=
    hs.received _ m (List.mem_of_getElem? hm.received)
  obtain ⟨hresponseId, hresponse⟩ := hreceived.carried
  -- the request that was served is the one of this call
  obtain ⟨i, -, hsent, hmessage⟩ :=
    hs.sent _ q (List.mem_append_left _ (List.mem_of_getElem? hserved))
  have hi := CallPhase.identified_of_isSent hsent
  obtain ⟨sent, hserialized, hsentId⟩ := hc.serialized i hi
  cases hmessage.symm.trans hserialized
  obtain rfl : i = j := hc.unique i j hi hid
    (hsentId.symm.trans (hresponseId.symm.trans hm.responseId))
  obtain ⟨q', hcomposed⟩ := hs.composed i hid
  cases hmessage.symm.trans hcomposed.message
  have hreply := hsends.isReply hreceived
  obtain ⟨⟨vs, method, hanswers⟩, -, -⟩ := hsends
  obtain rfl := hanswers.values_eq hcomposed.frame hcomposed.short
  obtain ⟨called, hcalled, hmethodId⟩ := hcomposed.method
  obtain ⟨node, hnode, hmethodOf⟩ := (hpeers _).reaches _ called hcalled
  obtain rfl : node.method = method := by
    rw [← hmethodId] at hmethodOf
    exact Option.some.inj (hmethodOf.symm.trans hanswers.method)
  refine ⟨k, v, ?_, ⟨m, hm.received, hresponse⟩, n, q, node, hserved, hmessage, hnode, hanswers⟩
  obtain ⟨t', ht', -⟩ := Option.map_eq_some_iff.mp hresponse
  rw [houtcome, answer, if_pos hreply, ht']
  rfl

/-- So does every call that has returned after its wait, if it has not timed out. -/
theorem Network.Reachable.returnsAnswer {peers : ℕ → Peer} (hpeers : ∀ h, (peers h).Answering)
    {t : Network} (ht : t.Reachable peers) {j : ℕ} {o : CallOutcome}
    (hret : (t.client.calls j).phase = .returned o) (hj : (t.client.calls j).phase.signalled) :
    ∃ k v, o = .value (some k) ∧ t.ReturnsAnswer peers j k v := by
  obtain ⟨hs, hc⟩ := ht.invariant hpeers
  obtain ⟨k, v, houtcome, hanswer⟩ := hs.returnsAnswer hpeers hc hj
  exact ⟨k, v, (hc.outcome j o hj hret).trans houtcome, hanswer⟩

end NymphRpc
