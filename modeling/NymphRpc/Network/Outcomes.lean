import NymphRpc.Network.RemoteCalls

/-!
# Calls as functions

In the network a call takes many steps between those of other threads. It comes back as the
function `callMethod` does that meets with the same: the message is composed in the same memory, its
bytes are sent whole, and the wait ends in the same way. So what is known of the function holds of
every call in every run of a client with servers that answer.
-/

namespace NymphRpc

open NymphMessage NymphServerInstance

/-! ### What the function does -/

namespace NymphServerInstance

variable {c : NymphServerInstance} (handle : ℕ) {env : CallEnvironment} (j : ℕ)
  (memory : NymphRequest) (messages : OrderedMap.Map UInt64 ℕ) {name : Bytes}
  {values : List NymphType} {out : CallOut}

/-- If no method of the name takes the arguments, nothing is sent and nothing handed over. -/
theorem callMethod_of_refused
    (h : ∀ node, c.methods.find? name = some node → ¬node.method.Accepts values) :
    (c.callMethod handle env j memory messages name values out).returned = false ∧
      (c.callMethod handle env j memory messages name values out).returnvalue = out.returnvalue ∧
      (c.callMethod handle env j memory messages name values out).sent = none := by
  rw [callMethod]
  cases hname : c.methods.find? name with
  | none => exact ⟨rfl, rfl, rfl⟩
  | some node =>
    dsimp only
    rw [NymphMethod.call]
    cases hmsg : node.method.composeMessage (env.isCallback node.number) env.um values with
    | ok msg => exact absurd (NymphMethod.composeMessage_ok_iff.mp ⟨msg, hmsg⟩) (h node hname)
    | error text => exact ⟨rfl, rfl, rfl⟩

/-- If the method composes a message and its bytes are sent, the function waits. -/
theorem callMethod_of_sent {node : MethodNode} {msg q : NymphMessage}
    (hname : c.methods.find? name = some node) (hcallback : env.isCallback node.number = false)
    (hmsg : node.method.composeMessage false env.um values = .ok msg)
    (hsent : msg.serialize env.freshId env.heap = some q) (hwhole : env.sending = .whole) :
    ∃ called : Called, called.returned = true ∧ called.request.exception = false ∧
      called.result = out.result ∧ called.sent = some q.frame ∧
      c.callMethod handle env j memory messages name values out =
        awaitResponse env called out (timeOutText name) := by
  rw [callMethod, hname]
  dsimp only
  rw [hcallback, NymphMethod.call, hmsg, NymphMethod.sendMessage, hsent, hwhole]
  exact ⟨_, rfl, rfl, rfl, rfl, rfl⟩

end NymphServerInstance

/-- What is around the function is as the network has it: no method is a callback, the bytes are
sent whole, and the other things are given. -/
def CallEnvironment.inNetwork (env : CallEnvironment) (um : MessageUninit) (freshId : UInt64)
    (heap : ℕ → UInt8) (waiting : Waiting) : CallEnvironment :=
  { env with
    isCallback := fun _ => false
    um := um
    freshId := freshId
    heap := heap
    sending := .whole
    waiting := waiting }

/-- The function has come to the end that the call has come to. -/
inductive Network.EndsAs (t : Network) (j : ℕ) (env : CallEnvironment) (out : CallOut) :
    CallOutcome → CallEnd → Prop
  | refused {e : CallEnd} (returned : e.returned = false)
      (returnvalue : e.returnvalue = out.returnvalue) (sent : e.sent = none) :
      EndsAs t j env out .refused e
  | timedOut {e : CallEnd} {q : NymphMessage} (waiting : env.waiting = .timedOut)
      (returned : e.returned = false) (returnvalue : e.returnvalue = out.returnvalue)
      (result : e.result = timeOutText (t.asked j).1)
      (message : (t.client.calls j).message = some q) (sent : e.sent = some q.frame) :
      EndsAs t j env out .timedOut e
  | value {e : CallEnd} {q m : NymphMessage} {k : ℕ} (waiting : env.waiting = .signalled m)
      (received : t.client.received[k]? = some ((t.client.calls j).handle, m))
      (returned : e.returned = true) (returnvalue : e.returnvalue = m.response)
      (result : e.result = out.result)
      (message : (t.client.calls j).message = some q) (sent : e.sent = some q.frame) :
      EndsAs t j env out (.value (some k)) e

/-- What the function comes back with on the methods of the connection of a call, with its name and
its arguments. -/
def Network.called (peers : ℕ → Peer) (t : Network) (j : ℕ) (memory : NymphRequest)
    (messages : OrderedMap.Map UInt64 ℕ) (out : CallOut) (env : CallEnvironment) : CallEnd :=
  (peers (t.client.calls j).handle).known.callMethod (t.client.calls j).handle env j memory messages
    (t.asked j).1 (t.asked j).2.values out

section

variable {peers : ℕ → Peer} {t : Network} {j : ℕ} (memory : NymphRequest)
  (messages : OrderedMap.Map UInt64 ℕ) (out : CallOut) (env : CallEnvironment)

/-- For a call that has sent its request, the function sends the same and waits. -/
theorem Network.Composed.called {q : NymphMessage} (hq : t.Composed peers j q) :
    ∃ um freshId heap, ∀ waiting, ∃ called : Called, called.returned = true ∧
      called.request.exception = false ∧ called.result = out.result ∧ called.sent = some q.frame ∧
        t.called peers j memory messages out (env.inNetwork um freshId heap waiting) =
          awaitResponse (env.inNetwork um freshId heap waiting) called out
            (timeOutText (t.asked j).1) := by
  obtain ⟨node, um, msg, freshId, heap, hname, hmsg, hsent⟩ := hq.made
  refine ⟨um, freshId, heap, fun waiting => ?_⟩
  exact callMethod_of_sent _ j memory messages hname rfl hmsg hsent rfl

/-- For a call that was answered, the function hands the response over. -/
theorem Network.Reachable.endsAs_value (hpeers : ∀ h, (peers h).Answering) (ht : t.Reachable peers)
    {o : CallOutcome} (hret : (t.client.calls j).phase = .returned o)
    (hj : (t.client.calls j).phase.signalled) : ∃ um freshId heap waiting,
      t.EndsAs j (env.inNetwork um freshId heap waiting) out o
        (t.called peers j memory messages out (env.inNetwork um freshId heap waiting)) := by
  have hs := (ht.invariant hpeers).1
  obtain ⟨q, hq⟩ := hs.composed j (CallPhase.identified_of_signalled hj)
  obtain ⟨um, freshId, heap, hcalled⟩ := hq.called memory messages out env
  obtain ⟨k, v, rfl, ⟨m, hm, -⟩, -⟩ := ht.returnsAnswer hpeers hret hj
  obtain ⟨n, q', r, v', -, hsends, hreceived⟩ := hs.received _ m (List.mem_of_getElem? hm)
  have hreply := hsends.isReply hreceived
  obtain ⟨called, hreturned, hexception, hresult, hbytes, hend⟩ := hcalled (.signalled m)
  -- a reply is stored as the response, and leaves no exception
  have hstored : (called.request.store 0 m).exception = false := by
    rw [NymphRequest.store, if_pos hreply]
    exact hexception
  have hresponse := called.request.response_store 0 m
  rw [if_pos hreply] at hresponse
  refine ⟨um, freshId, heap, .signalled m, ?_⟩
  rw [hend, awaitResponse_response hreturned rfl hstored]
  refine .value rfl hm rfl ?_ hresult hq.message hbytes
  rw [hresponse]
  cases m.response <;> rfl

end

/-- A call is its function. Whatever the threads of the client and the sessions of its servers do, a
call that has returned ends as `callMethod` does on the methods of its connection, with its name and
its arguments, where the wait ends in the same way: nothing is sent if the call is refused, and
otherwise the bytes of its request are; a call that times out leaves the value as it was and writes
the text of a time-out, and one that is answered hands the response over and leaves the text as it
was. -/
theorem returned_asFunction {peers : ℕ → Peer} (hpeers : ∀ h, (peers h).Answering) {t : Network}
    (ht : t.Reachable peers) {j : ℕ} {o : CallOutcome}
    (hret : (t.client.calls j).phase = .returned o) (env : CallEnvironment) (memory : NymphRequest)
    (messages : OrderedMap.Map UInt64 ℕ) (out : CallOut) :
    ∃ um freshId heap waiting, t.EndsAs j (env.inNetwork um freshId heap waiting) out o
      (t.called peers j memory messages out (env.inNetwork um freshId heap waiting)) := by
  cases o with
  | refused =>
    refine ⟨env.um, env.freshId, env.heap, env.waiting, ?_⟩
    obtain ⟨hreturned, hvalue, hsent⟩ := callMethod_of_refused (t.client.calls j).handle j memory
      messages (ht.explained.refused j hret)
    exact .refused hreturned hvalue hsent
  | sendFailed => exact absurd hret (ht.explained.sendFailed j)
  | timedOut =>
    obtain ⟨q, hq⟩ := (ht.invariant hpeers).1.composed j (by rw [hret]; rfl)
    obtain ⟨um, freshId, heap, hcalled⟩ := hq.called memory messages out env
    obtain ⟨called, hreturned, -, -, hbytes, hend⟩ := hcalled .timedOut
    refine ⟨um, freshId, heap, .timedOut, ?_⟩
    rw [hend, awaitResponse_timedOut hreturned rfl]
    exact .timedOut rfl rfl rfl rfl hq.message hbytes
  | exception data => exact ht.endsAs_value memory messages out env hpeers hret (by rw [hret]; rfl)
  | value r => exact ht.endsAs_value memory messages out env hpeers hret (by rw [hret]; rfl)

/-- A call of the method 'c' ends as the function does. -/
theorem returned_asFunction_constant : ∃ (t : Network) (o : CallOutcome), o ≠ .timedOut ∧
    ∀ (env : CallEnvironment) memory messages out, ∃ um freshId heap waiting,
      t.EndsAs 0 (env.inNetwork um freshId heap waiting) out o
        (t.called (fun _ => constantPeer) 0 memory messages out
          (env.inNetwork um freshId heap waiting)) := by
  obtain ⟨t, o, ht, hret, htime, -⟩ := reachable_returned
  exact ⟨t, o, htime, returned_asFunction (fun _ => answering_constantPeer) ht hret⟩

end NymphRpc
