import NymphRpc.Client.Calling

/-!
# Calling by ID

`callMethodId` does what `callMethod` does, but for one member of the request that it leaves
unset. If the memory of the request holds `true` there, then every response that is not itself an
exception is taken for one: the value is dropped, and the text of an exception that nobody sent is
written over the result.
-/

namespace NymphRpc

namespace NymphServerInstance

/-- Two calls, the first by name and the second by ID, end in the same way, the text of a time-out
apart. -/
def SameEnd (name : Bytes) (id : UInt32) (x y : CallEnd) : Prop :=
  x = y ∨ x.result = timeOutText name ∧ y = { x with result := timeOutTextId id }

/-- A method is found under its name, and the same node under its ID. -/
structure RegisteredOnce (c : NymphServerInstance) (name : Bytes) (node : MethodNode) : Prop where
  named : c.methods.find? name = some node
  numbered : c.methodIds.find? node.method.id = some ⟨name, node.number⟩

/-- Whatever the out-parameters hold, a call by the ID of a method ends like one by its name. -/
def CallsAlike (c : NymphServerInstance) (handle : ℕ) (env : CallEnvironment) (j : ℕ)
    (memory : NymphRequest) (messages : OrderedMap.Map UInt64 ℕ) (name : Bytes) (id : UInt32)
    (values : List NymphType) : Prop :=
  ∀ out, ∃ y, callMethodId c handle env j memory messages id values out = some y ∧
    SameEnd name id (callMethod c handle env j memory messages name values out) y

end NymphServerInstance

open NymphServerInstance

/-- The wait ends with a message that sets the exception flag of the request, or not with a
message at all. -/
def Waiting.SetsFlag : Waiting → Prop
  | .timedOut => True
  | .signalled m => m.isReply = false ∧ m.isException = true

instance : (w : Waiting) → Decidable w.SetsFlag
  | .timedOut => .isTrue trivial
  | .signalled _ => inferInstanceAs (Decidable (_ ∧ _))

/-- The same call with another exception flag in its request. -/
def Called.setException (called : Called) (exception : Bool) : Called :=
  { called with request := { called.request with exception := exception } }

/-- Nothing changes if the flag was so before. -/
theorem Called.setException_self (called : Called) :
    called.setException called.request.exception = called := rfl

/-! ### Methods that are added once -/

namespace NymphServerInstance

/-- A method that is registered once stays so when others are added. -/
theorem RegisteredOnce.addMethod {c : NymphServerInstance} {name : Bytes} {node : MethodNode}
    (h : RegisteredOnce c name node) (name' : Bytes) (method : NymphMethod) :
    RegisteredOnce (addMethod c name' method) name node := by
  constructor
  · rw [NymphServerInstance.addMethod, MethodTable.find?_insert]
    split_ifs with hname
    · rw [MethodTable.inserted, hname, h.named]
      rfl
    · exact h.named
  · rw [NymphServerInstance.addMethod, MethodTable.insert, OrderedMap.Map.find?_insert]
    split_ifs
    · rw [h.numbered]
      rfl
    · exact h.numbered

/-- Add methods one after the other. -/
def addMethods (c : NymphServerInstance) (l : List (Bytes × NymphMethod)) : NymphServerInstance :=
  l.foldl (fun c e => addMethod c e.1 e.2) c

/-- A method that is registered once stays so when others are added. -/
theorem RegisteredOnce.addMethods {c : NymphServerInstance} {name : Bytes} {node : MethodNode}
    (h : RegisteredOnce c name node) (l : List (Bytes × NymphMethod)) :
    RegisteredOnce (addMethods c l) name node := by
  induction l generalizing c with
  | nil => exact h
  | cons e l ih => exact ih (h.addMethod e.1 e.2)

/-- After some methods were added, the next ID is their number, no larger ID is taken, and only
their names are. -/
theorem fresh_addMethods (l : List (Bytes × NymphMethod)) (hl : l.length + 1 < 2 ^ 32) :
    (addMethods connected l).nextMethodId = .ofNat (l.length + 1) ∧
      (∀ id p, (addMethods connected l).methodIds.find? id = some p → id.toNat ≤ l.length) ∧
      ∀ name node, (addMethods connected l).methods.find? name = some node →
        name ∈ nymphsync :: l.map Prod.fst := by
  induction l using List.reverseRecOn with
  | nil =>
    refine ⟨rfl, ?_, ?_⟩
    · intro id p hp
      rw [addMethods, List.foldl_nil, connected, addMethod, MethodTable.insert,
        OrderedMap.Map.find?_insert] at hp
      split_ifs at hp with hid
      · rw [← hid]
        exact le_rfl
      · cases hp
    · intro name node hnode
      rw [addMethods, List.foldl_nil, connected, addMethod, MethodTable.find?_insert] at hnode
      split_ifs at hnode with hname
      · exact hname ▸ List.mem_cons_self
      · cases hnode
  | append_singleton l e ih =>
    rw [List.length_append, List.length_singleton] at hl ⊢
    obtain ⟨hnext, hids, hnames⟩ := ih (by omega)
    have hstep : addMethods connected (l ++ [e]) = addMethod (addMethods connected l) e.1 e.2 := by
      rw [addMethods, List.foldl_append]
      rfl
    have hnat : (UInt32.ofNat (l.length + 1)).toNat = l.length + 1 := by
      rw [UInt32.toNat_ofNat']
      omega
    rw [hstep]
    refine ⟨?_, ?_, ?_⟩
    · rw [addMethod, MethodTable.insert, hnext, UInt32.ofNat_add (l.length + 1) 1]
      rfl
    · intro id p hp
      rw [addMethod, MethodTable.insert, OrderedMap.Map.find?_insert, hnext] at hp
      split_ifs at hp with hid
      · rw [← hid, hnat]
      · have hle := hids id p hp
        omega
    · intro name node hnode
      rw [addMethod, MethodTable.find?_insert] at hnode
      split_ifs at hnode with hname
      · rw [← hname]
        simp
      · have hmem := hnames name node hnode
        simp only [List.mem_cons, List.map_append, List.mem_append] at hmem ⊢
        exact hmem.imp_right .inl

/-- A method that was added under a name of its own is registered once, unless the IDs have
wrapped around before. -/
theorem registeredOnce_addMethods {pre post : List (Bytes × NymphMethod)} {name : Bytes}
    {method : NymphMethod} (hname : name ∉ nymphsync :: pre.map Prod.fst)
    (hpre : pre.length + 1 < 2 ^ 32) :
    ∃ node, node.method = method.setId (.ofNat (pre.length + 1)) ∧
      RegisteredOnce (addMethods connected (pre ++ (name, method) :: post)) name node := by
  obtain ⟨hnext, hids, hnames⟩ := fresh_addMethods pre hpre
  have hnone : (addMethods connected pre).methods.find? name = none := by
    by_contra hsome
    obtain ⟨node, hnode⟩ := Option.ne_none_iff_exists'.mp hsome
    exact hname (hnames name node hnode)
  have hfree : (addMethods connected pre).methodIds.find? (.ofNat (pre.length + 1)) = none := by
    by_contra hsome
    obtain ⟨p, hp⟩ := Option.ne_none_iff_exists'.mp hsome
    have hle := hids _ p hp
    rw [UInt32.toNat_ofNat'] at hle
    omega
  have hinserted : (addMethods connected pre).inserted name method =
      ⟨(addMethods connected pre).allocated, method.setId (.ofNat (pre.length + 1))⟩ := by
    rw [MethodTable.inserted, hnone, hnext]
    rfl
  have hsplit : addMethods connected (pre ++ (name, method) :: post) =
      addMethods (addMethod (addMethods connected pre) name method) post := by
    rw [addMethods, List.foldl_append]
    rfl
  refine ⟨⟨(addMethods connected pre).allocated, method.setId (.ofNat (pre.length + 1))⟩, rfl, ?_⟩
  rw [hsplit]
  apply RegisteredOnce.addMethods
  constructor
  · rw [addMethod, MethodTable.find?_insert, if_pos rfl, hinserted]
  · change (addMethod (addMethods connected pre) name method).methodIds.find?
      (.ofNat (pre.length + 1)) = _
    rw [addMethod, MethodTable.insert, OrderedMap.Map.find?_insert, hnext, if_pos rfl, hfree,
      hinserted]
    rfl

/-! ### Equal ends -/

variable {c : NymphServerInstance} {handle : ℕ} {env : CallEnvironment} {j : ℕ}
  {memory : NymphRequest} {messages : OrderedMap.Map UInt64 ℕ} {name : Bytes} {node : MethodNode}
  {values : List NymphType} {out : CallOut}

/-- The request of a call by name. -/
def namedRequest (handle : ℕ) (memory : NymphRequest) : NymphRequest :=
  { memory with response := none, exception := false, handle := handle, mutex := some .caller }

/-- What `call` does for a call by name. -/
@[irreducible] def called (node : MethodNode) (handle : ℕ) (env : CallEnvironment) (j : ℕ)
    (memory : NymphRequest) (messages : OrderedMap.Map UInt64 ℕ) (values : List NymphType)
    (out : CallOut) : Called :=
  node.method.call (env.isCallback node.number) env j (namedRequest handle memory) values messages
    out.result

/-- A call by name is that of the method, and then the wait. -/
theorem callMethod_eq (h : RegisteredOnce c name node) :
    callMethod c handle env j memory messages name values out =
      awaitResponse env (called node handle env j memory messages values out) out
        (timeOutText name) := by
  rw [callMethod, h.named, called]
  rfl

/-- A call by ID is the same with the exception flag that was in memory. -/
theorem callMethodId_eq (h : RegisteredOnce c name node) :
    callMethodId c handle env j memory messages node.method.id values out =
      some (awaitResponse env
        ((called node handle env j memory messages values out).setException memory.exception) out
        (timeOutTextId node.method.id)) := by
  have hnode : c.node? ⟨name, node.number⟩ = some node :=
    MethodTable.node?_eq_some.mpr ⟨h.named, rfl⟩
  have hcall : node.method.call (env.isCallback node.number) env j
      { namedRequest handle memory with exception := memory.exception } values messages
        out.result =
      (node.method.call (env.isCallback node.number) env j (namedRequest handle memory) values
        messages out.result).setException memory.exception :=
    NymphMethod.call_exception memory.exception
  rw [callMethodId, h.numbered, called]
  dsimp only
  rw [hnode, Option.map_some]
  exact congrArg (fun called => some (awaitResponse env called out _)) hcall

/-- The request is sent if the arguments are accepted and the bytes are sent. -/
theorem returned_called : (called node handle env j memory messages values out).returned = true ↔
    node.method.Accepts values ∧ env.sending = .whole := by
  rw [called]
  exact NymphMethod.returned_call

/-- A request that is sent writes no text. -/
theorem result_called (h : node.method.Accepts values ∧ env.sending = .whole) :
    (called node handle env j memory messages values out).result = out.result := by
  have hreturned : (called node handle env j memory messages values out).returned = true :=
    returned_called.mpr h
  rw [called] at hreturned ⊢
  exact NymphMethod.result_call hreturned

/-- The request has no flag, and holds the exception that was in memory. -/
theorem request_called :
    (called node handle env j memory messages values out).request.exception = false ∧
      (called node handle env j memory messages values out).request.exceptionData =
        memory.exceptionData := by
  obtain ⟨messageId, hcall⟩ : ∃ messageId,
      (called node handle env j memory messages values out).request =
        { namedRequest handle memory with messageId := messageId } := by
    rw [called]
    exact NymphMethod.request_call
  rw [hcall]
  exact ⟨rfl, rfl⟩

/-- The text of a time-out is all that calls of the same request can differ in. -/
theorem awaitResponse_text (called : Called) (text textId : Bytes) :
    awaitResponse env called out text = awaitResponse env called out textId ∨
      (awaitResponse env called out text).result = text ∧
        awaitResponse env called out textId =
          { awaitResponse env called out text with result := textId } := by
  cases hreturned : called.returned with
  | false =>
    left
    rw [awaitResponse_unsent hreturned, awaitResponse_unsent hreturned]
  | true =>
    cases hwaiting : env.waiting with
    | timedOut =>
      right
      rw [awaitResponse_timedOut hreturned hwaiting, awaitResponse_timedOut hreturned hwaiting]
      exact ⟨rfl, rfl⟩
    | signalled m =>
      left
      cases hexception : (called.request.store 0 m).exception with
      | false =>
        rw [awaitResponse_response hreturned hwaiting hexception,
          awaitResponse_response hreturned hwaiting hexception]
      | true =>
        rw [awaitResponse_exception hreturned hwaiting hexception,
          awaitResponse_exception hreturned hwaiting hexception]

/-- A call whose wait sets the flag, or that is not sent, ends in the same way whatever its flag
was. -/
theorem awaitResponse_setException {called : Called} (exception : Bool) {text : Bytes}
    (h : called.returned = false ∨ env.waiting.SetsFlag) :
    awaitResponse env (called.setException exception) out text =
      awaitResponse env called out text := by
  have hset : (called.setException exception).returned = called.returned := rfl
  cases hreturned : called.returned with
  | false =>
    rw [awaitResponse_unsent hreturned, awaitResponse_unsent (hset.trans hreturned)]
    rfl
  | true =>
    have hwait := h.resolve_left (by simp [hreturned])
    cases hwaiting : env.waiting with
    | timedOut =>
      rw [awaitResponse_timedOut hreturned hwaiting,
        awaitResponse_timedOut (hset.trans hreturned) hwaiting]
      rfl
    | signalled m =>
      rw [hwaiting] at hwait
      have hstore : ∀ request : NymphRequest, request.store 0 m =
          { request with exception := true, response := none, exceptionData := m.exception } := by
        intro request
        rw [NymphRequest.store, if_neg (by simp [hwait.1]), if_pos hwait.2]
      have hexception : ∀ request : NymphRequest, (request.store 0 m).exception = true := by
        intro request
        rw [hstore]
      rw [awaitResponse_exception hreturned hwaiting (hexception _),
        awaitResponse_exception (hset.trans hreturned) hwaiting (hexception _), hstore, hstore]
      rfl

/-- A message that does not set the flag leaves it, and the exception, as they were. -/
theorem exception_store {m : NymphMessage} (h : ¬(Waiting.signalled m).SetsFlag)
    (request : NymphRequest) : (request.store 0 m).exception = request.exception ∧
      (request.store 0 m).exceptionData = request.exceptionData := by
  rw [NymphRequest.store]
  split_ifs with hreply hexception
  · exact ⟨rfl, rfl⟩
  · exact absurd ⟨by simpa using hreply, hexception⟩ h
  · exact ⟨rfl, rfl⟩

/-- A call that is sent and whose wait does not set the flag writes no text. -/
theorem awaitResponse_result {called : Called} {text : Bytes} (hreturned : called.returned = true)
    (hflag : called.request.exception = false) (h : ¬env.waiting.SetsFlag) :
    (awaitResponse env called out text).result = called.result := by
  cases hwaiting : env.waiting with
  | timedOut =>
    rw [hwaiting] at h
    exact absurd trivial h
  | signalled m =>
    rw [hwaiting] at h
    rw [awaitResponse_response hreturned hwaiting ((exception_store h _).1.trans hflag)]

/-- If the flag was set before, it writes the text of an exception that was not sent. -/
theorem awaitResponse_flagged {called : Called} {text : Bytes} (hreturned : called.returned = true)
    (h : ¬env.waiting.SetsFlag) :
    (awaitResponse env (called.setException true) out text).result =
      called.request.exceptionData.text := by
  have hset : (called.setException true).returned = true := hreturned
  cases hwaiting : env.waiting with
  | timedOut =>
    rw [hwaiting] at h
    exact absurd trivial h
  | signalled m =>
    rw [hwaiting] at h
    obtain ⟨hexception, hdata⟩ := exception_store h (called.setException true).request
    rw [awaitResponse_exception hset hwaiting hexception, hdata]
    rfl

/-- A call by ID ends otherwise if it is sent, the flag was set and the wait does not set it. -/
theorem not_callsAlike (h : RegisteredOnce c name node) (hmemory : memory.exception = true)
    (hsent : node.method.Accepts values ∧ env.sending = .whole) (hwaiting : ¬env.waiting.SetsFlag) :
    ¬CallsAlike c handle env j memory messages name node.method.id values := by
  intro halike
  -- out-parameters that hold a result which neither text is
  let out : CallOut := ⟨none, memory.exceptionData.text ++ timeOutText name ++ [0]⟩
  have hlong : ∀ text : Bytes, out.result = text →
      text ≠ memory.exceptionData.text ∧ text ≠ timeOutText name := by
    rintro text rfl
    apply And.intro <;> intro heq <;> have hlength := congrArg List.length heq <;>
      simp only [out, List.length_append, List.length_singleton] at hlength <;> omega
  have hresult : (callMethod c handle env j memory messages name values out).result =
      out.result := by
    rw [callMethod_eq h, awaitResponse_result (returned_called.mpr hsent) request_called.1 hwaiting,
      result_called hsent]
  obtain ⟨y, hy, hsame⟩ := halike out
  have hresultId : y.result = memory.exceptionData.text := by
    rw [callMethodId_eq h, hmemory] at hy
    rw [← Option.some.inj hy, awaitResponse_flagged (returned_called.mpr hsent) hwaiting,
      request_called.2]
  obtain ⟨hexception, htimeOut⟩ := hlong _ hresult.symm
  rcases hsame with heq | ⟨htext, -⟩
  · exact hexception (by rw [heq, hresultId])
  · exact htimeOut htext

/-- A method that is registered once is called by its ID as by its name, if and only if the memory
of the request holds no exception flag, or the request is not sent, or the wait times out or ends
with an exception. -/
theorem callsAlike_iff (h : RegisteredOnce c name node) :
    CallsAlike c handle env j memory messages name node.method.id values ↔
      memory.exception = false ∨ ¬(node.method.Accepts values ∧ env.sending = .whole) ∨
        env.waiting.SetsFlag := by
  constructor
  · intro halike
    by_contra hnot
    simp only [not_or, not_not, Bool.not_eq_false] at hnot
    obtain ⟨hmemory, hsent, hwaiting⟩ := hnot
    exact not_callsAlike h hmemory hsent hwaiting halike
  · intro hcase out
    refine ⟨_, callMethodId_eq h, ?_⟩
    have hsame : awaitResponse env
        ((called node handle env j memory messages values out).setException memory.exception) out
        (timeOutTextId node.method.id) =
          awaitResponse env (called node handle env j memory messages values out) out
            (timeOutTextId node.method.id) := by
      rcases hcase with hmemory | hunsent | hwaiting
      · rw [hmemory, ← request_called.1, Called.setException_self]
      · apply awaitResponse_setException
        left
        rw [← Bool.not_eq_true]
        exact fun htrue => hunsent (returned_called.mp htrue)
      · exact awaitResponse_setException _ (.inr hwaiting)
    rw [callMethod_eq h, hsame]
    exact awaitResponse_text _ _ _

/-- A method without parameters whose name is the character 'a'. -/
def silent : NymphMethod := .make [0x61] [] .null dummyCallback

/-- An instance that the method was added to. -/
def silentInstance : NymphServerInstance := addMethods connected [([0x61], silent)]

/-- The method is registered once. -/
theorem registeredOnce_silent : ∃ node, node.method = silent.setId 1 ∧
    RegisteredOnce silentInstance [0x61] node := by
  have hname : [0x61] ∉ nymphsync :: ([] : List (Bytes × NymphMethod)).map Prod.fst := by decide
  exact registeredOnce_addMethods hname (by decide)

/-- A call whose request is sent. -/
def sentAndWaiting (waiting : Waiting) : CallEnvironment :=
  ⟨fun _ => false, ⟨0, 0⟩, 1, fun _ => 0, true, .whole, waiting, id, true⟩

/-- Memory that holds an exception flag. -/
def flaggedMemory : NymphRequest := ⟨0, 0, none, none, true, ⟨0, []⟩⟩

/-- A reply without a response. -/
def emptyReply : NymphMessage := { NymphMessage.ofMethodId ⟨0, 0⟩ 1 with flags := flagReply }

/-- A call that times out does not show what was in memory. -/
theorem callsAlike_timedOut : CallsAlike silentInstance 0 (sentAndWaiting .timedOut) 0 flaggedMemory
    .empty [0x61] 1 [] := by
  obtain ⟨node, hmethod, h⟩ := registeredOnce_silent
  have hid : node.method.id = 1 := by rw [hmethod]; rfl
  rw [← hid]
  exact (callsAlike_iff h).mpr (.inr (.inr trivial))

/-- A call that is replied to does. -/
theorem not_callsAlike_reply : ¬CallsAlike silentInstance 0 (sentAndWaiting (.signalled emptyReply))
    0 flaggedMemory .empty [0x61] 1 [] := by
  obtain ⟨node, hmethod, h⟩ := registeredOnce_silent
  have hid : node.method.id = 1 := by rw [hmethod]; rfl
  have haccepts : node.method.Accepts [] := by
    rw [hmethod]
    exact ⟨rfl, by simp⟩
  rw [← hid]
  exact not_callsAlike h rfl ⟨haccepts, rfl⟩ (by decide)

end NymphServerInstance

end NymphRpc
