import NymphRpc.Server.MethodTable

/-!
# Calling a method on the server

`callMethodCallback` looks a method up by its ID and calls its callback. The response is only
accepted if it has a result of the declared type; a method that declares no result has its
result dereferenced all the same.
-/

namespace NymphRpc

open LittleEndian

/-- Why a call does not come back. -/
inductive CallFault
  | freedMethod
  | nullResponse
  | nullResult
  deriving DecidableEq

/-- The characters 'METHODS'. -/
def methodsSignature : Bytes := [0x4d, 0x45, 0x54, 0x48, 0x4f, 0x44, 0x53]

namespace NymphRemoteClient

/-- The serialised methods behind some pointers, if none of them was freed. -/
def serializeMethods (s : NymphRemoteClient) : List (UInt32 × NodePtr) → Option Bytes
  | [] => some []
  | (_, p) :: rest => do
    let node ← s.node? p
    let bytes ← serializeMethods s rest
    pure (node.method.serialized ++ bytes)

/-- The table that `syncMethods` builds. -/
def serializedMethods (s : NymphRemoteClient) : Option Bytes := do
  let methods ← serializeMethods s s.methodIds.entries
  pure (methodsSignature ++ (toBytes 4 (UInt32.ofNat s.methodIds.entries.length).toNat ++ methods))

/-- `syncMethods`. -/
def syncMethods (s : NymphRemoteClient) (um : MessageUninit) (msg : NymphMessage) :
    Except CallFault NymphMessage :=
  match serializedMethods s with
  | none => .error .freedMethod
  | some methods => .ok ((msg.getReplyMessage um).setResultValue (.ofString methods false))

/-- Call a callback, at one of its calls. -/
def callback (s : NymphRemoteClient) (um : MessageUninit) (call : ℕ) (handle : ℤ)
    (msg : NymphMessage) : NymphMethodCallback → Except CallFault NymphMessage
  | .syncMethods => syncMethods s um msg
  | .application answer =>
    match answer call handle msg with
    | none => .error .nullResponse
    | some response => .ok response

end NymphRemoteClient

/-- `NymphMethod::callCallback`, given how a callback is called. -/
def NymphMethod.callCallback (m : NymphMethod)
    (callback : NymphMethodCallback → Except CallFault NymphMessage) :
    Except CallFault (Option NymphMessage) := do
  let response ← callback m.callback
  let (response, resval) := response.getResponse true
  match resval with
  | none => if m.returnType ≠ .null then pure none else throw .nullResult
  | some resval => if resval.valuetype ≠ m.returnType then pure none else pure (some response)

namespace NymphRemoteClient

/-- `callMethodCallback`; it is false exactly if there is no response. -/
def callMethodCallback (s : NymphRemoteClient) (um : MessageUninit) (call : ℕ) (handle : ℤ)
    (methodId : UInt32) (msg : NymphMessage) : Except CallFault (Option NymphMessage) :=
  match s.methodIds.find? methodId with
  | none => .ok none
  | some p =>
    match s.node? p with
    | none => .error .freedMethod
    | some node => node.method.callCallback (callback s um call handle msg)

/-- The method that is called under an ID. -/
def methodOf (s : NymphRemoteClient) (methodId : UInt32) : Option NymphMethod :=
  (s.methodIds.find? methodId).bind fun p => (s.node? p).map MethodNode.method

variable {s : NymphRemoteClient} {um : MessageUninit} {call : ℕ} {handle : ℤ} {methodId : UInt32}
  {msg : NymphMessage}

/-- A call under an ID calls the method that the ID stands for. -/
theorem callMethodCallback_of_methodOf {m : NymphMethod} (h : s.methodOf methodId = some m) :
    callMethodCallback s um call handle methodId msg =
      m.callCallback (callback s um call handle msg) := by
  obtain ⟨p, hp, hm⟩ := Option.bind_eq_some_iff.mp h
  obtain ⟨node, hnode, rfl⟩ := Option.map_eq_some_iff.mp hm
  rw [callMethodCallback, hp]
  dsimp only
  rw [hnode]

/-- Without pointers to nothing, a call under any other ID is refused. -/
theorem callMethodCallback_of_methodOf_none (hs : s.Intact) (h : s.methodOf methodId = none) :
    callMethodCallback s um call handle methodId msg = .ok none := by
  rw [callMethodCallback]
  cases hp : s.methodIds.find? methodId with
  | none => rfl
  | some p =>
    obtain ⟨node, hnode⟩ := hs _ _ hp
    rw [methodOf, hp, Option.bind_some, hnode] at h
    cases h

/-- The methods that the pointers of a list point to. -/
def listed (s : NymphRemoteClient) (l : List (UInt32 × NodePtr)) : List NymphMethod :=
  l.filterMap fun e => (s.node? e.2).map MethodNode.method

/-- Without pointers to nothing the table is the signature, the count and the methods of the
pointers in the order of their IDs. -/
theorem serializedMethods_eq (hs : s.Intact) : serializedMethods s = some (methodsSignature ++
    (toBytes 4 (UInt32.ofNat (listed s s.methodIds.entries).length).toNat ++
      ((listed s s.methodIds.entries).map NymphMethod.serialized).flatten)) ∧
    (listed s s.methodIds.entries).length = s.methodIds.entries.length := by
  have hlist : ∀ l : List (UInt32 × NodePtr), (∀ e ∈ l, ∃ node, s.node? e.2 = some node) →
      serializeMethods s l = some ((listed s l).map NymphMethod.serialized).flatten ∧
        (listed s l).length = l.length := by
    intro l hl
    induction l with
    | nil => exact ⟨rfl, rfl⟩
    | cons e l ih =>
      obtain ⟨node, hnode⟩ := hl e List.mem_cons_self
      obtain ⟨hbytes, hlength⟩ := ih fun e he => hl e (List.mem_cons_of_mem _ he)
      have hcons : listed s (e :: l) = node.method :: listed s l := by
        rw [listed, List.filterMap_cons, hnode]
        rfl
      rw [hcons]
      refine ⟨?_, congrArg Nat.succ hlength⟩
      rw [serializeMethods, hnode, hbytes]
      rfl
  obtain ⟨hbytes, hlength⟩ := hlist s.methodIds.entries fun e he =>
    hs e.1 e.2 (OrderedMap.Map.mem_entries.mp he)
  refine ⟨?_, hlength⟩
  rw [serializedMethods, hbytes, hlength]
  rfl

/-- A server whose only method of the application is registered under 'c'. -/
def serverOf (m : NymphMethod) : NymphRemoteClient := registerMethod init [0x63] m

/-- The methods of such a server. -/
theorem methodOf_serverOf {id : UInt32} {m m' : NymphMethod}
    (h : (serverOf m).methodOf id = some m') :
    m'.callback = .syncMethods ∨ id = 1 ∧ m' = m.setId 1 := by
  obtain ⟨p, hp, hm⟩ := Option.bind_eq_some_iff.mp h
  have hmem := OrderedMap.Map.mem_entries.mpr hp
  have hentries : (serverOf m).methodIds.entries = [(0, ⟨nymphsync, 0⟩), (1, ⟨[0x63], 1⟩)] := rfl
  rw [hentries] at hmem
  rcases List.mem_pair.mp hmem with heq | heq
  · cases heq
    cases hm
    exact .inl rfl
  · cases heq
    cases hm
    exact .inr ⟨rfl, rfl⟩

end NymphRemoteClient

namespace NymphMethod

variable {m : NymphMethod} {callback : NymphMethodCallback → Except CallFault NymphMessage}
  {response : NymphMessage}

/-- A response without a result is refused, or the missing result is dereferenced. -/
theorem callCallback_of_no_result (h : callback m.callback = .ok response)
    (hresult : response.response = none) :
    m.callCallback callback = if m.returnType ≠ .null then .ok none else .error .nullResult := by
  rw [callCallback, h]
  change (match response.response with | none => _ | some _ => _) = _
  rw [hresult]
  rfl

/-- A response with a result is accepted if the result has the declared type. -/
theorem callCallback_of_result {t : NymphType} (h : callback m.callback = .ok response)
    (hresult : response.response = some t) :
    m.callCallback callback =
      if t.valuetype ≠ m.returnType then .ok none
      else .ok (some { response with responseOwned := true }) := by
  rw [callCallback, h]
  change (match response.response with | none => _ | some _ => _) = _
  rw [hresult]
  rfl

end NymphMethod

end NymphRpc
