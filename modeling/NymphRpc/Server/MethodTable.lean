import NymphRpc.Base.LittleEndian
import NymphRpc.Base.OrderedMap
import NymphRpc.Message.NymphMessage

/-!
# Tables of methods

A server and a client each keep their methods under a name, and pointers to them under an ID.
A method lives in a node of the first table; the node of a name that is present already stays
as it is, and a new ID then points to it. Removing a name frees its node but erases no more
than the ID the node was made with, so another ID can be left with a pointer to nothing.

A pointer to a node is the name it is kept under and the number of its allocation, which is
never used again.
-/

namespace NymphRpc

open LittleEndian

/-- `NymphMethodCallback`: the built-in callback, or one of the application, which may answer
each call differently. -/
inductive NymphMethodCallback
  | syncMethods
  | application (answer : ℕ → ℤ → NymphMessage → Option NymphMessage)

/-- `NymphMethod`. -/
structure NymphMethod where
  name : Bytes
  id : UInt32
  parameters : List NymphTypes
  callback : NymphMethodCallback
  returnType : NymphTypes
  serialized : Bytes

/-- The characters 'METHOD'. -/
def methodSignature : Bytes := [0x4d, 0x45, 0x54, 0x48, 0x4f, 0x44]

/-- The characters 'nymphsync'. -/
def nymphsync : Bytes := [0x6e, 0x79, 0x6d, 0x70, 0x68, 0x73, 0x79, 0x6e, 0x63]

namespace NymphMethod

/-- `NymphMethod(name, parameters, retType, cb)`; the ID is not set, and not read before
`setId` sets it. -/
def make (name : Bytes) (parameters : List NymphTypes) (retType : NymphTypes)
    (cb : NymphMethodCallback) : NymphMethod :=
  ⟨name, 0, parameters, cb, retType, []⟩

/-- The types that are serialised; their count is cut to a byte. -/
def serializedTypes (m : NymphMethod) : Bytes :=
  (m.parameters.take (m.parameters.length % 256)).map NymphTypes.toByte

/-- The bytes `setId` serialises a method to; the length of the name is cut to a byte, too. -/
def serialize (m : NymphMethod) (id : UInt32) : Bytes :=
  methodSignature ++ (toBytes 4 id.toNat ++ (toBytes 1 m.name.length ++ (m.name ++
    (toBytes 1 m.parameters.length ++ (m.serializedTypes ++ [m.returnType.toByte])))))

/-- `setId`. -/
def setId (m : NymphMethod) (id : UInt32) : NymphMethod :=
  { m with id := id, serialized := m.serialize id }

end NymphMethod

/-- A node of the table of names. -/
structure MethodNode where
  number : ℕ
  method : NymphMethod

/-- A pointer to a node of the table of names. -/
structure NodePtr where
  name : Bytes
  number : ℕ

/-- The tables of a server or of a client's server instance. -/
structure MethodTable where
  methods : OrderedMap.Map Bytes MethodNode
  methodIds : OrderedMap.Map UInt32 NodePtr
  nextMethodId : UInt32
  allocated : ℕ

namespace MethodTable

/-- Tables without a method. -/
def empty : MethodTable := ⟨.empty, .empty, 0, 0⟩

/-- The node that an insertion under a name comes back with. -/
def inserted (s : MethodTable) (name : Bytes) (method : NymphMethod) : MethodNode :=
  (s.methods.find? name).getD ⟨s.allocated, method.setId s.nextMethodId⟩

/-- Give a method the next ID, and insert it under its name and under the ID. -/
def insert (s : MethodTable) (name : Bytes) (method : NymphMethod) : MethodTable where
  methods := s.methods.insert name ⟨s.allocated, method.setId s.nextMethodId⟩
  methodIds := s.methodIds.insert s.nextMethodId ⟨name, (s.inserted name method).number⟩
  nextMethodId := s.nextMethodId + 1
  allocated := s.allocated + 1

/-- The node a pointer points to, unless it was freed. -/
def node? (s : MethodTable) (p : NodePtr) : Option MethodNode :=
  (s.methods.find? p.name).filter fun node => node.number = p.number

/-- No pointer points to a node that was freed. -/
def Intact (s : MethodTable) : Prop :=
  ∀ id p, s.methodIds.find? id = some p → ∃ node, s.node? p = some node

/-- A pointer points to the node of its name if that has its number. -/
theorem node?_eq_some {s : MethodTable} {p : NodePtr} {node : MethodNode} :
    s.node? p = some node ↔ s.methods.find? p.name = some node ∧ node.number = p.number := by
  simp [node?, Option.filter_eq_some_iff]

/-- An insertion comes back with the node of the name, or with a new one. -/
theorem inserted_cases (s : MethodTable) (name : Bytes) (method : NymphMethod) :
    s.methods.find? name = some (s.inserted name method) ∨ s.methods.find? name = none ∧
      s.inserted name method = ⟨s.allocated, method.setId s.nextMethodId⟩ := by
  rw [inserted]
  cases s.methods.find? name with
  | none => exact .inr ⟨rfl, rfl⟩
  | some node => exact .inl rfl

/-- A name has the node that its insertion came back with. -/
theorem find?_insert (s : MethodTable) (name name' : Bytes) (method : NymphMethod) :
    (s.insert name method).methods.find? name' =
      if name = name' then some (s.inserted name method) else s.methods.find? name' := by
  rw [insert, OrderedMap.Map.find?_insert]
  split_ifs with h
  · subst h
    rw [inserted]
    cases s.methods.find? name <;> rfl
  · rfl

/-- An insertion frees nothing. -/
theorem node?_insert {s : MethodTable} {p : NodePtr} {node : MethodNode}
    (h : s.node? p = some node) (name : Bytes) (method : NymphMethod) :
    (s.insert name method).node? p = some node := by
  obtain ⟨hfind, hnumber⟩ := node?_eq_some.mp h
  rw [node?_eq_some, find?_insert]
  refine ⟨?_, hnumber⟩
  split_ifs with hname
  · rw [inserted, hname, hfind]
    rfl
  · exact hfind

/-- The new pointer points to the node that the insertion came back with. -/
theorem node?_inserted (s : MethodTable) (name : Bytes) (method : NymphMethod) :
    (s.insert name method).node? ⟨name, (s.inserted name method).number⟩ =
      some (s.inserted name method) := by
  rw [node?_eq_some, find?_insert, if_pos rfl]
  exact ⟨rfl, rfl⟩

/-- An insertion leaves no pointer to nothing. -/
theorem Intact.insert {s : MethodTable} (h : s.Intact) (name : Bytes) (method : NymphMethod) :
    (s.insert name method).Intact := by
  intro id p hp
  rw [MethodTable.insert, OrderedMap.Map.find?_insert] at hp
  have hold : s.methodIds.find? id = some p →
      ∃ node, (s.insert name method).node? p = some node := by
    intro hp
    obtain ⟨node, hnode⟩ := h id p hp
    exact ⟨node, node?_insert hnode name method⟩
  split_ifs at hp with hid
  · rcases Option.or_eq_some_iff.mp hp with hp | ⟨-, hp⟩
    · exact hold hp
    · cases hp
      exact ⟨_, s.node?_inserted name method⟩
  · exact hold hp

end MethodTable

/-- The tables of `NymphRemoteClient`, which is the server. -/
abbrev NymphRemoteClient := MethodTable

namespace NymphRemoteClient

/-- `registerMethod`. -/
def registerMethod (s : NymphRemoteClient) (name : Bytes) (method : NymphMethod) :
    NymphRemoteClient :=
  MethodTable.insert s name method

/-- `removeMethod`. It reads the ID of the node it looked for before it checks that there is
one, and there is no result without a node. -/
def removeMethod (s : NymphRemoteClient) (name : Bytes) : Option NymphRemoteClient :=
  (s.methods.find? name).map fun node =>
    { s with
      methods := s.methods.erase name
      methodIds := s.methodIds.erase node.method.id }

/-- The built-in method. -/
def syncFunction : NymphMethod := .make nymphsync [] .string .syncMethods

/-- `init`, which registers the built-in method. -/
def init : NymphRemoteClient := registerMethod .empty nymphsync syncFunction

/-- No other ID than its own points to the node of a name. -/
def OnlyId (s : NymphRemoteClient) (name : Bytes) : Prop :=
  ∀ node id p, s.methods.find? name = some node → s.methodIds.find? id = some p →
    p.name = name → id = node.method.id

/-- What removing a name leaves of the nodes. -/
theorem node?_removeMethod {s s' : NymphRemoteClient} {name : Bytes}
    (h : removeMethod s name = some s') (p : NodePtr) :
    s'.node? p = if p.name = name then none else s.node? p := by
  obtain ⟨node, -, rfl⟩ := Option.map_eq_some_iff.mp h
  simp only [MethodTable.node?, OrderedMap.Map.find?_erase]
  split_ifs <;> rfl

/-- Removing a name leaves no pointer to nothing if its node has no other ID. -/
theorem intact_removeMethod {s s' : NymphRemoteClient} {name : Bytes} (h : s.Intact)
    (honly : OnlyId s name) (hs' : removeMethod s name = some s') : s'.Intact := by
  intro id p hp
  rw [node?_removeMethod hs']
  obtain ⟨node, hnode, rfl⟩ := Option.map_eq_some_iff.mp hs'
  rw [OrderedMap.Map.find?_erase] at hp
  split_ifs at hp with hid
  rw [if_neg fun hname => hid (honly node id p hnode hp hname)]
  exact h id p hp

/-- The tables of a server that never removed a method with a second ID. -/
inductive Registered : NymphRemoteClient → Prop
  | init : Registered init
  | registerMethod {s} (h : Registered s) (name : Bytes) (method : NymphMethod) :
      Registered (registerMethod s name method)
  | removeMethod {s s' name} (h : Registered s) (honly : OnlyId s name)
      (hs' : removeMethod s name = some s') : Registered s'

/-- Such a server has no pointer to nothing. -/
theorem Registered.intact {s : NymphRemoteClient} (h : Registered s) : s.Intact := by
  induction h with
  | init => exact MethodTable.Intact.insert (fun _ _ h => by cases h) _ _
  | registerMethod h name method ih => exact ih.insert name method
  | removeMethod h honly hs' ih => exact intact_removeMethod ih honly hs'

end NymphRemoteClient

end NymphRpc
