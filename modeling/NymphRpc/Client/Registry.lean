import NymphRpc.Base.Histories
import NymphRpc.Client.Calling
import NymphRpc.Server.Agreement

/-!
# Histories of a client's methods

Runs of `addMethod` and `removeMethod` after the constructor of a server instance. The tables
agree as long as a method is added under a new name and a free ID, and none is removed: a name
that is added again leaves an ID at the older method, which has another, and a method that is
removed leaves its ID behind.
-/

namespace NymphRpc

open LittleEndian

/-- A call that changes the methods of a server instance. -/
inductive InstanceCall
  | addMethod (name : Bytes) (method : NymphMethod)
  | removeMethod (name : Bytes)

namespace NymphServerInstance

/-- `removeMethod`, which leaves the table of IDs as it is. -/
def removeMethod (c : NymphServerInstance) (name : Bytes) : NymphServerInstance :=
  match c.methods.find? name with
  | none => c
  | some _ => { c with methods := c.methods.erase name }

/-- Make a call. -/
def apply (c : NymphServerInstance) : InstanceCall → NymphServerInstance
  | .addMethod name method => addMethod c name method
  | .removeMethod name => removeMethod c name

/-- The method that `callMethod` finds. -/
def named (c : NymphServerInstance) (name : Bytes) : Option MethodNode := c.methods.find? name

/-- The method that `callMethodId` finds; a pointer to nothing finds none. -/
def numbered (c : NymphServerInstance) (id : UInt32) : Option MethodNode :=
  (c.methodIds.find? id).bind c.node?

/-- An entry of an ID refers to a method that is present and carries the ID, a method is found
under its own ID, and so an ID finds what the name of the method finds. -/
structure Consistent (c : NymphServerInstance) : Prop where
  refers : ∀ id p, c.methodIds.find? id = some p → ∃ node, c.node? p = some node ∧
    named c p.name = some node ∧ node.method.id = id
  found : ∀ name node, named c name = some node →
    c.methodIds.find? node.method.id = some ⟨name, node.number⟩
  alike : ∀ id node, numbered c id = some node ↔
    ∃ name, named c name = some node ∧ node.method.id = id

/-- The tables are consistent in every state of a run. -/
def StaysConsistent (calls : List InstanceCall) : Prop :=
  Histories.Always apply Consistent connected calls

/-- A method is added under a new name and a free ID, or under a name and an ID that are both
taken; or a name that is not there is removed. -/
def Orderly (c : NymphServerInstance) : InstanceCall → Prop
  | .addMethod name _ => c.methods.find? name = none ↔ c.methodIds.find? c.nextMethodId = none
  | .removeMethod name => c.methods.find? name = none

variable {c : NymphServerInstance}

/-- Tables are consistent if they agree. -/
theorem consistent_iff_agrees : Consistent c ↔ c.Agrees := by
  constructor
  · intro h
    refine ⟨?_, h.found⟩
    intro id p hp
    obtain ⟨node, hnode, -, hid⟩ := h.refers id p hp
    exact ⟨node, hnode, hid⟩
  · intro h
    refine ⟨?_, h.found, ?_⟩
    · intro id p hp
      obtain ⟨node, hnode, hid⟩ := h.refers id p hp
      exact ⟨node, hnode, (MethodTable.node?_eq_some.mp hnode).1, hid⟩
    · intro id node
      rw [numbered, Option.bind_eq_some_iff]
      exact h.node?_iff

/-- In consistent tables a call by ID never reads a method that was removed. -/
theorem Consistent.callMethodId_ne_none (h : Consistent c) (handle : ℕ) (env : CallEnvironment)
    (j : ℕ) (memory : NymphRequest) (messages : OrderedMap.Map UInt64 ℕ) (id : UInt32)
    (values : List NymphType) (out : CallOut) :
    callMethodId c handle env j memory messages id values out ≠ none := by
  rw [callMethodId]
  cases hp : c.methodIds.find? id with
  | none => exact Option.some_ne_none _
  | some p =>
    obtain ⟨node, hnode, -⟩ := h.refers id p hp
    dsimp only
    rw [hnode]
    exact Option.some_ne_none _

/-- Removing a method of consistent tables leaves an ID that refers to nothing. -/
theorem Consistent.remove_iff (h : Consistent c) (name : Bytes) :
    Consistent (removeMethod c name) ↔ c.methods.find? name = none := by
  cases hname : c.methods.find? name with
  | none =>
    rw [removeMethod, hname]
    exact iff_of_true h rfl
  | some node =>
    rw [removeMethod, hname]
    refine iff_of_false ?_ (Option.some_ne_none node)
    intro hremoved
    obtain ⟨node', -, hnode', -⟩ := hremoved.refers _ _ (h.found name node hname)
    rw [named, OrderedMap.Map.find?_erase, if_pos rfl] at hnode'
    cases hnode'

/-- A call keeps consistent tables consistent exactly if it is orderly. -/
theorem Consistent.apply_iff (h : Consistent c) (call : InstanceCall) :
    Consistent (apply c call) ↔ Orderly c call := by
  cases call with
  | addMethod name method =>
    rw [consistent_iff_agrees]
    exact (consistent_iff_agrees.mp h).insert_iff name method
  | removeMethod name => exact h.remove_iff name

/-- The tables of a new server instance are consistent. -/
theorem consistent_connected : Consistent connected :=
  consistent_iff_agrees.mpr
    ((MethodTable.agrees_empty.insert_iff _ _).mpr ⟨fun _ => rfl, fun _ => rfl⟩)

/-- The tables of a server instance stay consistent exactly as long as the calls are orderly. -/
theorem staysConsistent_iff (calls : List InstanceCall) :
    StaysConsistent calls ↔ Histories.Throughout apply Orderly connected calls :=
  Histories.always_iff (fun _ call h => h.apply_iff call) consistent_connected calls

/-- A method that a table delivers for a name. -/
def deliveredMethod (name : Bytes) : NymphMethod := .make name [] .null dummyCallback

/-- A name that is added twice, or added and removed, makes the tables inconsistent. -/
theorem not_staysConsistent_again :
    ¬StaysConsistent [.addMethod [0x61] (deliveredMethod [0x61]),
      .addMethod [0x61] (deliveredMethod [0x61])] ∧
    ¬StaysConsistent [.addMethod [0x61] (deliveredMethod [0x61]), .removeMethod [0x61]] := by
  constructor
  · intro h
    obtain ⟨node, hnode, -, hid⟩ := (h _ List.prefix_rfl).refers 2 ⟨[0x61], 1⟩ rfl
    cases hnode
    cases hid
  · intro h
    obtain ⟨node, -, hnode, -⟩ := (h _ List.prefix_rfl).refers 1 ⟨[0x61], 1⟩ rfl
    cases hnode

end NymphServerInstance

end NymphRpc
