import Mathlib.Data.List.Nodup
import NymphRpc.Server.Agreement
import NymphRpc.Server.Dispatch

/-!
# Histories of a server's methods

Runs of `registerMethod` and `removeMethod` after `init`. The tables agree with each other as
long as a name is only registered when it is not there, under an ID that is free, and only
removed when it is there: the second registration of a name leaves an ID that its method does
not know of, and the removal of an absent name reads a node that does not exist.
-/

namespace NymphRpc

open LittleEndian

/-- A call of the application that changes the methods. -/
inductive RegistryCall
  | registerMethod (name : Bytes) (method : NymphMethod)
  | removeMethod (name : Bytes)

/-- The built-in callback is private, and no method of the application has it. -/
def RegistryCall.IsPublic : RegistryCall → Prop
  | .registerMethod _ method => method.callback ≠ .syncMethods
  | .removeMethod _ => True

namespace NymphRemoteClient

/-- Make a call. -/
def apply (s : NymphRemoteClient) : RegistryCall → Option NymphRemoteClient
  | .registerMethod name method => some (registerMethod s name method)
  | .removeMethod name => removeMethod s name

/-- Make calls in order, until one has no result. -/
def applyAll (s : NymphRemoteClient) : List RegistryCall → Option NymphRemoteClient
  | [] => some s
  | call :: calls => (apply s call).bind fun s' => applyAll s' calls

/-- The tables agree: an ID stands for a method that was given that ID, and a method is found
under its own ID. -/
structure Consistent (s : NymphRemoteClient) : Prop where
  refers : ∀ id p, s.methodIds.find? id = some p → ∃ node, s.node? p = some node ∧
    node.method.id = id ∧ node.method.serialized = node.method.serialize id
  found : ∀ name node, s.methods.find? name = some node →
    s.methodIds.find? node.method.id = some ⟨name, node.number⟩

/-- The table that `syncMethods` builds lists every registered method exactly once. -/
def ListsOnce (s : NymphRemoteClient) : Prop :=
  ∃ methods : List NymphMethod, methods.Perm (s.methods.entries.map fun e => e.2.method) ∧
    serializedMethods s = some (methodsSignature ++
      (toBytes 4 (UInt32.ofNat methods.length).toNat ++
        (methods.map NymphMethod.serialized).flatten))

/-- The call keeps the tables consistent, and changes nothing when it removes an absent name. -/
def KeepsConsistent (s : NymphRemoteClient) (call : RegistryCall) : Prop :=
  ∃ s', apply s call = some s' ∧ Consistent s' ∧ ListsOnce s' ∧
    ∀ name, call = .removeMethod name → s.methods.find? name = none → s' = s

/-- The registered name is new and the next ID free, or both are taken; a removed name is there. -/
def Orderly (s : NymphRemoteClient) : RegistryCall → Prop
  | .registerMethod name _ =>
    s.methods.find? name = none ↔ s.methodIds.find? s.nextMethodId = none
  | .removeMethod name => s.methods.find? name ≠ none

variable {s s' : NymphRemoteClient}

/-- Consistent tables have no pointer to nothing. -/
theorem Consistent.intact (h : Consistent s) : s.Intact := fun id p hp =>
  let ⟨node, hnode, _⟩ := h.refers id p hp
  ⟨node, hnode⟩

/-- The nodes that the pointers of a list point to, with their names. -/
def pointedTo (s : NymphRemoteClient) (l : List (UInt32 × NodePtr)) : List (Bytes × MethodNode) :=
  l.filterMap fun e => (s.node? e.2).map fun node => (e.2.name, node)

/-- The pointers of consistent tables point to every node, and to each once. -/
theorem Consistent.perm (h : Consistent s) :
    (pointedTo s s.methodIds.entries).Perm s.methods.entries := by
  have hids : (pointedTo s s.methodIds.entries).map (fun e => e.2.method.id) =
      s.methodIds.entries.map Prod.fst := by
    have hlist : ∀ l : List (UInt32 × NodePtr), (∀ e ∈ l, s.methodIds.find? e.1 = some e.2) →
        (pointedTo s l).map (fun e => e.2.method.id) = l.map Prod.fst := by
      intro l hl
      induction l with
      | nil => rfl
      | cons e l ih =>
        obtain ⟨node, hnode, hid, -⟩ := h.refers e.1 e.2 (hl e List.mem_cons_self)
        have hcons : pointedTo s (e :: l) = (e.2.name, node) :: pointedTo s l := by
          rw [pointedTo, List.filterMap_cons, hnode]
          rfl
        rw [hcons, List.map_cons, List.map_cons, ih fun e he => hl e (List.mem_cons_of_mem _ he),
          hid]
    exact hlist _ fun e he => OrderedMap.Map.mem_entries.mp he
  have hnodup : (pointedTo s s.methodIds.entries).Nodup :=
    List.Nodup.of_map _ (hids ▸ s.methodIds.sorted.nodup)
  apply (List.perm_ext_iff_of_nodup hnodup (List.Nodup.of_map _ s.methods.sorted.nodup)).mpr
  rintro ⟨name, node⟩
  rw [OrderedMap.Map.mem_entries, pointedTo, List.mem_filterMap]
  constructor
  · rintro ⟨e, -, he⟩
    obtain ⟨node', hnode', heq⟩ := Option.map_eq_some_iff.mp he
    cases heq
    exact (MethodTable.node?_eq_some.mp hnode').1
  · intro hfind
    refine ⟨(node.method.id, ⟨name, node.number⟩),
      OrderedMap.Map.mem_entries.mpr (h.found name node hfind), ?_⟩
    rw [MethodTable.node?_eq_some.mpr ⟨hfind, rfl⟩]
    rfl

/-- Consistent tables list every method once. -/
theorem Consistent.listsOnce (h : Consistent s) : ListsOnce s := by
  have hlisted : listed s s.methodIds.entries =
      (pointedTo s s.methodIds.entries).map fun e => e.2.method := by
    rw [listed, pointedTo, List.map_filterMap]
    simp only [Option.map_map]
    rfl
  exact ⟨_, hlisted ▸ h.perm.map _, (serializedMethods_eq h.intact).1⟩

/-- Every method is serialised under its own ID. -/
def Serialised (s : NymphRemoteClient) : Prop :=
  ∀ name node, s.methods.find? name = some node →
    node.method.serialized = node.method.serialize node.method.id

/-- Tables are consistent if they agree and their methods are serialised. -/
theorem consistent_iff : Consistent s ↔ s.Agrees ∧ Serialised s := by
  constructor
  · intro h
    refine ⟨⟨?_, h.found⟩, ?_⟩
    · intro id p hp
      obtain ⟨node, hnode, hid, -⟩ := h.refers id p hp
      exact ⟨node, hnode, hid⟩
    · intro name node hname
      obtain ⟨node', hnode', -, hserialized⟩ := h.refers _ _ (h.found name node hname)
      cases hname.symm.trans (MethodTable.node?_eq_some.mp hnode').1
      exact hserialized
  · rintro ⟨hagrees, hserialised⟩
    refine ⟨?_, hagrees.found⟩
    intro id p hp
    obtain ⟨node, hnode, rfl⟩ := hagrees.refers id p hp
    exact ⟨node, hnode, rfl, hserialised p.name node (MethodTable.node?_eq_some.mp hnode).1⟩

/-- A method that is registered is serialised. -/
theorem Serialised.registerMethod (h : Serialised s) (name : Bytes) (method : NymphMethod) :
    Serialised (registerMethod s name method) := by
  intro name' node hfind
  rw [NymphRemoteClient.registerMethod, MethodTable.find?_insert] at hfind
  split_ifs at hfind with heq
  · cases hfind
    rcases MethodTable.inserted_cases s name method with hold | ⟨-, hnew⟩
    · exact h name _ hold
    · rw [hnew]
      rfl
  · exact h name' node hfind

/-- A registration keeps the tables consistent exactly if it is of a new name under a free ID, or
changes nothing. -/
theorem Consistent.register_iff (h : Consistent s) (name : Bytes) (method : NymphMethod) :
    Consistent (registerMethod s name method) ↔ Orderly s (.registerMethod name method) := by
  obtain ⟨hagrees, hserialised⟩ := consistent_iff.mp h
  rw [consistent_iff, and_iff_left (hserialised.registerMethod name method)]
  exact hagrees.insert_iff name method

/-- Removing a method that is there keeps the tables consistent. -/
theorem Consistent.remove (h : Consistent s) {name : Bytes}
    (hs' : removeMethod s name = some s') : Consistent s' := by
  obtain ⟨hagrees, hserialised⟩ := consistent_iff.mp h
  refine consistent_iff.mpr ⟨hagrees.removeMethod hs', ?_⟩
  obtain ⟨node, -, rfl⟩ := Option.map_eq_some_iff.mp hs'
  intro name' node' hfind
  rw [OrderedMap.Map.find?_erase] at hfind
  split_ifs at hfind
  exact hserialised name' node' hfind

/-- The tables of a new server are consistent. -/
theorem consistent_init : Consistent init := by
  have hempty : Consistent .empty :=
    consistent_iff.mpr ⟨MethodTable.agrees_empty, fun _ _ h => by cases h⟩
  exact (hempty.register_iff _ _).mpr ⟨fun _ => rfl, fun _ => rfl⟩

/-- A call keeps consistent tables consistent exactly if it is orderly. -/
theorem keepsConsistent_iff (h : Consistent s) (call : RegistryCall) :
    KeepsConsistent s call ↔ Orderly s call := by
  constructor
  · rintro ⟨s', happly, hs', -, -⟩
    cases call with
    | registerMethod name method =>
      cases happly
      exact (h.register_iff name method).mp hs'
    | removeMethod name =>
      intro hnone
      rw [apply, removeMethod, hnone] at happly
      cases happly
  · intro horderly
    have hkept : ∃ s', apply s call = some s' ∧ Consistent s' := by
      cases call with
      | registerMethod name method =>
        exact ⟨_, rfl, (h.register_iff name method).mpr horderly⟩
      | removeMethod name =>
        obtain ⟨node, hname⟩ := Option.ne_none_iff_exists'.mp horderly
        obtain ⟨s', hs'⟩ : ∃ s', removeMethod s name = some s' := by
          rw [removeMethod, hname]
          exact ⟨_, rfl⟩
        exact ⟨s', hs', h.remove hs'⟩
    obtain ⟨s', happly, hs'⟩ := hkept
    refine ⟨s', happly, hs', hs'.listsOnce, ?_⟩
    rintro name rfl hnone
    exact absurd hnone horderly

/-- Every call of a run has the property, in the state it is made in. -/
def Throughout (P : NymphRemoteClient → RegistryCall → Prop) :
    NymphRemoteClient → List RegistryCall → Prop
  | _, [] => True
  | s, call :: calls => P s call ∧ ∀ s', apply s call = some s' → Throughout P s' calls

/-- The tables of a server are consistent from `init` on, and each method is listed once, exactly
as long as the calls are orderly. -/
theorem consistent_iff_orderly (calls : List RegistryCall) :
    (Consistent init ∧ ListsOnce init ∧ Throughout KeepsConsistent init calls) ↔
      Throughout Orderly init calls := by
  have hrun : ∀ (calls : List RegistryCall) (s : NymphRemoteClient), Consistent s →
      (Throughout KeepsConsistent s calls ↔ Throughout Orderly s calls) := by
    intro calls
    induction calls with
    | nil => exact fun _ _ => Iff.rfl
    | cons call calls ih =>
      intro s hs
      rw [Throughout, Throughout, keepsConsistent_iff hs]
      refine and_congr_right fun horderly => forall_congr' fun s' =>
        imp_congr_right fun happly => ?_
      obtain ⟨s'', happly', hs'', -⟩ := (keepsConsistent_iff hs call).mpr horderly
      cases happly.symm.trans happly'
      exact ih s' hs''
  rw [← hrun calls init consistent_init]
  exact ⟨fun h => h.2.2, fun h => ⟨consistent_init, consistent_init.listsOnce, h⟩⟩

/-- A method of the application that never answers. -/
def silentMethod (name : Bytes) : NymphMethod :=
  .make name [] .null (.application fun _ _ _ => none)

/-- Registering a name twice makes the tables inconsistent. -/
theorem not_consistent_registered_twice : ¬(Consistent init ∧ ListsOnce init ∧
    Throughout KeepsConsistent init
      [.registerMethod [0x61] (silentMethod [0x61]),
        .registerMethod [0x61] (silentMethod [0x61])]) := by
  rintro ⟨-, -, -, hrun⟩
  obtain ⟨⟨s', happly, hs', -⟩, -⟩ := hrun _ rfl
  cases happly
  obtain ⟨node, hnode, hid, -⟩ := hs'.refers 2 ⟨[0x61], 1⟩ rfl
  cases hnode
  cases hid

end NymphRemoteClient

end NymphRpc
