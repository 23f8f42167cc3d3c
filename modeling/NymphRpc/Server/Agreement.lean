import NymphRpc.Server.MethodTable

/-!
# Tables that agree with each other

The table of IDs points into the table of names. The two agree if an ID stands for a method that
was given that ID, and a method is found under its own ID. An insertion keeps the agreement
exactly if the name is new and the next ID is free, or if both are taken and nothing changes.
-/

namespace NymphRpc

namespace MethodTable

/-- An ID stands for a method that was given that ID, and a method is found under its own ID. -/
structure Agrees (s : MethodTable) : Prop where
  refers : ∀ id p, s.methodIds.find? id = some p → ∃ node, s.node? p = some node ∧
    node.method.id = id
  found : ∀ name node, s.methods.find? name = some node →
    s.methodIds.find? node.method.id = some ⟨name, node.number⟩

/-- The name is new and the next ID is free, or both are taken. -/
def Fresh (s : MethodTable) (name : Bytes) : Prop :=
  s.methods.find? name = none ↔ s.methodIds.find? s.nextMethodId = none

variable {s : MethodTable}

/-- A new name gets a new node, with the next ID. -/
theorem inserted_of_none {name : Bytes} (method : NymphMethod)
    (hname : s.methods.find? name = none) :
    s.inserted name method = ⟨s.allocated, method.setId s.nextMethodId⟩ := by
  rw [inserted, hname]
  rfl

/-- A name that is there keeps its node. -/
theorem inserted_of_some {name : Bytes} {node : MethodNode} (method : NymphMethod)
    (hname : s.methods.find? name = some node) : s.inserted name method = node := by
  rw [inserted, hname]
  rfl

/-- A free ID is attached to the node that the insertion came back with. -/
theorem find?_methodIds_insert (s : MethodTable) (name : Bytes) (method : NymphMethod)
    (id : UInt32) : (s.insert name method).methodIds.find? id =
      if s.nextMethodId = id then
        (s.methodIds.find? id).or (some ⟨name, (s.inserted name method).number⟩)
      else s.methodIds.find? id :=
  OrderedMap.Map.find?_insert _ _ _ _

/-- Tables without a method agree. -/
theorem agrees_empty : Agrees empty where
  refers := fun _ _ h => by cases h
  found := fun _ _ h => by cases h

/-- In tables that agree, an ID stands for a method if and only if the method is found under a
name and has the ID. -/
theorem Agrees.node?_iff (h : Agrees s) {id : UInt32} {node : MethodNode} :
    (∃ p, s.methodIds.find? id = some p ∧ s.node? p = some node) ↔
      ∃ name, s.methods.find? name = some node ∧ node.method.id = id := by
  constructor
  · rintro ⟨p, hp, hnode⟩
    obtain ⟨node', hnode', hid⟩ := h.refers id p hp
    cases hnode.symm.trans hnode'
    exact ⟨p.name, (node?_eq_some.mp hnode).1, hid⟩
  · rintro ⟨name, hname, rfl⟩
    exact ⟨_, h.found name node hname, node?_eq_some.mpr ⟨hname, rfl⟩⟩

/-- Inserting a new name under a free ID keeps the tables in agreement. -/
theorem Agrees.insert_new (h : Agrees s) {name : Bytes} (method : NymphMethod)
    (hname : s.methods.find? name = none) (hid : s.methodIds.find? s.nextMethodId = none) :
    Agrees (s.insert name method) := by
  have hnode := inserted_of_none method hname
  constructor
  · intro id p hp
    rw [find?_methodIds_insert, hnode] at hp
    split_ifs at hp with heq
    · rw [← heq, hid, Option.none_or] at hp
      cases hp
      have hnew := s.node?_inserted name method
      rw [hnode] at hnew
      exact ⟨_, hnew, heq⟩
    · obtain ⟨node, hold, hown⟩ := h.refers id p hp
      exact ⟨node, node?_insert hold name method, hown⟩
  · intro name' node hfind
    rw [find?_insert] at hfind
    split_ifs at hfind with heq
    · subst heq
      rw [hnode] at hfind
      cases hfind
      have hnext : (method.setId s.nextMethodId).id = s.nextMethodId := rfl
      rw [find?_methodIds_insert, hnode, hnext, if_pos rfl, hid]
      rfl
    · have hold := h.found name' node hfind
      rw [find?_methodIds_insert, if_neg, hold]
      intro hsame
      rw [← hsame, hid] at hold
      cases hold

/-- Inserting a name that is there under an ID that is taken changes neither table. -/
theorem Agrees.insert_taken (h : Agrees s) {name : Bytes} {node : MethodNode} {p : NodePtr}
    (method : NymphMethod) (hname : s.methods.find? name = some node)
    (hid : s.methodIds.find? s.nextMethodId = some p) : Agrees (s.insert name method) := by
  have hids : ∀ id, (s.insert name method).methodIds.find? id = s.methodIds.find? id := by
    intro id
    rw [find?_methodIds_insert]
    split_ifs with heq
    · rw [← heq, hid]
      rfl
    · rfl
  constructor
  · intro id p' hp
    rw [hids] at hp
    obtain ⟨node', hold, hown⟩ := h.refers id p' hp
    exact ⟨node', node?_insert hold name method, hown⟩
  · intro name' node' hfind
    rw [hids]
    rw [find?_insert, inserted_of_some method hname] at hfind
    split_ifs at hfind with heq
    · subst heq
      cases hfind
      exact h.found name node hname
    · exact h.found name' node' hfind

/-- An insertion that keeps the agreement inserts a new name under a free ID, or changes
nothing. -/
theorem Agrees.fresh (h : Agrees s) {name : Bytes} {method : NymphMethod}
    (hs' : Agrees (s.insert name method)) : Fresh s name := by
  have hids := s.find?_methodIds_insert name method s.nextMethodId
  rw [if_pos rfl] at hids
  constructor
  · intro hname
    by_contra hid
    obtain ⟨p, hp⟩ := Option.ne_none_iff_exists'.mp hid
    have hnode := inserted_of_none method hname
    have hfound : (s.insert name method).methodIds.find? s.nextMethodId =
        some ⟨name, s.allocated⟩ :=
      hs'.found name ⟨s.allocated, method.setId s.nextMethodId⟩
        ((find?_insert s name name method).trans (by rw [if_pos rfl, hnode]))
    rw [hids, hp, Option.some_or] at hfound
    cases hfound
    obtain ⟨node, hpointed, -⟩ := h.refers _ _ hp
    cases hname.symm.trans (node?_eq_some.mp hpointed).1
  · intro hid
    by_contra hname
    obtain ⟨node, hnode⟩ := Option.ne_none_iff_exists'.mp hname
    rw [hid, Option.none_or] at hids
    obtain ⟨node', hpointed, hown⟩ := hs'.refers _ _ hids
    cases (s.node?_inserted name method).symm.trans hpointed
    have hfound := h.found name node hnode
    rw [← inserted_of_some method hnode, hown, hid] at hfound
    cases hfound

/-- An insertion keeps tables in agreement exactly if the name is new and the next ID free, or
both are taken. -/
theorem Agrees.insert_iff (h : Agrees s) (name : Bytes) (method : NymphMethod) :
    Agrees (s.insert name method) ↔ Fresh s name := by
  constructor
  · exact h.fresh
  · intro hfresh
    cases hname : s.methods.find? name with
    | none => exact h.insert_new method hname (hfresh.mp hname)
    | some node =>
      cases hid : s.methodIds.find? s.nextMethodId with
      | none => cases (hfresh.mpr hid).symm.trans hname
      | some p => exact h.insert_taken method hname hid

/-- Removing a method of a server that is there keeps its tables in agreement. -/
theorem Agrees.removeMethod {s s' : NymphRemoteClient} (h : Agrees s) {name : Bytes}
    (hs' : NymphRemoteClient.removeMethod s name = some s') : Agrees s' := by
  have hnodes := NymphRemoteClient.node?_removeMethod hs'
  obtain ⟨node, hname, rfl⟩ := Option.map_eq_some_iff.mp hs'
  constructor
  · intro id p hp
    rw [OrderedMap.Map.find?_erase] at hp
    split_ifs at hp with hid
    obtain ⟨node', hnode', hid'⟩ := h.refers id p hp
    refine ⟨node', ?_, hid'⟩
    rw [hnodes, if_neg, hnode']
    rintro rfl
    cases (node?_eq_some.mp hnode').1.symm.trans hname
    exact hid hid'.symm
  · intro name' node' hfind
    rw [OrderedMap.Map.find?_erase] at hfind
    split_ifs at hfind with heq
    have hold := h.found name' node' hfind
    rw [OrderedMap.Map.find?_erase, if_neg, hold]
    intro hsame
    have hfound := h.found name node hname
    rw [← hsame, hold] at hfound
    exact heq (congrArg NodePtr.name (Option.some.inj hfound))

end MethodTable

end NymphRpc
