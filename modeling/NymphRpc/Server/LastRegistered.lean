import Mathlib.Logic.Function.Basic
import NymphRpc.Server.Registry

/-!
# The methods that were registered last

`registerMethod` always returns `true`. A call under the ID of the last registration of a name
reaches the method of that registration as long as no name is registered while it has a method,
none is removed while it has none, and the IDs do not wrap around: an insertion keeps the older
method of the name, and the removal leaves the newer ID behind.
-/

namespace NymphRpc

/-- What was registered last under each name: the ID that it was given, and the method unless it
was removed since. -/
structure Registrations where
  next : UInt32
  last : Bytes → Option (UInt32 × Option NymphMethod)

namespace Registrations

/-- Take note of a call. -/
def note (g : Registrations) : RegistryCall → Registrations
  | .registerMethod name method =>
    ⟨g.next + 1, Function.update g.last name (some (g.next, some method))⟩
  | .removeMethod name =>
    { g with last := Function.update g.last name ((g.last name).map fun e => (e.1, none)) }

/-- `init` registers the built-in method. -/
def atInit : Registrations :=
  note ⟨0, fun _ => none⟩ (.registerMethod nymphsync NymphRemoteClient.syncFunction)

/-- What was registered last after a registration. -/
theorem last_registerMethod (g : Registrations) (name name' : Bytes)
    (method : NymphMethod) : (g.note (.registerMethod name method)).last name' =
      if name' = name then some (g.next, some method) else g.last name' :=
  Function.update_apply _ _ _ _

/-- What was registered last after a removal. -/
theorem last_removeMethod (g : Registrations) (name name' : Bytes) :
    (g.note (.removeMethod name)).last name' =
      if name' = name then (g.last name).map fun e => (e.1, none) else g.last name' :=
  Function.update_apply _ _ _ _

/-- A name keeps the ID of its last registration when a name is removed. -/
theorem given_removeMethod {g : Registrations} {name name' : Bytes}
    {e : UInt32 × Option NymphMethod} (he : (g.note (.removeMethod name)).last name' = some e) :
    ∃ e', g.last name' = some e' ∧ e'.1 = e.1 := by
  rw [g.last_removeMethod] at he
  split_ifs at he with h'
  · obtain ⟨e', he', rfl⟩ := Option.map_eq_some_iff.mp he
    exact ⟨e', h' ▸ he', rfl⟩
  · exact ⟨e, he, rfl⟩

end Registrations

namespace NymphRemoteClient

/-- A call under the ID of the last registration of a name is a call of the method that was
registered, and finds nothing once that was removed. -/
structure InEffect (s : NymphRemoteClient) (g : Registrations) : Prop where
  registered : ∀ name id method, g.last name = some (id, some method) →
    s.methodOf id = some (method.setId id) ∧ ∀ um call handle msg,
      callMethodCallback s um call handle id msg =
        method.callCallback (callback s um call handle msg)
  removed : ∀ name id, g.last name = some (id, none) → ∀ um call handle msg,
    callMethodCallback s um call handle id msg = .ok none

/-- The registrations take effect in every state of a run after `init`. -/
def TakeEffect (calls : List RegistryCall) : Prop :=
  ∀ pre, pre <+: calls →
    ∃ s, applyAll init pre = some s ∧ InEffect s (pre.foldl Registrations.note .atInit)

/-- A name is registered while it has no method, and removed while it has one. -/
def Sparing (s : NymphRemoteClient) : RegistryCall → Prop
  | .registerMethod name _ => s.methods.find? name = none
  | .removeMethod name => s.methods.find? name ≠ none

/-- The number of registrations. -/
def registrations : List RegistryCall → ℕ
  | [] => 0
  | .registerMethod _ _ :: calls => registrations calls + 1
  | .removeMethod _ :: calls => registrations calls

/-- The tables after `k` registrations, as they were last made. -/
structure Follows (s : NymphRemoteClient) (g : Registrations) (k : ℕ) : Prop where
  agrees : s.Agrees
  next : s.nextMethodId = .ofNat k
  sameNext : g.next = s.nextMethodId
  taken : ∀ id p, s.methodIds.find? id = some p → id.toNat < k
  given : ∀ name e, g.last name = some e → e.1.toNat < k
  distinct : ∀ name name' e e', g.last name = some e → g.last name' = some e' → e.1 = e'.1 →
    name = name'
  never : ∀ name, g.last name = none → s.methods.find? name = none
  present : ∀ name id method, g.last name = some (id, some method) →
    ∃ node, s.methods.find? name = some node ∧ node.method = method.setId id
  gone : ∀ name id, g.last name = some (id, none) →
    s.methods.find? name = none ∧ s.methodIds.find? id = none

variable {s s' : NymphRemoteClient} {g : Registrations} {k : ℕ}

/-- A method that was given an ID is called like the method itself. -/
theorem callCallback_setId (m : NymphMethod) (id : UInt32)
    (callback : NymphMethodCallback → Except CallFault NymphMessage) :
    (m.setId id).callCallback callback = m.callCallback callback := rfl

/-- Such tables have the last registrations in effect. -/
theorem Follows.inEffect (h : Follows s g k) : InEffect s g := by
  constructor
  · intro name id method hlast
    obtain ⟨node, hnode, hmethod⟩ := h.present name id method hlast
    have hid : node.method.id = id := congrArg NymphMethod.id hmethod
    have hfound := h.agrees.found name node hnode
    have hof : s.methodOf id = some (method.setId id) := by
      rw [hid] at hfound
      rw [methodOf, hfound, Option.bind_some, MethodTable.node?_eq_some.mpr ⟨hnode, rfl⟩,
        Option.map_some, hmethod]
    refine ⟨hof, ?_⟩
    intro um call handle msg
    rw [callMethodCallback_of_methodOf hof, callCallback_setId]
  · intro name id hlast um call handle msg
    rw [callMethodCallback, (h.gone name id hlast).2]

/-- Tables without a method, before the first registration. -/
theorem follows_empty : Follows .empty ⟨0, fun _ => none⟩ 0 where
  agrees := MethodTable.agrees_empty
  next := rfl
  sameNext := rfl
  taken := fun _ _ h => by cases h
  given := fun _ _ h => by cases h
  distinct := fun _ _ _ _ h => by cases h
  never := fun _ _ => rfl
  present := fun _ _ _ h => by cases h
  gone := fun _ _ h => by cases h

/-- The next ID counts the registrations, as long as it does not wrap around. -/
theorem Follows.toNat_next (h : Follows s g k) (hk : k < 2 ^ 32) : s.nextMethodId.toNat = k := by
  rw [h.next, UInt32.toNat_ofNat']
  omega

/-- The next ID is free. -/
theorem Follows.find?_next (h : Follows s g k) (hk : k < 2 ^ 32) :
    s.methodIds.find? s.nextMethodId = none := by
  by_contra htaken
  obtain ⟨p, hp⟩ := Option.ne_none_iff_exists'.mp htaken
  exact absurd (h.toNat_next hk) (h.taken _ p hp).ne

/-- Registering a name that has no method. -/
theorem Follows.registerMethod (h : Follows s g k) (hk : k < 2 ^ 32) {name : Bytes}
    (method : NymphMethod) (hname : s.methods.find? name = none) :
    Follows (registerMethod s name method) (g.note (.registerMethod name method)) (k + 1) where
  agrees := h.agrees.insert_new method hname (h.find?_next hk)
  next := by
    change s.nextMethodId + 1 = _
    rw [h.next, UInt32.ofNat_add]
    rfl
  sameNext := congrArg (· + 1) h.sameNext
  taken id p hp := by
    rw [NymphRemoteClient.registerMethod, MethodTable.find?_methodIds_insert] at hp
    split_ifs at hp with heq
    · rw [← heq, h.toNat_next hk]
      exact k.lt_succ_self
    · exact (h.taken id p hp).trans k.lt_succ_self
  given name' e he := by
    rw [g.last_registerMethod, h.sameNext] at he
    split_ifs at he
    · cases he
      exact (h.toNat_next hk).trans_lt k.lt_succ_self
    · exact (h.given name' e he).trans k.lt_succ_self
  distinct name' name'' e e' he he' hsame := by
    have hold : ∀ name e, g.last name = some e → e.1 ≠ s.nextMethodId := by
      intro name e he heq
      have hlt := h.given name e he
      rw [heq] at hlt
      exact absurd (h.toNat_next hk) hlt.ne
    rw [g.last_registerMethod, h.sameNext] at he he'
    split_ifs at he he' with h' h''
    · exact h'.trans h''.symm
    · cases he
      exact absurd hsame.symm (hold name'' e' he')
    · cases he'
      exact absurd hsame (hold name' e he)
    · exact h.distinct name' name'' e e' he he' hsame
  never name' hnone := by
    rw [g.last_registerMethod] at hnone
    split_ifs at hnone with h'
    rw [NymphRemoteClient.registerMethod, MethodTable.find?_insert, if_neg fun heq => h' heq.symm]
    exact h.never name' hnone
  present name' id method' he := by
    rw [g.last_registerMethod, h.sameNext] at he
    rw [NymphRemoteClient.registerMethod, MethodTable.find?_insert]
    split_ifs at he with h'
    · cases he
      rw [if_pos h'.symm, MethodTable.inserted_of_none method hname]
      exact ⟨_, rfl, rfl⟩
    · rw [if_neg fun heq => h' heq.symm]
      exact h.present name' id method' he
  gone name' id he := by
    rw [g.last_registerMethod] at he
    split_ifs at he with h'
    · cases he
    · obtain ⟨hgone, hids⟩ := h.gone name' id he
      have hlt : id.toNat < k := h.given name' _ he
      have hnat := h.toNat_next hk
      rw [NymphRemoteClient.registerMethod, MethodTable.find?_insert,
        MethodTable.find?_methodIds_insert, if_neg fun heq => h' heq.symm, if_neg]
      · exact ⟨hgone, hids⟩
      · rintro rfl
        omega

/-- The last call on a name that has a method registered it. -/
theorem Follows.last_eq (h : Follows s g k) {name : Bytes} {node : MethodNode}
    (hname : s.methods.find? name = some node) :
    ∃ method, g.last name = some (node.method.id, some method) := by
  rcases hlast : g.last name with - | ⟨id, - | method⟩
  · cases (h.never name hlast).symm.trans hname
  · cases (h.gone name id hlast).1.symm.trans hname
  · obtain ⟨node', hnode', hmethod⟩ := h.present name id method hlast
    cases hname.symm.trans hnode'
    rw [hmethod]
    exact ⟨method, rfl⟩

/-- Removing a name that has a method. -/
theorem Follows.removeMethod (h : Follows s g k) {name : Bytes}
    (hs' : removeMethod s name = some s') : Follows s' (g.note (.removeMethod name)) k := by
  have hagrees := h.agrees.removeMethod hs'
  obtain ⟨node, hname, rfl⟩ := Option.map_eq_some_iff.mp hs'
  obtain ⟨method, hown⟩ := h.last_eq hname
  exact {
    agrees := hagrees
    next := h.next
    sameNext := h.sameNext
    taken := by
      intro id p hp
      rw [OrderedMap.Map.find?_erase] at hp
      split_ifs at hp
      exact h.taken id p hp
    given := by
      intro name' e he
      obtain ⟨e', he', hsame⟩ := Registrations.given_removeMethod he
      rw [← hsame]
      exact h.given name' e' he'
    distinct := by
      intro name' name'' e e' he he' hsame
      obtain ⟨f, hf, hfe⟩ := Registrations.given_removeMethod he
      obtain ⟨f', hf', hfe'⟩ := Registrations.given_removeMethod he'
      exact h.distinct name' name'' f f' hf hf' (hfe.trans (hsame.trans hfe'.symm))
    never := by
      intro name' hnone
      rw [g.last_removeMethod, hown, Option.map_some] at hnone
      split_ifs at hnone with h'
      rw [OrderedMap.Map.find?_erase, if_neg h']
      exact h.never name' hnone
    present := by
      intro name' id method' he
      rw [g.last_removeMethod, hown, Option.map_some] at he
      split_ifs at he with h'
      · cases he
      · rw [OrderedMap.Map.find?_erase, if_neg h']
        exact h.present name' id method' he
    gone := by
      intro name' id he
      rw [g.last_removeMethod, hown, Option.map_some] at he
      rw [OrderedMap.Map.find?_erase, OrderedMap.Map.find?_erase]
      split_ifs at he with h'
      · cases he
        rw [if_pos h', if_pos rfl]
        exact ⟨rfl, rfl⟩
      · obtain ⟨hgone, hids⟩ := h.gone name' id he
        rw [if_neg h', hids]
        exact ⟨hgone, ite_self _⟩ }

/-- A call that takes effect registers a name that has no method, or removes one that has. -/
theorem Follows.sparing (h : Follows s g k) {call : RegistryCall}
    (hk : ∀ name method, call = .registerMethod name method → k < 2 ^ 32)
    (heffect : ∃ s', apply s call = some s' ∧ InEffect s' (g.note call)) : Sparing s call := by
  obtain ⟨s', happly, heffect⟩ := heffect
  cases call with
  | registerMethod name method =>
    cases happly
    by_contra hname
    obtain ⟨node, hnode⟩ := Option.ne_none_iff_exists'.mp hname
    have hfree := h.find?_next (hk name method rfl)
    have hnext : (NymphRemoteClient.registerMethod s name method).methodIds.find? s.nextMethodId =
        some ⟨name, (s.inserted name method).number⟩ := by
      rw [NymphRemoteClient.registerMethod, MethodTable.find?_methodIds_insert, if_pos rfl, hfree]
      rfl
    have hlast : (g.note (.registerMethod name method)).last name =
        some (s.nextMethodId, some method) := by
      rw [g.last_registerMethod, if_pos rfl, h.sameNext]
    have hof := (heffect.registered name s.nextMethodId method hlast).1
    rw [methodOf, hnext, Option.bind_some, NymphRemoteClient.registerMethod, s.node?_inserted,
      MethodTable.inserted_of_some method hnode, Option.map_some] at hof
    -- the older method has an ID of its own
    have hid : node.method.id = s.nextMethodId :=
      congrArg NymphMethod.id (Option.some.inj hof)
    have hfound := h.agrees.found name node hnode
    rw [hid, hfree] at hfound
    cases hfound
  | removeMethod name =>
    intro hnone
    rw [apply, NymphRemoteClient.removeMethod, hnone] at happly
    cases happly

/-- A registration that is counted leaves room for its ID. -/
theorem lt_of_registrations {call : RegistryCall} {calls : List RegistryCall}
    (hcount : k + registrations (call :: calls) ≤ 2 ^ 32) (name : Bytes) (method : NymphMethod)
    (hcall : call = .registerMethod name method) : k < 2 ^ 32 := by
  rw [hcall, registrations] at hcount
  omega

/-- A call that is sparing leads to tables of the same kind. -/
theorem Follows.step (h : Follows s g k) {call : RegistryCall} {calls : List RegistryCall}
    (hcount : k + registrations (call :: calls) ≤ 2 ^ 32) (hsparing : Sparing s call) :
    ∃ s' k', apply s call = some s' ∧ Follows s' (g.note call) k' ∧
      k' + registrations calls ≤ 2 ^ 32 := by
  cases call with
  | registerMethod name method =>
    have hk := lt_of_registrations hcount name method rfl
    rw [registrations] at hcount
    exact ⟨_, k + 1, rfl, h.registerMethod hk method hsparing, by omega⟩
  | removeMethod name =>
    obtain ⟨node, hnode⟩ := Option.ne_none_iff_exists'.mp hsparing
    obtain ⟨s', hs'⟩ : ∃ s', NymphRemoteClient.removeMethod s name = some s' := by
      rw [NymphRemoteClient.removeMethod, hnode]
      exact ⟨_, rfl⟩
    exact ⟨s', k, hs', h.removeMethod hs', hcount⟩

/-- From such tables on, the registrations take effect exactly as long as the calls are sparing. -/
theorem Follows.run_iff (h : Follows s g k) {calls : List RegistryCall}
    (hcount : k + registrations calls ≤ 2 ^ 32) :
    (∀ pre, pre <+: calls →
      ∃ s', applyAll s pre = some s' ∧ InEffect s' (pre.foldl Registrations.note g)) ↔
    Throughout Sparing s calls := by
  induction calls generalizing s g k with
  | nil =>
    refine iff_of_true ?_ trivial
    intro pre hpre
    rw [List.prefix_nil.mp hpre]
    exact ⟨s, rfl, h.inEffect⟩
  | cons call calls ih =>
    rw [Throughout]
    constructor
    · intro hall
      have hfirst : ∃ s', apply s call = some s' ∧ InEffect s' (g.note call) := by
        obtain ⟨s', hs', heffect⟩ := hall [call] ⟨calls, rfl⟩
        rw [applyAll, Option.bind_eq_some_iff] at hs'
        obtain ⟨s'', happly, hs''⟩ := hs'
        cases hs''
        exact ⟨s', happly, heffect⟩
      have hsparing := h.sparing (lt_of_registrations hcount) hfirst
      refine ⟨hsparing, ?_⟩
      intro s' happly
      obtain ⟨s'', k', happly', hfollows, hcount'⟩ := h.step hcount hsparing
      cases happly.symm.trans happly'
      refine (ih hfollows hcount').mp ?_
      intro pre hpre
      obtain ⟨s'', hs'', heffect⟩ := hall (call :: pre) (List.cons_prefix_cons.mpr ⟨rfl, hpre⟩)
      rw [applyAll, happly, Option.bind_some] at hs''
      exact ⟨s'', hs'', heffect⟩
    · rintro ⟨hsparing, hrest⟩ pre hpre
      obtain ⟨s', k', happly, hfollows, hcount'⟩ := h.step hcount hsparing
      cases pre with
      | nil => exact ⟨s, rfl, h.inEffect⟩
      | cons call' pre =>
        obtain ⟨rfl, hshorter⟩ := List.cons_prefix_cons.mp hpre
        obtain ⟨s'', hs'', heffect⟩ := (ih hfollows hcount').mpr (hrest s' happly) pre hshorter
        refine ⟨s'', ?_, heffect⟩
        rw [applyAll, happly, Option.bind_some, hs'']

/-- Unless the IDs wrap around, the registrations of a run take effect exactly as long as names
are registered and removed in turns. -/
theorem takeEffect_iff {calls : List RegistryCall} (hcount : registrations calls + 1 ≤ 2 ^ 32) :
    TakeEffect calls ↔ Throughout Sparing init calls := by
  have hinit : Follows init .atInit 1 := follows_empty.registerMethod (by omega) _ rfl
  exact hinit.run_iff (by omega)

end NymphRemoteClient

end NymphRpc
