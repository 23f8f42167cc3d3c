import NymphRpc.Client.MethodIds

/-!
# Clients that stay in step

Which calls of `registerMethod` and `removeMethod` leave a server whose clients put the right ID
in their requests. A new name has to come with the ID that the clients will count to, so nothing
new can be registered once an ID is missing, and a method can only be removed when no later ID
introduces a name. A server without its built-in method cannot be synchronised with at all.
-/

namespace NymphRpc

open LittleEndian NymphRemoteClient NymphServerInstance

namespace NymphRemoteClient

/-- The IDs of a list with the methods they point to. -/
def entriesOf (s : NymphRemoteClient) (l : List (UInt32 × NodePtr)) : List (UInt32 × NymphMethod) :=
  l.filterMap fun e => (s.node? e.2).map fun node => (e.1, node.method)

/-- The IDs with the methods that a client adds, which skips those with the own ID 0. -/
def callable (s : NymphRemoteClient) : List (UInt32 × NymphMethod) :=
  (entriesOf s s.methodIds.entries).filter fun e => e.2.id ≠ 0

/-- A client that connects synchronises with the table of the built-in method. -/
def Synchronised (s : NymphRemoteClient) (c : NymphServerInstance) : Prop :=
  (∃ m, s.methodOf 0 = some m ∧ m.callback = .syncMethods) ∧
    ∃ table, serializedMethods s = some table ∧ sync connected table = .ok c

/-- What a client calls by a name is what the server has under that name. -/
def CallsReach (s : NymphRemoteClient) (c : NymphServerInstance) : Prop :=
  ∀ name called, name ≠ nymphsync → c.methods.find? name = some called →
    ∃ node, s.methods.find? name = some node ∧
      s.methodIds.find? called.method.id = some ⟨name, node.number⟩ ∧
      ∀ um call handle msg, callMethodCallback s um call handle called.method.id msg =
        node.method.callCallback (callback s um call handle msg)

/-- The built-in method is no longer there. -/
def SyncRemoved (s : NymphRemoteClient) : Prop :=
  ∀ name node, s.methods.find? name = some node → node.method.callback ≠ .syncMethods

/-- The call leaves the clients in step. A registration may repeat the built-in method or a name
that the clients know already; otherwise it comes with a new name that is the method's own, has
at most 255 characters and is given the ID the clients will count to. A method that is removed
has no second ID, and every ID behind its own repeats a name from before. -/
def InStep (s : NymphRemoteClient) : RegistryCall → Prop
  | .registerMethod name method =>
    s.nextMethodId ≠ 0 ∧ ((s.inserted name method).method.id = 0 ∨
      (s.inserted name method).method.name ∈ names (callable s) ∨
      s.methods.find? name = none ∧ method.name = name ∧ name.length ≤ 255 ∧
        (callable s).length + 1 = s.nextMethodId.toNat)
  | .removeMethod name =>
    OnlyId s name ∧ ∃ node, s.methods.find? name = some node ∧
      ∀ pre post, callable s = pre ++ (node.method.id, node.method) :: post →
        ∀ e ∈ post, e.2.name ∈ names pre

/-- The call leaves the clients in step, or they cannot synchronise after it. -/
def Harmless (s : NymphRemoteClient) (call : RegistryCall) : Prop :=
  SyncRemoved s ∨ call = .removeMethod nymphsync ∨ InStep s call

/-- The first of the IDs of each name stands for the method of that name, and as many methods
stand before it as it says. -/
def FirstsInStep (s : NymphRemoteClient) (l : List (UInt32 × NymphMethod)) : Prop :=
  ∀ pre e post, l = pre ++ e :: post → e.2.name ∉ names pre →
    (∃ node, s.methods.find? e.2.name = some node ∧
      s.methodIds.find? e.1 = some ⟨e.2.name, node.number⟩) ∧ pre.length + 1 = e.1.toNat

/-- A server whose clients are in step. -/
structure Aligned (s : NymphRemoteClient) : Prop where
  intact : s.Intact
  below : ∀ id p, s.methodIds.find? id = some p → s.nextMethodId ≠ 0 → id < s.nextMethodId
  found : ∀ name node, s.methods.find? name = some node →
    s.methodIds.find? node.method.id = some ⟨name, node.number⟩
  serialized : ∀ name node, s.methods.find? name = some node →
    node.method.serialized = node.method.serialize node.method.id ∧ node.method.name.length ≤ 255
  builtIn : ∀ name node, s.methods.find? name = some node →
    node.method.callback = .syncMethods → name = nymphsync
  firsts : FirstsInStep s (callable s)

/-! ### Synchronising -/

/-- What a client adds of the methods it reads. -/
theorem foldl_addReceived (l : List (UInt32 × NymphMethod)) (c : NymphServerInstance) :
    (l.map Prod.snd).foldl addReceived c = (l.filter fun e => e.2.id ≠ 0).foldl addEntry c := by
  induction l generalizing c with
  | nil => rfl
  | cons e l ih =>
    rw [List.map_cons, List.foldl_cons, ih, addReceived]
    by_cases hid : e.2.id = 0
    · rw [if_pos hid, List.filter_cons_of_neg (by simp [hid])]
    · rw [if_neg hid, List.filter_cons_of_pos (by simp [hid]), List.foldl_cons]
      rfl

/-- The methods of pointers are those of their entries. -/
theorem listed_eq_map (s : NymphRemoteClient) (l : List (UInt32 × NodePtr)) :
    listed s l = (entriesOf s l).map Prod.snd := by
  rw [listed, entriesOf, List.map_filterMap]
  simp only [Option.map_map]
  rfl

/-- There are no more than 2^32 IDs. -/
theorem length_entries_le {β : Type} (m : OrderedMap.Map UInt32 β) :
    m.entries.length ≤ 2 ^ 32 := by
  have hnodup : ((m.entries.map Prod.fst).map UInt32.toNat).Nodup :=
    m.sorted.nodup.map fun a b h => UInt32.toNat_inj.mp h
  have hsubset : (m.entries.map Prod.fst).map UInt32.toNat ⊆ List.range (2 ^ 32) := by
    intro n hn
    obtain ⟨id, -, rfl⟩ := List.mem_map.mp hn
    exact List.mem_range.mpr id.toNat_lt
  have hle := (List.subperm_of_subset hnodup hsubset).length_le
  rwa [List.length_map, List.length_map, List.length_range] at hle

variable {s s' : NymphRemoteClient}

/-- A client of such a server has what it adds of the callable methods. -/
theorem Aligned.synchronised (h : Aligned s) {c : NymphServerInstance} (hc : Synchronised s c) :
    c = (callable s).foldl addEntry connected := by
  obtain ⟨-, table, htable, hsync⟩ := hc
  obtain ⟨hserialized, hlength⟩ := serializedMethods_eq h.intact
  cases htable.symm.trans hserialized
  rw [callable, ← foldl_addReceived, ← listed_eq_map]
  refine sync_eq ?_ (hlength ▸ length_entries_le _) hsync
  intro m hm
  obtain ⟨e, -, he⟩ := List.mem_filterMap.mp hm
  obtain ⟨node, hnode, rfl⟩ := Option.map_eq_some_iff.mp he
  exact h.serialized _ _ (MethodTable.node?_eq_some.mp hnode).1

/-- What a client of such a server calls by a name is what the server has under that name. -/
theorem Aligned.callsReach (h : Aligned s) {c : NymphServerInstance} (hc : Synchronised s c) :
    CallsReach s c := by
  intro name called hname hcalled
  rw [h.synchronised hc] at hcalled
  obtain ⟨-, -, hfirst⟩ := methods_foldl_addEntry (callable s)
  rcases hfirst name called hcalled with hsync | ⟨pre, e, post, heq, rfl, hnew, hid⟩
  · exact absurd hsync hname
  obtain ⟨⟨node, hnode, hids⟩, hcount⟩ := h.firsts pre e post heq hnew
  rw [hcount, UInt32.ofNat_toNat] at hid
  rw [hid]
  refine ⟨node, hnode, hids, fun um call handle msg => callMethodCallback_of_methodOf ?_⟩
  rw [methodOf, hids, Option.bind_some, MethodTable.node?_eq_some.mpr ⟨hnode, rfl⟩]
  rfl

/-! ### Registering -/

/-- Firsts stay in step when the tables keep what they have. -/
theorem FirstsInStep.mono {l : List (UInt32 × NymphMethod)} (h : FirstsInStep s l)
    (hmethods : ∀ name node, s.methods.find? name = some node → s'.methods.find? name = some node)
    (hids : ∀ id p, s.methodIds.find? id = some p → s'.methodIds.find? id = some p) :
    FirstsInStep s' l := by
  intro pre e post heq hnew
  obtain ⟨⟨node, hnode, hid⟩, hcount⟩ := h pre e post heq hnew
  exact ⟨⟨node, hmethods _ _ hnode, hids _ _ hid⟩, hcount⟩

/-- Firsts stay in step when a method is added behind them that is no first, or is in step. -/
theorem FirstsInStep.append {l : List (UInt32 × NymphMethod)} {e : UInt32 × NymphMethod}
    (h : FirstsInStep s l)
    (he : e.2.name ∉ names l → (∃ node, s.methods.find? e.2.name = some node ∧
      s.methodIds.find? e.1 = some ⟨e.2.name, node.number⟩) ∧ l.length + 1 = e.1.toNat) :
    FirstsInStep s (l ++ [e]) := by
  intro pre e' post heq hnew
  rcases List.eq_nil_or_concat post with rfl | ⟨post, e'', rfl⟩
  · obtain ⟨rfl, hlast⟩ := List.append_inj' heq rfl
    cases hlast
    exact he hnew
  · rw [List.concat_eq_append, ← List.cons_append, ← List.append_assoc] at heq
    obtain ⟨rfl, -⟩ := List.append_inj' heq rfl
    exact h pre e' post rfl hnew

/-- The names that the clients know have at most 255 characters. -/
theorem Aligned.length_le (h : Aligned s) {name : Bytes} (hname : name ∈ names (callable s)) :
    name.length ≤ 255 := by
  rcases List.mem_cons.mp hname with rfl | hmem
  · decide
  · obtain ⟨e, he, rfl⟩ := List.mem_map.mp hmem
    obtain ⟨e', -, he'⟩ := List.mem_filterMap.mp (List.mem_filter.mp he).1
    obtain ⟨node, hnode, rfl⟩ := Option.map_eq_some_iff.mp he'
    exact (h.serialized _ _ (MethodTable.node?_eq_some.mp hnode).1).2

/-- A counter that does not wrap around grows. -/
theorem lt_add_one_of_ne_zero {n : UInt32} (h : n + 1 ≠ 0) : n < n + 1 := by
  have hlt := n.toNat_lt
  have hsum : (n + 1).toNat = (n.toNat + 1) % 2 ^ 32 := UInt32.toNat_add n 1
  have hne : (n + 1).toNat ≠ 0 := fun hzero => h (UInt32.toNat_inj.mp hzero)
  rw [UInt32.lt_iff_toNat_lt]
  omega

/-- What clients add once a method is registered. -/
theorem callable_registerMethod (h : Aligned s) (hnext : s.nextMethodId ≠ 0) (name : Bytes)
    (method : NymphMethod) : callable (registerMethod s name method) = callable s ++
      if (s.inserted name method).method.id = 0 then []
      else [(s.nextMethodId, (s.inserted name method).method)] := by
  have hentries : (registerMethod s name method).methodIds.entries = s.methodIds.entries ++
      [(s.nextMethodId, ⟨name, (s.inserted name method).number⟩)] := by
    apply OrderedMap.insertEntry_eq_append
    intro b hb
    exact Std.compare_eq_lt.mpr (h.below b.1 b.2 (OrderedMap.Map.mem_entries.mp hb) hnext)
  have hold : entriesOf (registerMethod s name method) s.methodIds.entries =
      entriesOf s s.methodIds.entries := by
    apply List.filterMap_congr
    intro e he
    obtain ⟨node, hnode⟩ := h.intact e.1 e.2 (OrderedMap.Map.mem_entries.mp he)
    rw [hnode, registerMethod, MethodTable.node?_insert hnode]
  have hnew : entriesOf (registerMethod s name method)
      [(s.nextMethodId, ⟨name, (s.inserted name method).number⟩)] =
        [(s.nextMethodId, (s.inserted name method).method)] := by
    rw [entriesOf, List.filterMap_cons, registerMethod, s.node?_inserted]
    rfl
  have happend : entriesOf (registerMethod s name method)
      (registerMethod s name method).methodIds.entries = entriesOf s s.methodIds.entries ++
        [(s.nextMethodId, (s.inserted name method).method)] := by
    rw [hentries, ← hold, ← hnew]
    exact List.filterMap_append
  rw [callable, happend, List.filter_append, callable]
  by_cases hid : (s.inserted name method).method.id = 0
  · rw [if_pos hid, List.filter_cons_of_neg (by simp [hid]), List.filter_nil]
  · rw [if_neg hid, List.filter_cons_of_pos (by simp [hid]), List.filter_nil]

/-- The ID that is assigned next is not taken. -/
theorem Aligned.find?_nextMethodId (h : Aligned s) (hnext : s.nextMethodId ≠ 0) :
    s.methodIds.find? s.nextMethodId = none := by
  by_contra hne
  obtain ⟨p, hp⟩ := Option.ne_none_iff_exists'.mp hne
  exact absurd (h.below _ p hp hnext) (UInt32.lt_irrefl _)

/-- The methods after a registration. -/
theorem find?_methods_registerMethod (s : NymphRemoteClient) (name : Bytes) (method : NymphMethod)
    (name' : Bytes) : (registerMethod s name method).methods.find? name' =
      if name = name' then some (s.inserted name method) else s.methods.find? name' :=
  MethodTable.find?_insert _ _ _ _

/-- The IDs after a registration. -/
theorem Aligned.find?_methodIds_registerMethod (h : Aligned s) (hnext : s.nextMethodId ≠ 0)
    (name : Bytes) (method : NymphMethod) (id : UInt32) :
    (registerMethod s name method).methodIds.find? id =
      if s.nextMethodId = id then some ⟨name, (s.inserted name method).number⟩
      else s.methodIds.find? id := by
  rw [registerMethod, MethodTable.insert, OrderedMap.Map.find?_insert]
  split_ifs with heq
  · rw [← heq, h.find?_nextMethodId hnext]
    rfl
  · rfl

/-- The methods that are there stay where they are. -/
theorem keep_methods_registerMethod {name : Bytes} {method : NymphMethod} {name' : Bytes}
    {node : MethodNode} (hnode : s.methods.find? name' = some node) :
    (registerMethod s name method).methods.find? name' = some node := by
  rw [find?_methods_registerMethod]
  split_ifs with heq
  · rcases s.inserted_cases name method with hsome | ⟨hnone, -⟩
    · rw [← hsome, heq, hnode]
    · cases hnone.symm.trans (heq ▸ hnode)
  · exact hnode

/-- What is known of the methods has to hold of the new one. -/
theorem forall_methods_registerMethod {P : Bytes → MethodNode → Prop} {name : Bytes}
    {method : NymphMethod} (hold : ∀ name' node, s.methods.find? name' = some node → P name' node)
    (hnew : s.methods.find? name = none →
      P name ⟨s.allocated, method.setId s.nextMethodId⟩) :
    ∀ name' node, (registerMethod s name method).methods.find? name' = some node →
      P name' node := by
  intro name' node hnode
  rw [find?_methods_registerMethod] at hnode
  split_ifs at hnode with heq
  · subst heq
    rcases s.inserted_cases name method with hsome | ⟨hnone, heq⟩
    · exact hold _ _ (hsome.trans hnode)
    · rw [heq] at hnode
      cases hnode
      exact hnew hnone
  · exact hold _ _ hnode

/-- The method that a registration of a new name inserts. -/
theorem inserted_of_find?_eq_none {name : Bytes} (hnone : s.methods.find? name = none)
    (method : NymphMethod) :
    s.inserted name method = ⟨s.allocated, method.setId s.nextMethodId⟩ := by
  rcases s.inserted_cases name method with hsome | ⟨-, heq⟩
  · cases hnone.symm.trans hsome
  · exact heq

/-- A registration that is in step keeps the clients in step. -/
theorem Aligned.register (h : Aligned s) {name : Bytes} {method : NymphMethod}
    (hpublic : method.callback ≠ .syncMethods) (hstep : InStep s (.registerMethod name method)) :
    Aligned (registerMethod s name method) := by
  obtain ⟨hnext, hstep⟩ := hstep
  have hids := h.find?_methodIds_registerMethod hnext name method
  have hkeepIds : ∀ id p, s.methodIds.find? id = some p →
      (registerMethod s name method).methodIds.find? id = some p := by
    intro id p hp
    rw [hids, if_neg, hp]
    rintro rfl
    cases (h.find?_nextMethodId hnext).symm.trans hp
  refine ⟨h.intact.insert name method, ?_, ?_, ?_, ?_, ?_⟩
  · intro id p hp hne
    have hgrows := lt_add_one_of_ne_zero hne
    rw [hids] at hp
    split_ifs at hp with heq
    · rw [← heq]
      exact hgrows
    · exact UInt32.lt_trans (h.below id p hp hnext) hgrows
  · apply forall_methods_registerMethod (fun name' node hnode => hkeepIds _ _ (h.found _ _ hnode))
    intro hnone
    exact (hids _).trans (by rw [inserted_of_find?_eq_none hnone]; exact if_pos rfl)
  · refine forall_methods_registerMethod h.serialized fun hnone => ⟨rfl, ?_⟩
    rw [inserted_of_find?_eq_none hnone] at hstep
    rcases hstep with hzero | hknown | ⟨-, hname, hlength, -⟩
    · exact absurd hzero hnext
    · exact h.length_le hknown
    · exact (congrArg List.length hname).le.trans hlength
  · exact forall_methods_registerMethod h.builtIn fun _ hcallback => absurd hcallback hpublic
  · have hfirsts := h.firsts.mono (fun _ _ hnode => keep_methods_registerMethod hnode) hkeepIds
    rw [callable_registerMethod h hnext]
    split_ifs with hid
    · rw [List.append_nil]
      exact hfirsts
    · apply hfirsts.append
      intro hunknown
      obtain ⟨hnone, hname, -, hcount⟩ := (hstep.resolve_left hid).resolve_left hunknown
      have hmethod : (s.inserted name method).method.name = name := by
        rw [inserted_of_find?_eq_none hnone]
        exact hname
      dsimp only
      rw [hmethod]
      have hfound := (find?_methods_registerMethod s name method name).trans (if_pos rfl)
      exact ⟨⟨_, hfound, (hids _).trans (if_pos rfl)⟩, hcount⟩

/-! ### Removing -/

/-- No ID occurs twice among the callable methods. -/
theorem nodup_callable (s : NymphRemoteClient) : ((callable s).map Prod.fst).Nodup := by
  have hsublist : ∀ l : List (UInt32 × NodePtr),
      ((entriesOf s l).map Prod.fst).Sublist (l.map Prod.fst) := by
    intro l
    induction l with
    | nil => exact .slnil
    | cons e l ih =>
      rw [entriesOf, List.filterMap_cons]
      cases s.node? e.2 with
      | none => exact ih.cons _
      | some node => exact ih.cons_cons _
  exact ((List.filter_sublist.map Prod.fst).trans (hsublist _)).nodup s.methodIds.sorted.nodup

/-- What clients add once a method without a second ID is removed. -/
theorem callable_removeMethod {name : Bytes} {node : MethodNode} (honly : OnlyId s name)
    (hname : s.methods.find? name = some node) (hs' : removeMethod s name = some s') :
    callable s' = (callable s).filter fun e => e.1 ≠ node.method.id := by
  have hnodes := node?_removeMethod hs'
  have hentries : s'.methodIds.entries =
      s.methodIds.entries.filter fun e => decide (e.1 ≠ node.method.id) := by
    rw [removeMethod, hname] at hs'
    cases hs'
    rfl
  have hlist : ∀ l : List (UInt32 × NodePtr), (∀ e ∈ l, s.methodIds.find? e.1 = some e.2) →
      entriesOf s' (l.filter fun e => decide (e.1 ≠ node.method.id)) =
        (entriesOf s l).filter fun e => decide (e.1 ≠ node.method.id) := by
    intro l hl
    induction l with
    | nil => rfl
    | cons e l ih =>
      have hrest := ih fun e he => hl e (List.mem_cons_of_mem _ he)
      by_cases hid : e.1 = node.method.id
      · rw [List.filter_cons_of_neg (by simp [hid]), hrest, entriesOf, entriesOf,
          List.filterMap_cons]
        cases s.node? e.2 with
        | none => rfl
        | some node' => exact (List.filter_cons_of_neg (by simp [hid])).symm
      · have hother : e.2.name ≠ name := fun heq =>
          hid (honly node e.1 e.2 hname (hl e List.mem_cons_self) heq)
        have hsame : s'.node? e.2 = s.node? e.2 := (hnodes e.2).trans (if_neg hother)
        rw [List.filter_cons_of_pos (by simp [hid]), entriesOf, entriesOf, List.filterMap_cons,
          List.filterMap_cons, hsame]
        cases s.node? e.2 with
        | none => exact hrest
        | some node' =>
          exact (congrArg _ hrest).trans (List.filter_cons_of_pos (by simp [hid])).symm
  rw [callable, hentries, hlist _ fun e he => OrderedMap.Map.mem_entries.mp he, callable,
    List.filter_filter, List.filter_filter]
  simp only [Bool.and_comm]

/-- The first of a name is in its place after a removal that only repeated names stood behind. -/
theorem first_of_filter {l pre post : List (UInt32 × NymphMethod)} {id : UInt32}
    {e : UInt32 × NymphMethod} (hnodup : (l.map Prod.fst).Nodup)
    (hlast : ∀ pre m post, l = pre ++ (id, m) :: post → ∀ e ∈ post, e.2.name ∈ names pre)
    (heq : l.filter (fun e => e.1 ≠ id) = pre ++ e :: post) (hnew : e.2.name ∉ names pre) :
    e.1 ≠ id ∧ ∃ post', l = pre ++ e :: post' := by
  have hmem : e ∈ l.filter fun e => e.1 ≠ id := heq ▸ List.mem_append_right _ List.mem_cons_self
  refine ⟨by simpa using (List.mem_filter.mp hmem).2, ?_⟩
  by_cases hid : ∃ m, (id, m) ∈ l
  · obtain ⟨m, hm⟩ := hid
    obtain ⟨before, behind, rfl⟩ := List.append_of_mem hm
    rw [List.map_append, List.map_cons] at hnodup
    have hother : ∀ e' ∈ before ++ behind, e'.1 ≠ id := by
      intro e' he' heq
      have hout := (List.nodup_middle.mp hnodup).notMem
      rw [← List.map_append] at hout
      exact hout (List.mem_map.mpr ⟨e', he', heq⟩)
    have hfilter : (before ++ (id, m) :: behind).filter (fun e => e.1 ≠ id) = before ++ behind := by
      rw [List.filter_append, List.filter_cons_of_neg (by simp), ← List.filter_append]
      exact List.filter_eq_self.mpr fun e' he' => by simpa using hother e' he'
    have hknown : ∀ rest, pre = before ++ rest → e ∉ behind := by
      rintro rest rfl hbehind
      have hrepeated := hlast before m behind rfl e hbehind
      have happend : names (before ++ rest) = names before ++ rest.map fun e => e.2.name := by
        simp [names]
      rw [happend] at hnew
      exact hnew (List.mem_append_left _ hrepeated)
    rw [hfilter] at heq
    rcases List.append_eq_append_iff.mp heq with ⟨rest, hpre, hrest⟩ | ⟨rest, rfl, hrest⟩
    · exact absurd (hrest ▸ List.mem_append_right _ List.mem_cons_self) (hknown rest hpre)
    · cases rest with
      | nil =>
        rw [List.nil_append] at hrest
        exact absurd (hrest ▸ List.mem_cons_self) (hknown [] (by simp))
      | cons e' rest =>
        cases hrest
        exact ⟨rest ++ (id, m) :: behind, by simp⟩
  · have hfilter : l.filter (fun e => e.1 ≠ id) = l := by
      apply List.filter_eq_self.mpr
      intro e' he'
      have hne : e'.1 ≠ id := by
        rintro rfl
        exact hid ⟨e'.2, he'⟩
      simpa using hne
    exact ⟨post, hfilter.symm.trans heq⟩

/-- A removal that is in step keeps the clients in step. -/
theorem Aligned.remove (h : Aligned s) {name : Bytes} (hstep : InStep s (.removeMethod name))
    (hs' : removeMethod s name = some s') : Aligned s' := by
  obtain ⟨honly, node, hname, hlast⟩ := hstep
  have hcallable := callable_removeMethod honly hname hs'
  have hintact := intact_removeMethod h.intact honly hs'
  rw [removeMethod, hname] at hs'
  cases hs'
  have hfind : ∀ name' node', (s.methods.erase name).find? name' = some node' →
      name' ≠ name ∧ s.methods.find? name' = some node' := by
    intro name' node' hnode'
    rw [OrderedMap.Map.find?_erase] at hnode'
    split_ifs at hnode' with heq
    exact ⟨heq, hnode'⟩
  have hids : ∀ {id p}, s.methodIds.find? id = some p → p.name ≠ name →
      (s.methodIds.erase node.method.id).find? id = some p := by
    intro id p hp hother
    rw [OrderedMap.Map.find?_erase, if_neg, hp]
    rintro rfl
    have hfound := h.found name node hname
    exact hother (congrArg NodePtr.name (Option.some.inj (hp.symm.trans hfound)))
  refine ⟨hintact, ?_, ?_, ?_, ?_, ?_⟩
  · intro id p hp hne
    dsimp only at hp
    rw [OrderedMap.Map.find?_erase] at hp
    split_ifs at hp
    exact h.below id p hp hne
  · intro name' node' hnode'
    obtain ⟨hother, hold⟩ := hfind name' node' hnode'
    exact hids (h.found name' node' hold) hother
  · exact fun name' node' hnode' => h.serialized name' node' (hfind name' node' hnode').2
  · exact fun name' node' hnode' => h.builtIn name' node' (hfind name' node' hnode').2
  · intro pre e post heq hnew
    rw [hcallable] at heq
    have hlast' : ∀ pre m post, callable s = pre ++ (node.method.id, m) :: post →
        ∀ e ∈ post, e.2.name ∈ names pre := by
      intro pre m post heq
      have hmem : (node.method.id, m) ∈ callable s :=
        heq ▸ List.mem_append_right _ List.mem_cons_self
      obtain ⟨e', he', hpointed⟩ := List.mem_filterMap.mp (List.mem_filter.mp hmem).1
      obtain ⟨node', hnode', hpair⟩ := Option.map_eq_some_iff.mp hpointed
      have hids' := OrderedMap.Map.mem_entries.mp he'
      obtain ⟨hid, rfl⟩ := Prod.mk.inj hpair
      rw [hid, h.found name node hname] at hids'
      rw [← Option.some.inj hids'] at hnode'
      cases hname.symm.trans (MethodTable.node?_eq_some.mp hnode').1
      exact hlast pre post heq
    obtain ⟨hother, post', hold⟩ := first_of_filter (nodup_callable s) hlast' heq hnew
    obtain ⟨⟨node', hnode', hid⟩, hcount⟩ := h.firsts pre e post' hold hnew
    have hne : e.2.name ≠ name := fun heq => hother (honly node e.1 _ hname hid heq)
    refine ⟨⟨node', ?_, hids hid hne⟩, hcount⟩
    exact (OrderedMap.Map.find?_erase _ _ _).trans ((if_neg hne).trans hnode')

/-! ### Runs -/

/-- The clients of a new server are in step. -/
theorem aligned_init : Aligned init := by
  have hnode : ∀ name node, init.methods.find? name = some node →
      name = nymphsync ∧ node = ⟨0, syncFunction.setId 0⟩ := by
    intro name node hnode
    cases List.mem_singleton.mp (OrderedMap.Map.mem_entries.mpr hnode)
    exact ⟨rfl, rfl⟩
  have hintact : MethodTable.empty.Intact := fun _ _ h => nomatch h
  refine ⟨hintact.insert _ _, ?_, ?_, ?_, ?_, ?_⟩
  · intro id p hp _
    cases List.mem_singleton.mp (OrderedMap.Map.mem_entries.mpr hp)
    decide
  · intro name node h
    obtain ⟨rfl, rfl⟩ := hnode name node h
    rfl
  · intro name node h
    obtain ⟨rfl, rfl⟩ := hnode name node h
    exact ⟨rfl, by decide⟩
  · exact fun name node h _ => (hnode name node h).1
  · intro pre e post heq _
    have hempty : callable init = [] := rfl
    rw [hempty] at heq
    simp at heq

/-- A server without its built-in method does not get it back. -/
theorem SyncRemoved.apply (h : SyncRemoved s) {call : RegistryCall} (hpublic : call.IsPublic)
    (hs' : apply s call = some s') : SyncRemoved s' := by
  intro name' node' hnode'
  cases call with
  | registerMethod name method =>
    cases hs'
    rw [registerMethod, MethodTable.find?_insert] at hnode'
    split_ifs at hnode' with heq
    · cases hnode'
      rcases s.inserted_cases name method with hsome | ⟨-, hnew⟩
      · exact h _ _ hsome
      · rw [hnew]
        exact hpublic
    · exact h _ _ hnode'
  | removeMethod name =>
    obtain ⟨node, -, rfl⟩ := Option.map_eq_some_iff.mp hs'
    rw [OrderedMap.Map.find?_erase] at hnode'
    split_ifs at hnode'
    exact h _ _ hnode'

/-- Nobody synchronises with a server without its built-in method. -/
theorem SyncRemoved.not_synchronised (h : SyncRemoved s) {c : NymphServerInstance} :
    ¬Synchronised s c := by
  rintro ⟨⟨m, hm, hcallback⟩, -⟩
  obtain ⟨p, -, hpointed⟩ := Option.bind_eq_some_iff.mp hm
  obtain ⟨node, hnode, rfl⟩ := Option.map_eq_some_iff.mp hpointed
  exact h _ _ (MethodTable.node?_eq_some.mp hnode).1 hcallback

/-- A harmless call leaves the clients in step, or takes the built-in method away. -/
theorem aligned_or_syncRemoved (h : Aligned s ∨ SyncRemoved s) {call : RegistryCall}
    (hpublic : call.IsPublic) (hharmless : Harmless s call) (hs' : apply s call = some s') :
    Aligned s' ∨ SyncRemoved s' := by
  rcases h with h | h
  · rcases hharmless with hremoved | rfl | hstep
    · exact .inr (hremoved.apply hpublic hs')
    · refine .inr fun name' node' hnode' hcallback => ?_
      obtain ⟨node, -, rfl⟩ := Option.map_eq_some_iff.mp hs'
      rw [OrderedMap.Map.find?_erase] at hnode'
      split_ifs at hnode' with hname
      exact hname (h.builtIn _ _ hnode' hcallback)
    · cases call with
      | registerMethod name method =>
        cases hs'
        exact .inl (h.register hpublic hstep)
      | removeMethod name => exact .inl (h.remove hstep hs')
  · exact .inr (h.apply hpublic hs')

/-- Harmless calls leave the clients in step, or take the built-in method away. -/
theorem aligned_or_syncRemoved_of_harmless {calls : List RegistryCall}
    (hpublic : ∀ call ∈ calls, call.IsPublic) {s₀ : NymphRemoteClient}
    (h : Aligned s₀ ∨ SyncRemoved s₀) (hharmless : Throughout Harmless s₀ calls)
    (hs : applyAll s₀ calls = some s) : Aligned s ∨ SyncRemoved s := by
  induction calls generalizing s₀ with
  | nil =>
    cases hs
    exact h
  | cons call calls ih =>
    obtain ⟨s₁, hs₁, hrest⟩ := Option.bind_eq_some_iff.mp hs
    obtain ⟨hcall, hcalls⟩ := hharmless
    rw [List.forall_mem_cons] at hpublic
    exact ih hpublic.2 (aligned_or_syncRemoved h hpublic.1 hcall hs₁) (hcalls s₁ hs₁) hrest

/-- A server that a client can synchronise with after harmless calls keeps its clients in step. -/
theorem aligned_of_harmless {calls : List RegistryCall} (hpublic : ∀ call ∈ calls, call.IsPublic)
    (hharmless : Throughout Harmless init calls) (hs : applyAll init calls = some s)
    {c : NymphServerInstance} (hc : Synchronised s c) : Aligned s := by
  rcases aligned_or_syncRemoved_of_harmless hpublic (.inl aligned_init) hharmless hs with h | h
  · exact h
  · exact absurd hc h.not_synchronised

/-- As long as the calls of the application are harmless, what any client calls by a name after
synchronising is what the server has under that name. -/
theorem callsReach_of_harmless {calls : List RegistryCall} (hpublic : ∀ call ∈ calls, call.IsPublic)
    (hharmless : Throughout Harmless init calls) (hs : applyAll init calls = some s)
    {c : NymphServerInstance} (hc : Synchronised s c) : CallsReach s c :=
  (aligned_of_harmless hpublic hharmless hs hc).callsReach hc

/-- A client calls the one method of a server. -/
theorem callsReach_silent : ∃ s c,
    applyAll init [.registerMethod [0x61] (silentMethod [0x61])] = some s ∧ Synchronised s c ∧
      (c.methods.find? [0x61]).isSome ∧ CallsReach s c := by
  refine ⟨_, _, rfl, ⟨⟨_, rfl, rfl⟩, _, rfl, rfl⟩, rfl, ?_⟩
  have hpublic : ∀ call ∈ [RegistryCall.registerMethod [0x61] (silentMethod [0x61])],
      call.IsPublic := by
    simp [RegistryCall.IsPublic, silentMethod, NymphMethod.make]
  have hharmless : Throughout Harmless init [.registerMethod [0x61] (silentMethod [0x61])] :=
    ⟨.inr (.inr ⟨by decide, .inr (.inr ⟨rfl, rfl, by decide, rfl⟩)⟩), fun _ _ => trivial⟩
  exact callsReach_of_harmless hpublic hharmless rfl ⟨⟨_, rfl, rfl⟩, _, rfl, rfl⟩

/-- After the first of two methods was removed, clients call the second under the wrong ID. -/
theorem not_callsReach_removed : ∃ s c,
    applyAll init [.registerMethod [0x61] (silentMethod [0x61]),
      .registerMethod [0x62] (silentMethod [0x62]), .removeMethod [0x61]] = some s ∧
      Synchronised s c ∧ ¬CallsReach s c := by
  refine ⟨_, _, rfl, ⟨⟨_, rfl, rfl⟩, _, rfl, rfl⟩, fun h => ?_⟩
  obtain ⟨node, -, hid, -⟩ := h [0x62] _ (by decide) rfl
  cases hid

end NymphRemoteClient

end NymphRpc
