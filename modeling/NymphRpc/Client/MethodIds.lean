import Mathlib.Data.List.Perm.Subperm
import NymphRpc.Client.Sync
import NymphRpc.Server.Registry

/-!
# The IDs of a server and of its clients

A client that synchronises numbers the methods in the order of the server's IDs, beginning
behind the built-in method, and keeps the first of several methods of one name. Its IDs are the
server's as long as the first method of each name is registered under that name and has as many
methods before it as its ID says.
-/

namespace NymphRpc

open LittleEndian Buffer NymphRemoteClient NymphServerInstance

/-! ### Reading the table -/

/-- A segment of a string is found by `substr`. -/
theorem substr_holds {binmsg seg : Bytes} {p n : ℕ} (h : Holds binmsg p seg)
    (hp : p ≤ binmsg.length) (hn : seg.length = n) : substr binmsg p n = pure seg := by
  rw [substr, if_neg (by omega), ← hn, ← List.prefix_iff_eq_take.mp h]
  rfl

/-- A segment of a string is read through a pointer. -/
theorem bytesAt_holds {binmsg seg : Bytes} {p n : ℕ} (h : Holds binmsg p seg)
    (hn : seg.length = n) : bytesAt binmsg p n = pure seg := by
  have hholds : slice? (binmsg ++ [0]) p n = some seg := by
    rw [← hn]
    by_cases hseg : seg = []
    · subst hseg
      rfl
    · have hend := h.add_length_le hseg
      refine Holds.slice? (h.trans ?_)
      rw [List.drop_append_of_le_length (by omega)]
      exact List.prefix_append _ _
  rw [bytesAt, hholds]
  rfl

namespace NymphServerInstance

/-- The method that a client makes of an entry. -/
def received (m : NymphMethod) : NymphMethod :=
  .make m.name (m.serializedTypes.map NymphTypes.ofByte) (NymphTypes.ofByte m.returnType.toByte)
    dummyCallback

/-- Add the method of an entry, unless it is the built-in one. -/
def addReceived (c : NymphServerInstance) (m : NymphMethod) : NymphServerInstance :=
  if m.id = 0 then c else addMethod c m.name (received m)

/-- The entry of a method whose name has at most 255 characters is read as it was written. -/
theorem syncMethod_eq {binmsg : Bytes} {index : ℕ} {m : NymphMethod} (c : NymphServerInstance)
    (h : Holds binmsg index (m.serialize m.id)) (hname : m.name.length ≤ 255) :
    syncMethod binmsg index c = pure (index + (m.serialize m.id).length, addReceived c m) := by
  have hend := h.add_length_le (by simp [NymphMethod.serialize, methodSignature])
  have hsix : methodSignature.length = 6 := rfl
  have htypes : m.serializedTypes.length = m.parameters.length % 256 := by
    rw [NymphMethod.serializedTypes, List.length_map, List.length_take]
    exact Nat.min_eq_left (Nat.mod_le _ _)
  have hlength : (m.serialize m.id).length = 13 + m.name.length + m.parameters.length % 256 := by
    simp only [NymphMethod.serialize, List.length_append, toBytes_length, hsix, htypes,
      List.length_singleton]
    omega
  rw [hlength] at hend ⊢
  obtain ⟨hsignature, h⟩ := Holds.append_iff.mp h
  obtain ⟨hid, h⟩ := Holds.append_iff.mp h
  obtain ⟨hl, h⟩ := Holds.append_iff.mp h
  obtain ⟨hchars, h⟩ := Holds.append_iff.mp h
  obtain ⟨hcount, h⟩ := Holds.append_iff.mp h
  obtain ⟨hparameters, htype⟩ := Holds.append_iff.mp h
  simp only [toBytes_length, hsix, htypes] at hid hl hchars hcount hparameters htype
  have hlValue : ofBytes (toBytes 1 m.name.length) = m.name.length :=
    ofBytes_toBytes (by omega)
  have hcountValue : ofBytes (toBytes 1 m.parameters.length) = m.parameters.length % 256 :=
    ofBytes_toBytes_mod 1 _
  have hidValue : ofBytes (toBytes 4 m.id.toNat) = m.id.toNat := ofBytes_toBytes m.id.toNat_lt
  rw [syncMethod, substr_holds hsignature (by omega) hsix, pure_bind,
    bytesAt_holds hid (toBytes_length _ _), pure_bind, if_neg (by simp),
    bytesAt_holds hl (toBytes_length _ _), pure_bind, hlValue,
    substr_holds hchars (by omega) rfl, pure_bind]
  dsimp only
  rw [bytesAt_holds hcount (toBytes_length _ _), pure_bind, hcountValue,
    bytesAt_holds hparameters htypes, pure_bind, bytesAt_holds htype (List.length_singleton),
    pure_bind, hidValue]
  have hindex : index + 11 + m.name.length + 2 + m.parameters.length % 256 =
      index + (13 + m.name.length + m.parameters.length % 256) := by omega
  have hbyte : UInt8.ofNat (ofBytes [m.returnType.toByte]) = m.returnType.toByte := by
    simp [ofBytes]
  have hzero : m.id.toNat = 0 ↔ m.id = 0 := by
    rw [← UInt32.toNat_inj]
    rfl
  rw [hindex, hbyte, addReceived]
  simp only [hzero]
  split_ifs <;> rfl

/-- The entries of methods with such names are read as they were written. -/
theorem syncMethods_eq {binmsg : Bytes} {index : ℕ} {methods : List NymphMethod}
    (c : NymphServerInstance)
    (h : Holds binmsg index (methods.map NymphMethod.serialized).flatten)
    (hmethods : ∀ m ∈ methods, m.serialized = m.serialize m.id ∧ m.name.length ≤ 255) :
    syncMethods binmsg methods.length index c = pure (methods.foldl addReceived c) := by
  induction methods generalizing index c with
  | nil => rfl
  | cons m methods ih =>
    obtain ⟨hserialized, hname⟩ := hmethods m List.mem_cons_self
    rw [List.map_cons, List.flatten_cons, hserialized] at h
    obtain ⟨hm, hrest⟩ := Holds.append_iff.mp h
    rw [List.length_cons, syncMethods, syncMethod_eq c hm hname, pure_bind]
    exact ih _ hrest fun m' hm' => hmethods m' (List.mem_cons_of_mem _ hm')

/-- Behind the signature and a count other than zero the entries are read. -/
theorem sync_count (c : NymphServerInstance) (count : UInt32) (entries : Bytes) :
    sync c (methodsSignature ++ (toBytes 4 count.toNat ++ entries)) =
      if count = 0 then throw .noMethods
      else
        syncMethods (methodsSignature ++ (toBytes 4 count.toNat ++ entries)) count.toNat 11 c := by
  have hseven : methodsSignature.length = 7 := rfl
  obtain ⟨hsignature, hrest⟩ := Holds.append_iff.mp (Holds.self (methodsSignature ++
    (toBytes 4 count.toNat ++ entries)) [])
  obtain ⟨hcount, -⟩ := Holds.append_iff.mp hrest
  rw [List.append_nil] at hsignature hcount
  rw [hseven, Nat.zero_add] at hcount
  have hvalue : ofBytes (toBytes 4 count.toNat) = count.toNat := ofBytes_toBytes count.toNat_lt
  have hlong : 11 ≤ (methodsSignature ++ (toBytes 4 count.toNat ++ entries)).length := by
    simp only [List.length_append, toBytes_length, hseven]
    omega
  have hzero : count.toNat = 0 ↔ count = 0 := by
    rw [← UInt32.toNat_inj]
    rfl
  rw [sync, if_neg (by omega), substr_holds hsignature (by omega) hseven, pure_bind,
    bytesAt_holds hcount (toBytes_length _ _), pure_bind, if_neg (by simp), hvalue]
  simp only [hzero]

/-- The table of methods with such names is read as it was written, unless it has none. -/
theorem sync_eq {c c' : NymphServerInstance} {methods : List NymphMethod}
    (hmethods : ∀ m ∈ methods, m.serialized = m.serialize m.id ∧ m.name.length ≤ 255)
    (hle : methods.length ≤ 2 ^ 32)
    (h : sync c (methodsSignature ++ (toBytes 4 (UInt32.ofNat methods.length).toNat ++
      (methods.map NymphMethod.serialized).flatten)) = .ok c') :
    c' = methods.foldl addReceived c := by
  rw [sync_count] at h
  split_ifs at h with hcount
  have hlength : (UInt32.ofNat methods.length).toNat = methods.length := by
    rw [UInt32.toNat_ofNat']
    by_contra hne
    have hfull : methods.length = 2 ^ 32 := by omega
    rw [hfull] at hcount
    exact hcount rfl
  have hentries : Holds (methodsSignature ++ (toBytes 4 (UInt32.ofNat methods.length).toNat ++
      (methods.map NymphMethod.serialized).flatten)) 11
      (methods.map NymphMethod.serialized).flatten := by
    obtain ⟨-, hrest⟩ := Holds.append_iff.mp (Holds.self (methodsSignature ++
      (toBytes 4 (UInt32.ofNat methods.length).toNat ++
        (methods.map NymphMethod.serialized).flatten)) [])
    obtain ⟨-, hentries⟩ := Holds.append_iff.mp hrest
    rwa [List.append_nil, toBytes_length] at hentries
  have hread := syncMethods_eq c hentries hmethods
  rw [hlength] at h hread
  exact Except.ok.inj (h.symm.trans hread)

/-- The names of the methods a client has after it added some, the built-in method first. -/
def names (l : List (UInt32 × NymphMethod)) : List Bytes := nymphsync :: l.map fun e => e.2.name

/-- Add a method under the next ID of the client. -/
def addEntry (c : NymphServerInstance) (e : UInt32 × NymphMethod) : NymphServerInstance :=
  addMethod c e.2.name (received e.2)

/-- What a client has after it added some methods: the names it was given, each with the number of
the first method of the name. -/
theorem methods_foldl_addEntry (l : List (UInt32 × NymphMethod)) :
    (l.foldl addEntry connected).nextMethodId = .ofNat (l.length + 1) ∧
    (∀ name ∈ names l, (l.foldl addEntry connected).methods.find? name ≠ none) ∧
    ∀ name node, (l.foldl addEntry connected).methods.find? name = some node →
      name = nymphsync ∨ ∃ pre e post, l = pre ++ e :: post ∧ e.2.name = name ∧
        name ∉ names pre ∧ node.method.id = .ofNat (pre.length + 1) := by
  induction l using List.reverseRecOn with
  | nil =>
    refine ⟨rfl, ?_, ?_⟩
    · intro name hname
      rw [List.mem_singleton.mp hname]
      exact Option.some_ne_none _
    · intro name node hfind
      rw [List.foldl_nil, connected, addMethod, MethodTable.find?_insert] at hfind
      split_ifs at hfind with heq
      · exact .inl heq.symm
      · cases hfind
  | append_singleton l e ih =>
    obtain ⟨hnext, hnames, hfirst⟩ := ih
    have hfind : ∀ name, (addEntry (l.foldl addEntry connected) e).methods.find? name =
        if e.2.name = name then
          some ((l.foldl addEntry connected).inserted e.2.name (received e.2))
        else (l.foldl addEntry connected).methods.find? name :=
      fun name => MethodTable.find?_insert _ _ _ _
    rw [List.foldl_append, List.foldl_cons, List.foldl_nil]
    refine ⟨?_, ?_, ?_⟩
    · rw [addEntry, addMethod, MethodTable.insert, hnext, List.length_append, List.length_singleton,
        UInt32.ofNat_add (l.length + 1) 1]
      rfl
    · intro name hname
      rw [hfind]
      split_ifs with heq
      · exact Option.some_ne_none _
      · apply hnames name
        have hmem : name ∈ names l ∨ name = e.2.name := by
          simpa [names, or_assoc] using hname
        exact hmem.resolve_right fun h => heq h.symm
    · intro name node hnode
      have hextend : (name = nymphsync ∨ ∃ pre e post, l = pre ++ e :: post ∧ e.2.name = name ∧
          name ∉ names pre ∧ node.method.id = .ofNat (pre.length + 1)) →
          name = nymphsync ∨ ∃ pre e' post, l ++ [e] = pre ++ e' :: post ∧ e'.2.name = name ∧
            name ∉ names pre ∧ node.method.id = .ofNat (pre.length + 1) := by
        rintro (h | ⟨pre, e', post, rfl, hrest⟩)
        · exact .inl h
        · exact .inr ⟨pre, e', post ++ [e], by simp, hrest⟩
      rw [hfind] at hnode
      split_ifs at hnode with heq
      · cases hold : (l.foldl addEntry connected).methods.find? name with
        | none =>
          refine .inr ⟨l, e, [], rfl, heq, fun hmem => hnames name hmem hold, ?_⟩
          rw [MethodTable.inserted, heq, hold, hnext] at hnode
          rw [← Option.some.inj hnode]
          rfl
        | some node' =>
          rw [MethodTable.inserted, heq, hold] at hnode
          cases hnode
          exact hextend (hfirst name node' hold)
      · exact hextend (hfirst name node hnode)

end NymphServerInstance

end NymphRpc
