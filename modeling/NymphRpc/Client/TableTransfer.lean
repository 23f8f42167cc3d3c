import NymphRpc.Client.SyncLog

/-!
# The two codecs of the table of methods

What `setId` serialised and `syncMethods` concatenated is what `sync` reads: the entries agree at
every offset, up to 255 characters and 255 parameters and whatever the names contain. The string
is kept in a value whose length has 32 bits, as the count of the methods does, so that a table
of 2^32 bytes or more is cut.

Only these two sides and the value between them are meant. What the message around the value does
with it is another thing: the decoder takes a reply for corrupt whose string has 2^31 - 31
characters or more.
-/

namespace NymphRpc

open LittleEndian Buffer NymphServerInstance NymphRemoteClient

/-- The string that `syncMethods` concatenates for some methods. -/
def methodsTable (methods : List NymphMethod) : Bytes :=
  methodsSignature ++ (toBytes 4 (UInt32.ofNat methods.length).toNat ++
    (methods.map NymphMethod.serialized).flatten)

/-- The string that is made of the value that holds a table; its `string_length()` has 32 bits. -/
def receivedTable (table : Bytes) : Bytes := table.take (UInt32.ofNat table.length).toNat

/-- What is written about a method. -/
def entryOf (m : NymphMethod) : SyncEntry := ⟨m.id, m.name, m.parameters, m.returnType⟩

/-- Methods in the order of their IDs, no two of which are the same, that were serialised with
their IDs; the names and the parameters are not too many for a byte, and the types are as a byte
is cast to them. -/
structure Listable (methods : List NymphMethod) : Prop where
  nonempty : methods ≠ []
  ordered : methods.Pairwise fun m m' => m.id < m'.id
  serialized : ∀ m ∈ methods, m.serialized = m.serialize m.id
  wellFormed : ∀ m ∈ methods, (entryOf m).WellFormed

/-- The table is read to its end: the entries are those of the methods, and the methods of all
entries are added but the one with ID 0. -/
def TransfersWhole (c : NymphServerInstance) (methods : List NymphMethod) : Prop :=
  let table := methodsTable methods
  let run := syncLogged c (receivedTable table)
  run.result = .ok (table.length, (methods.map entryOf).foldl SyncEntry.addTo c) ∧
    entries run.log = methods.map entryOf ∧
    additions run.log = (methods.map entryOf).filter fun e => e.methodId ≠ 0

/-- `syncMethods` builds the table of the methods that the server lists. -/
theorem serializedMethods_eq_methodsTable {s : NymphRemoteClient} (hs : s.Intact) :
    serializedMethods s = some (methodsTable (listed s s.methodIds.entries)) :=
  (serializedMethods_eq hs).1

/-- The value that holds a table gives the received one. -/
theorem getString_ofString (table : Bytes) :
    (NymphType.ofString table false).getString = some (receivedTable table) := by
  have hle : (UInt32.ofNat table.length).toNat ≤ table.length := by
    rw [UInt32.toNat_ofNat']
    exact Nat.mod_le _ _
  change slice? table 0 (UInt32.ofNat table.length).toNat = _
  rw [slice?, receivedTable]
  split_ifs with hzero hin
  · rw [hzero]
    rfl
  · rfl
  · exact absurd ⟨le_rfl, by omega⟩ hin

/-- A short table is received as it is. -/
theorem receivedTable_eq {table : Bytes} (h : table.length < 2 ^ 32) :
    receivedTable table = table := by
  rw [receivedTable, UInt32.toNat_ofNat', Nat.mod_eq_of_lt h, List.take_length]

/-- A method is serialised to its entry. -/
theorem encode_entryOf {m : NymphMethod} (h : (entryOf m).WellFormed) :
    (entryOf m).encode = m.serialize m.id := by
  have htypes : m.serializedTypes = m.parameters.map NymphTypes.toByte := by
    have hle : m.parameters.length ≤ 255 := h.parameters
    rw [NymphMethod.serializedTypes, Nat.mod_eq_of_lt (by omega), List.take_length]
  rw [NymphMethod.serialize, htypes]
  rfl

/-- The methods are serialised to their entries. -/
theorem Listable.serialized_eq {methods : List NymphMethod} (h : Listable methods) :
    methods.map NymphMethod.serialized = (methods.map entryOf).map SyncEntry.encode := by
  rw [List.map_map]
  apply List.map_congr_left
  intro m hm
  rw [h.serialized m hm, Function.comp_apply, encode_entryOf (h.wellFormed m hm)]

/-- The table is at least as long as there are methods. -/
theorem Listable.length_le {methods : List NymphMethod} (h : Listable methods) :
    13 * methods.length ≤ (methodsTable methods).length := by
  have hflatten : ∀ es : List SyncEntry,
      13 * es.length ≤ (es.map SyncEntry.encode).flatten.length := by
    intro es
    induction es with
    | nil => exact le_rfl
    | cons e es ih =>
      rw [List.map_cons, List.flatten_cons, List.length_append, List.length_cons, e.encode_length]
      omega
  have hle := hflatten (methods.map entryOf)
  rw [List.length_map] at hle
  rw [methodsTable, h.serialized_eq, List.length_append, List.length_append]
  omega

/-- A table shorter than 2^32 bytes is read as it was written. -/
theorem Listable.transfersWhole {methods : List NymphMethod} (h : Listable methods)
    (c : NymphServerInstance) (hshort : (methodsTable methods).length < 2 ^ 32) :
    TransfersWhole c methods := by
  have hlength := h.length_le
  have hpos := List.length_pos_iff.mpr h.nonempty
  have hes : ∀ e ∈ methods.map entryOf, e.WellFormed := by
    intro e he
    obtain ⟨m, hm, rfl⟩ := List.mem_map.mp he
    exact h.wellFormed m hm
  have hcount : (methods.map entryOf).length + 0 = methods.length := by
    rw [List.length_map, Nat.add_zero]
  have htable : methodsTable methods = methodsSignature ++
      (toBytes 4 ((methods.map entryOf).length + 0) ++
        (((methods.map entryOf).map SyncEntry.encode).flatten ++ [])) := by
    rw [methodsTable, h.serialized_eq, List.append_nil, hcount, UInt32.toNat_ofNat',
      Nat.mod_eq_of_lt (by omega)]
  have hend : 11 + ((methods.map entryOf).map SyncEntry.encode).flatten.length =
      (methodsTable methods).length := by
    rw [htable, List.append_nil, List.length_append, List.length_append, toBytes_length,
      ← Nat.add_assoc]
    rfl
  have hrun := syncLogged_encode c hes (by omega) (by omega) [] htable
  obtain ⟨hentries, hadditions⟩ := entries_entriesLog 11 (methods.map entryOf)
  rw [TransfersWhole, receivedTable_eq hshort, hrun, hend]
  refine ⟨rfl, ?_, ?_⟩
  · rw [Traced.log_tellAll_bind]
    exact (congrArg entries (List.append_nil _)).trans hentries
  · rw [Traced.log_tellAll_bind]
    exact (congrArg additions (List.append_nil _)).trans hadditions

/-- What is read through a pointer ends at the null behind the string at the latest. -/
theorem bounds_of_bytesAt {binmsg seg : Bytes} {index n : ℕ}
    (h : bytesAt binmsg index n = .ok seg) (hn : n ≠ 0) : index + n ≤ binmsg.length + 1 := by
  rw [bytesAt] at h
  cases hslice : slice? (binmsg ++ [0]) index n with
  | none =>
    rw [hslice] at h
    cases h
  | some bs =>
    have hbounds := (bounds_of_slice? hslice hn).2
    rw [List.length_append, List.length_singleton] at hbounds
    omega

/-- An entry that is read ends at the null behind the string at the latest. -/
theorem end_syncMethodLogged {binmsg : Bytes} {index : ℕ} {c : NymphServerInstance}
    {out : ℕ × NymphServerInstance}
    (h : (syncMethodLogged binmsg index c).result = .ok out) : out.1 ≤ binmsg.length + 1 := by
  rw [syncMethodLogged] at h
  obtain ⟨signature, -, h⟩ := Traced.result_bind_eq_ok.mp h
  obtain ⟨methodId, -, h⟩ := Traced.result_bind_eq_ok.mp h
  by_cases hsignature : signature ≠ methodSignature
  · rw [if_pos hsignature] at h
    cases h
  · rw [if_neg hsignature] at h
    obtain ⟨l, -, h⟩ := Traced.result_bind_eq_ok.mp h
    obtain ⟨methodName, -, h⟩ := Traced.result_bind_eq_ok.mp h
    obtain ⟨l', -, h⟩ := Traced.result_bind_eq_ok.mp h
    obtain ⟨parameters, -, h⟩ := Traced.result_bind_eq_ok.mp h
    obtain ⟨t, ht, h⟩ := Traced.result_bind_eq_ok.mp h
    obtain ⟨_, -, h⟩ := Traced.result_bind_eq_ok.mp h
    have hbounds := bounds_of_bytesAt ht Nat.one_ne_zero
    have hend : out.1 = index + 11 + ofBytes l + 2 + ofBytes l' := by
      split_ifs at h
      · cases h
        rfl
      · obtain ⟨_, -, h⟩ := Traced.result_bind_eq_ok.mp h
        cases h
        rfl
    omega

/-- A table that is read ends at the null behind the string at the latest. -/
theorem end_syncMethodsLogged {binmsg : Bytes} {n index : ℕ} {c : NymphServerInstance}
    {out : ℕ × NymphServerInstance} (hindex : index ≤ binmsg.length + 1)
    (h : (syncMethodsLogged binmsg n index c).result = .ok out) : out.1 ≤ binmsg.length + 1 := by
  induction n generalizing index c with
  | zero =>
    cases h
    exact hindex
  | succ n ih =>
    rw [syncMethodsLogged] at h
    obtain ⟨⟨index', c'⟩, hmethod, hrest⟩ := Traced.result_bind_eq_ok.mp h
    exact ih (end_syncMethodLogged hmethod) hrest

/-- A table that is read has at least eleven characters, and ends with its string or the null
behind it. -/
theorem end_syncLogged {c : NymphServerInstance} {binmsg : Bytes}
    {out : ℕ × NymphServerInstance} (h : (syncLogged c binmsg).result = .ok out) :
    11 ≤ binmsg.length ∧ out.1 ≤ binmsg.length + 1 := by
  rw [syncLogged] at h
  split_ifs at h with hshort
  · cases h
  · obtain ⟨_, -, h⟩ := Traced.result_bind_eq_ok.mp h
    obtain ⟨_, -, h⟩ := Traced.result_bind_eq_ok.mp h
    split_ifs at h
    · cases h
    · cases h
    · exact ⟨by omega, end_syncMethodsLogged (by omega) h⟩

/-- A table of 2^32 bytes or more does not survive. -/
theorem not_transfersWhole_of_long {methods : List NymphMethod} (c : NymphServerInstance)
    (hlong : 2 ^ 32 ≤ (methodsTable methods).length) : ¬TransfersWhole c methods := by
  rintro ⟨hresult, -⟩
  obtain ⟨hpos, hend⟩ := end_syncLogged hresult
  have hreceived : (receivedTable (methodsTable methods)).length =
      (methodsTable methods).length % 2 ^ 32 := by
    rw [receivedTable, UInt32.toNat_ofNat', List.length_take]
    exact Nat.min_eq_left (Nat.mod_le _ _)
  dsimp only at hend
  omega

/-- What `setId` serialised and `syncMethods` concatenated is parsed to its end, with the methods
in their order and all but the one with ID 0 added, if and only if the string is shorter than 2^32
bytes. -/
theorem transfersWhole_iff {methods : List NymphMethod} (h : Listable methods)
    (c : NymphServerInstance) :
    (∀ s : NymphRemoteClient, s.Intact → listed s s.methodIds.entries = methods →
      serializedMethods s = some (methodsTable methods)) ∧
    (TransfersWhole c methods ↔ (methodsTable methods).length < 2 ^ 32) := by
  apply And.intro
  · intro s hs hlisted
    rw [serializedMethods_eq_methodsTable hs, hlisted]
  · apply Iff.intro
    · intro hwhole
      by_contra hlong
      exact not_transfersWhole_of_long c (by omega) hwhole
    · exact h.transfersWhole c

/-- Methods without parameters, whose names are the bytes of their IDs. -/
def numberedMethods (n : ℕ) : List NymphMethod :=
  (List.range n).map fun i =>
    (NymphMethod.make (toBytes 4 i) [] .null dummyCallback).setId (.ofNat i)

/-- There are as many methods as that. -/
theorem length_numberedMethods (n : ℕ) : (numberedMethods n).length = n := by
  rw [numberedMethods, List.length_map, List.length_range]

/-- The methods can be listed if they have different IDs. -/
theorem listable_numberedMethods {n : ℕ} (hpos : 0 < n) (hn : n ≤ 2 ^ 32) :
    Listable (numberedMethods n) := by
  constructor
  · apply List.ne_nil_of_length_pos
    rw [length_numberedMethods]
    exact hpos
  · rw [numberedMethods, List.pairwise_map]
    apply List.Pairwise.imp_of_mem _ List.pairwise_lt_range
    intro i j hi hj hlt
    have hjn := List.mem_range.mp hj
    change UInt32.ofNat i < UInt32.ofNat j
    rw [UInt32.lt_iff_toNat_lt, UInt32.toNat_ofNat', UInt32.toNat_ofNat',
      Nat.mod_eq_of_lt (by omega), Nat.mod_eq_of_lt (by omega)]
    exact hlt
  · intro m hm
    obtain ⟨i, -, rfl⟩ := List.mem_map.mp hm
    rfl
  · intro m hm
    obtain ⟨i, -, rfl⟩ := List.mem_map.mp hm
    have hname : (toBytes 4 i).length ≤ 255 := by
      rw [toBytes_length]
      decide
    exact ⟨hname, Nat.zero_le _, fun t ht => absurd ht List.not_mem_nil, rfl⟩

/-- A table of two methods. -/
theorem transfersWhole_two : TransfersWhole connected (numberedMethods 2) := by
  have hlistable : Listable (numberedMethods 2) :=
    listable_numberedMethods (by decide) (by decide)
  exact (transfersWhole_iff hlistable connected).2.mpr (by decide +kernel)

/-- A table of 2^29 methods does not. -/
theorem not_transfersWhole_many : Listable (numberedMethods (2 ^ 29)) ∧
    ¬TransfersWhole connected (numberedMethods (2 ^ 29)) := by
  have hlistable : Listable (numberedMethods (2 ^ 29)) :=
    listable_numberedMethods (by omega) (by omega)
  have hlength := hlistable.length_le
  rw [length_numberedMethods] at hlength
  exact ⟨hlistable, not_transfersWhole_of_long connected (by omega)⟩

end NymphRpc
