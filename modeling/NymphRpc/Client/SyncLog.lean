import NymphRpc.Base.Traced
import NymphRpc.Client.MethodIds

/-!
# What synchronising reads

`NymphServerInstance::sync` again, with a log of what it reads through pointers into the string,
of the entries it has read to their end, and of those it passes to `addMethod`. The end of the
last entry comes with the tables.

The index is a `uint32_t` in the source. A string that was received has fewer than 2^31
characters, and nothing is read behind its end and the null there, so the index does not wrap
around.
-/

namespace NymphRpc

open LittleEndian Buffer

/-- An entry of the table, as it is read. -/
structure SyncEntry where
  methodId : UInt32
  methodName : Bytes
  parameters : List NymphTypes
  returnType : NymphTypes
  deriving DecidableEq

/-- What `sync` does, as far as it is logged. -/
inductive SyncEvent
  | read (index n : ℕ)
  | entry (e : SyncEntry)
  | added (e : SyncEntry)
  deriving DecidableEq

/-- A computation that reads the table. -/
abbrev SyncLog := Traced SyncFault SyncEvent

/-- The `n` bytes at `&binmsg[index]`, logged. -/
def readAt (binmsg : Bytes) (index n : ℕ) : SyncLog Bytes := do
  Traced.tell (.read index n)
  Traced.ofExcept (bytesAt binmsg index n)

namespace SyncEntry

/-- The bytes of an entry. -/
def encode (e : SyncEntry) : Bytes :=
  methodSignature ++ (toBytes 4 e.methodId.toNat ++ (toBytes 1 e.methodName.length ++
    (e.methodName ++ (toBytes 1 e.parameters.length ++ (e.parameters.map NymphTypes.toByte ++
      [e.returnType.toByte])))))

/-- The method that is made of an entry. -/
def method (e : SyncEntry) : NymphMethod :=
  .make e.methodName e.parameters e.returnType NymphServerInstance.dummyCallback

/-- Add the method of an entry, unless it is the built-in one. -/
def addTo (c : NymphServerInstance) (e : SyncEntry) : NymphServerInstance :=
  if e.methodId = 0 then c else NymphServerInstance.addMethod c e.methodName e.method

end SyncEntry

namespace NymphServerInstance

/-- `syncMethod`, logged. -/
def syncMethodLogged (binmsg : Bytes) (index : ℕ) (c : NymphServerInstance) :
    SyncLog (ℕ × NymphServerInstance) := do
  let signature ← Traced.ofExcept (substr binmsg index 6)
  let methodId ← readAt binmsg (index + 6) 4
  if signature ≠ methodSignature then
    Traced.fault .noMethodSignature
  else
    let l ← readAt binmsg (index + 10) 1
    let methodName ← Traced.ofExcept (substr binmsg (index + 11) (ofBytes l))
    let index := index + 11 + ofBytes l
    let l ← readAt binmsg index 1
    let parameters ← readAt binmsg (index + 1) (ofBytes l)
    let t ← readAt binmsg (index + 1 + ofBytes l) 1
    let index := index + 2 + ofBytes l
    let e : SyncEntry := ⟨.ofNat (ofBytes methodId), methodName, parameters.map NymphTypes.ofByte,
      NymphTypes.ofByte (.ofNat (ofBytes t))⟩
    Traced.tell (.entry e)
    if ofBytes methodId = 0 then
      pure (index, c)
    else
      Traced.tell (.added e)
      pure (index, addMethod c methodName e.method)

/-- The loop over the entries, logged. -/
def syncMethodsLogged (binmsg : Bytes) : ℕ → ℕ → NymphServerInstance →
    SyncLog (ℕ × NymphServerInstance)
  | 0, index, c => pure (index, c)
  | n + 1, index, c => do
    let (index, c) ← syncMethodLogged binmsg index c
    syncMethodsLogged binmsg n index c

/-- `sync`, once the table was received, logged. -/
def syncLogged (c : NymphServerInstance) (binmsg : Bytes) :
    SyncLog (ℕ × NymphServerInstance) := do
  if binmsg.length < 11 then
    Traced.fault .short
  else
    let signature ← Traced.ofExcept (substr binmsg 0 7)
    let methodCount ← readAt binmsg 7 4
    if signature ≠ methodsSignature then
      Traced.fault .noMethodsSignature
    else if ofBytes methodCount = 0 then
      Traced.fault .noMethods
    else
      syncMethodsLogged binmsg (ofBytes methodCount) 11 c

/-! ### The log aside -/

/-- A logged read reads what it read without a log. -/
theorem result_readAt (binmsg : Bytes) (index n : ℕ) :
    (readAt binmsg index n).result = bytesAt binmsg index n := rfl

/-- Reading an entry does what it did without a log. -/
theorem result_syncMethodLogged (binmsg : Bytes) (index : ℕ) (c : NymphServerInstance) :
    (syncMethodLogged binmsg index c).result = syncMethod binmsg index c := by
  simp only [syncMethodLogged, syncMethod, Traced.result_bind, Traced.result_ofExcept,
    result_readAt, apply_ite Traced.result, Traced.result_fault, Traced.result_tell,
    Traced.result_pure]
  rfl

/-- Reading the entries does what it did without a log. -/
theorem result_syncMethodsLogged (binmsg : Bytes) (n index : ℕ) (c : NymphServerInstance) :
    (syncMethodsLogged binmsg n index c).result.map Prod.snd = syncMethods binmsg n index c := by
  induction n generalizing index c with
  | zero => rfl
  | succ n ih =>
    rw [syncMethodsLogged, syncMethods, Traced.result_bind, result_syncMethodLogged]
    cases syncMethod binmsg index c with
    | error e => rfl
    | ok out => exact ih out.1 out.2

/-- `sync` does what it did without a log. -/
theorem result_syncLogged (c : NymphServerInstance) (binmsg : Bytes) :
    (syncLogged c binmsg).result.map Prod.snd = sync c binmsg := by
  rw [syncLogged, sync]
  split_ifs with hshort
  · rfl
  · rw [Traced.result_bind, Traced.result_ofExcept]
    cases substr binmsg 0 7 with
    | error e => rfl
    | ok signature =>
      change (_ >>= _ : SyncLog _).result.map Prod.snd = _ >>= _
      rw [Traced.result_bind, result_readAt]
      cases bytesAt binmsg 7 4 with
      | error e => rfl
      | ok methodCount =>
        change (ite _ _ _ : SyncLog _).result.map Prod.snd = ite _ _ _
        split_ifs
        · rfl
        · rfl
        · exact result_syncMethodsLogged _ _ _ _

/-! ### Entries as they were written -/

end NymphServerInstance

section

variable {α : Type} {binmsg seg : Bytes} {p n : ℕ}

/-- A segment that stands in the string is read, and that is logged. -/
theorem readAt_holds (h : Holds binmsg p seg) (hn : seg.length = n) (f : Bytes → SyncLog α) :
    readAt binmsg p n >>= f = Traced.tell (.read p n) >>= fun _ => f seg := by
  rw [readAt, bytesAt_holds h hn]
  rfl

/-- A segment that stands in the string is found, and nothing is logged. -/
theorem substr_bind_holds (h : Holds binmsg p seg) (hp : p ≤ binmsg.length)
    (hn : seg.length = n) (f : Bytes → SyncLog α) :
    Traced.ofExcept (substr binmsg p n) >>= f = f seg := by
  rw [substr_holds h hp hn]
  rfl

end

namespace SyncEntry

/-- The lengths of an entry fit a byte, and its types are as a byte is cast to them. -/
structure WellFormed (e : SyncEntry) : Prop where
  methodName : e.methodName.length ≤ 255
  parameters : e.parameters.length ≤ 255
  types : ∀ t ∈ e.parameters, NymphTypes.ofByte t.toByte = t
  returnType : NymphTypes.ofByte e.returnType.toByte = e.returnType

/-- The log of an entry at an index. -/
def log (e : SyncEntry) (index : ℕ) : List SyncEvent :=
  [.read (index + 6) 4, .read (index + 10) 1, .read (index + 11 + e.methodName.length) 1,
    .read (index + 11 + e.methodName.length + 1) e.parameters.length,
    .read (index + 11 + e.methodName.length + 1 + e.parameters.length) 1, .entry e] ++
  if e.methodId = 0 then [] else [.added e]

/-- The size of an entry. -/
theorem encode_length (e : SyncEntry) :
    e.encode.length = 13 + e.methodName.length + e.parameters.length := by
  simp only [encode, methodSignature, List.length_append, toBytes_length, List.length_map,
    List.length_cons, List.length_nil]
  omega

end SyncEntry

namespace NymphServerInstance

/-- An entry is read as it was written. -/
theorem syncMethodLogged_encode {binmsg : Bytes} {index : ℕ} {e : SyncEntry} (he : e.WellFormed)
    (h : Holds binmsg index e.encode) (c : NymphServerInstance) :
    syncMethodLogged binmsg index c =
      Traced.tellAll (e.log index) >>= fun _ => pure (index + e.encode.length, e.addTo c) := by
  have hend := h.add_length_le (by simp [SyncEntry.encode, methodSignature])
  have hsix : methodSignature.length = 6 := rfl
  have hlength := e.encode_length
  obtain ⟨hname, hparameters, htypes, hreturn⟩ := he
  obtain ⟨hsignature, h⟩ := Holds.append_iff.mp h
  obtain ⟨hid, h⟩ := Holds.append_iff.mp h
  obtain ⟨hl, h⟩ := Holds.append_iff.mp h
  obtain ⟨hchars, h⟩ := Holds.append_iff.mp h
  obtain ⟨hcount, h⟩ := Holds.append_iff.mp h
  obtain ⟨htypesAt, htype⟩ := Holds.append_iff.mp h
  simp only [toBytes_length, hsix, List.length_map] at hid hl hchars hcount htypesAt htype
  have hlValue : ofBytes (toBytes 1 e.methodName.length) = e.methodName.length :=
    ofBytes_toBytes (by omega)
  have hcountValue : ofBytes (toBytes 1 e.parameters.length) = e.parameters.length :=
    ofBytes_toBytes (by omega)
  have hidValue : ofBytes (toBytes 4 e.methodId.toNat) = e.methodId.toNat :=
    ofBytes_toBytes e.methodId.toNat_lt
  have hbyte : UInt8.ofNat (ofBytes [e.returnType.toByte]) = e.returnType.toByte := by
    simp [ofBytes]
  have hcast : (e.parameters.map NymphTypes.toByte).map NymphTypes.ofByte = e.parameters := by
    rw [List.map_map]
    exact (List.map_congr_left htypes).trans (List.map_id _)
  have hzero : e.methodId.toNat = 0 ↔ e.methodId = 0 := by
    rw [← UInt32.toNat_inj]
    rfl
  rw [syncMethodLogged, substr_bind_holds hsignature (by omega) hsix,
    readAt_holds hid (toBytes_length _ _), if_neg (by simp),
    readAt_holds hl (toBytes_length _ _), hlValue, substr_bind_holds hchars (by omega) rfl]
  dsimp only
  rw [readAt_holds hcount (toBytes_length _ _), hcountValue,
    readAt_holds htypesAt (List.length_map _), readAt_holds htype (List.length_singleton),
    hidValue, hcast, hbyte, hreturn, UInt32.ofNat_toNat, hlength]
  simp only [hzero]
  have hindex : index + (13 + e.methodName.length + e.parameters.length) =
      index + 11 + e.methodName.length + 2 + e.parameters.length := by omega
  rw [hindex, SyncEntry.addTo, SyncEntry.log]
  split_ifs <;> rfl

/-- The log of entries that stand one after the other. -/
def entriesLog : ℕ → List SyncEntry → List SyncEvent
  | _, [] => []
  | index, e :: es => e.log index ++ entriesLog (index + e.encode.length) es

/-- Entries are read as they were written; if more are expected then the loop goes on. -/
theorem syncMethodsLogged_encode {binmsg : Bytes} {index : ℕ} {es : List SyncEntry}
    (hes : ∀ e ∈ es, e.WellFormed) (h : Holds binmsg index (es.map SyncEntry.encode).flatten)
    (n : ℕ) (c : NymphServerInstance) :
    syncMethodsLogged binmsg (es.length + n) index c =
      Traced.tellAll (entriesLog index es) >>= fun _ =>
        syncMethodsLogged binmsg n (index + (es.map SyncEntry.encode).flatten.length)
          (es.foldl SyncEntry.addTo c) := by
  induction es generalizing index c with
  | nil =>
    rw [List.length_nil, Nat.zero_add]
    rfl
  | cons e es ih =>
    rw [List.map_cons, List.flatten_cons] at h ⊢
    obtain ⟨he, hrest⟩ := Holds.append_iff.mp h
    have hread := ih (fun e' he' => hes e' (List.mem_cons_of_mem _ he')) hrest (e.addTo c)
    rw [List.length_cons, Nat.succ_add, syncMethodsLogged,
      syncMethodLogged_encode (hes e List.mem_cons_self) he, List.length_append, List.foldl_cons,
      ← Nat.add_assoc, entriesLog, Traced.tellAll_append_bind, ← hread, Traced.tellAll_pure_bind]

/-- Behind the signature and a count other than zero the entries are read. -/
theorem syncLogged_count (c : NymphServerInstance) {count : ℕ} (hcount : count < 2 ^ 32)
    (body : Bytes) :
    syncLogged c (methodsSignature ++ (toBytes 4 count ++ body)) =
      Traced.tell (.read 7 4) >>= fun _ =>
        if count = 0 then Traced.fault .noMethods
        else syncMethodsLogged (methodsSignature ++ (toBytes 4 count ++ body)) count 11 c := by
  have hseven : methodsSignature.length = 7 := rfl
  obtain ⟨hsignature, hrest⟩ := Holds.append_iff.mp
    (Holds.self (methodsSignature ++ (toBytes 4 count ++ body)) [])
  obtain ⟨hcountAt, -⟩ := Holds.append_iff.mp hrest
  rw [List.append_nil] at hsignature hcountAt
  rw [hseven, Nat.zero_add] at hcountAt
  have hvalue : ofBytes (toBytes 4 count) = count := ofBytes_toBytes hcount
  have hlong : 11 ≤ (methodsSignature ++ (toBytes 4 count ++ body)).length := by
    simp only [List.length_append, toBytes_length, hseven]
    omega
  rw [syncLogged, if_neg (by omega), substr_bind_holds hsignature (by omega) hseven,
    readAt_holds hcountAt (toBytes_length _ _), if_neg (by simp), hvalue]

/-- What stands behind the signature and the count. -/
theorem holds_body {count : ℕ} {body rest binmsg : Bytes}
    (h : binmsg = methodsSignature ++ (toBytes 4 count ++ (body ++ rest))) :
    Holds binmsg 11 body := by
  have hheader : (methodsSignature ++ toBytes 4 count).length = 11 := by
    rw [List.length_append, toBytes_length]
    rfl
  have happend := Holds.append (methodsSignature ++ toBytes 4 count) body rest
  rwa [hheader, List.append_assoc, ← h] at happend

/-- The first entries of a table are read as they were written. -/
theorem syncLogged_encode (c : NymphServerInstance) {es : List SyncEntry}
    (hes : ∀ e ∈ es, e.WellFormed) {n : ℕ} (hcount : es.length + n < 2 ^ 32)
    (hpos : 0 < es.length + n) (rest : Bytes) {binmsg : Bytes}
    (h : binmsg = methodsSignature ++
      (toBytes 4 (es.length + n) ++ ((es.map SyncEntry.encode).flatten ++ rest))) :
    syncLogged c binmsg = Traced.tellAll (.read 7 4 :: entriesLog 11 es) >>= fun _ =>
      syncMethodsLogged binmsg n (11 + (es.map SyncEntry.encode).flatten.length)
        (es.foldl SyncEntry.addTo c) := by
  rw [h, syncLogged_count c hcount, if_neg (by omega), ← h,
    syncMethodsLogged_encode hes (holds_body h)]
  rfl

/-- The entries of a log. -/
def entries (log : List SyncEvent) : List SyncEntry :=
  log.filterMap fun
    | .entry e => some e
    | _ => none

/-- The entries of a log whose methods were added. -/
def additions (log : List SyncEvent) : List SyncEntry :=
  log.filterMap fun
    | .added e => some e
    | _ => none

/-- The log of some entries shows them in their order, and that all were added but those with
ID 0. -/
theorem entries_entriesLog (index : ℕ) (es : List SyncEntry) :
    entries (entriesLog index es) = es ∧
      additions (entriesLog index es) = es.filter fun e => e.methodId ≠ 0 := by
  induction es generalizing index with
  | nil => exact ⟨rfl, rfl⟩
  | cons e es ih =>
    obtain ⟨hentries, hadditions⟩ := ih (index + e.encode.length)
    have happend : ∀ l l', entries (l ++ l') = entries l ++ entries l' ∧
        additions (l ++ l') = additions l ++ additions l' :=
      fun l l' => ⟨List.filterMap_append, List.filterMap_append⟩
    rw [entriesLog, (happend _ _).1, (happend _ _).2, hentries, hadditions, SyncEntry.log]
    by_cases hid : e.methodId = 0
    · rw [if_pos hid, List.filter_cons_of_neg (by simp [hid])]
      exact ⟨rfl, rfl⟩
    · rw [if_neg hid, List.filter_cons_of_pos (by simp [hid])]
      exact ⟨rfl, rfl⟩

end NymphServerInstance

end NymphRpc
