import NymphRpc.Client.CallById
import NymphRpc.Client.SyncLog

/-!
# Synchronising with any answer

`sync` checks that eleven characters are there, and then follows the counts and lengths it reads.
So it stays inside the string exactly if that is a whole table, or if one of its four checks fails
before it gets to the end; and behind a whole table it accepts anything. What it makes a string of
is whatever `callMethod` handed over: after an exception that is a null pointer.
-/

namespace NymphRpc

open LittleEndian Buffer NymphServerInstance

/-- A read stays inside a string. -/
def SyncEvent.Inside (length : ℕ) : SyncEvent → Prop
  | .read index n => n = 0 ∨ index + n ≤ length
  | .entry _ | .added _ => True

/-- A whole table, and nothing behind it. -/
def CompleteTable (binmsg : Bytes) : Prop :=
  ∃ es : List SyncEntry, (∀ e ∈ es, e.WellFormed) ∧ es.length < 2 ^ 32 ∧
    binmsg = methodsSignature ++ (toBytes 4 es.length ++ (es.map SyncEntry.encode).flatten)

/-- Some entries, fewer than expected, and then ten characters that do not begin with the
signature of one. -/
def StopsEarly (body : Bytes) (n : ℕ) : Prop :=
  ∃ (es : List SyncEntry) (m : ℕ) (rest : Bytes), (∀ e ∈ es, e.WellFormed) ∧ 0 < m ∧
    es.length + m = n ∧ 10 ≤ rest.length ∧ rest.take 6 ≠ methodSignature ∧
      body = (es.map SyncEntry.encode).flatten ++ rest

/-- A string that one of the four checks refuses. -/
inductive Refused (binmsg : Bytes) : Prop
  | short (h : binmsg.length < 11)
  | noMethodsSignature (hlength : 11 ≤ binmsg.length) (h : binmsg.take 7 ≠ methodsSignature)
  | noMethods (body : Bytes) (h : binmsg = methodsSignature ++ (toBytes 4 0 ++ body))
  | noMethodSignature (count : ℕ) (body : Bytes) (hcount : count < 2 ^ 32)
      (hstops : StopsEarly body count)
      (h : binmsg = methodsSignature ++ (toBytes 4 count ++ body))

/-- `sync` returns `false`. -/
def ReturnsFalse {α : Type} : Except SyncFault α → Prop
  | .error .short | .error .noMethodsSignature => True
  | .error .noMethods | .error .noMethodSignature => True
  | .error .outOfRange | .error .outOfBounds | .ok _ => False

/-- No read leaves the string, and `sync` returns `false` unless it is a whole table. -/
def SyncsSafely (c : NymphServerInstance) (binmsg : Bytes) : Prop :=
  (∀ w ∈ (syncLogged c binmsg).log, w.Inside binmsg.length) ∧
    (¬CompleteTable binmsg → ReturnsFalse (syncLogged c binmsg).result)

/-- A value that was handed over is a string, which `sync` reads safely. -/
def UsesSafely (c : NymphServerInstance) (retval : Option NymphType) : Prop :=
  ∃ t binmsg, retval = some t ∧ t.getString = some binmsg ∧ SyncsSafely c binmsg

/-! ### Reads that stay inside -/

section

variable {binmsg : Bytes} {index : ℕ} {c : NymphServerInstance} {stop : SyncFault → Prop}

/-- A string is cut at a position into a segment and what follows it. -/
theorem drop_eq_take_append (binmsg : Bytes) (index n : ℕ) :
    binmsg.drop index = (binmsg.drop index).take n ++ binmsg.drop (index + n) := by
  rw [← List.drop_drop, List.take_append_drop]

/-- A read that stays inside gets what stands there. -/
theorem ensures_readAt (binmsg : Bytes) (index n : ℕ) :
    Traced.Ensures (SyncEvent.Inside binmsg.length) (readAt binmsg index n)
      (fun seg => seg = (binmsg.drop index).take n ∧ seg.length = n ∧
        (n = 0 ∨ index + n ≤ binmsg.length))
      stop (fun _ => True) := by
  apply Traced.Ensures.tell_bind
  intro hinside
  refine ⟨trivial, ?_⟩
  have hinside : n = 0 ∨ index + n ≤ binmsg.length := hinside
  have hlength : ((binmsg.drop index).take n).length = n := by
    rw [List.length_take, List.length_drop]
    omega
  have hread : bytesAt binmsg index n = .ok ((binmsg.drop index).take n) :=
    bytesAt_holds (List.take_prefix _ _) hlength
  rw [hread]
  exact Traced.Ensures.pure ⟨rfl, hlength, hinside⟩

/-- A position inside the string is found. -/
theorem ensures_substr {n : ℕ} (h : index ≤ binmsg.length) :
    Traced.Ensures (SyncEvent.Inside binmsg.length)
      (Traced.ofExcept (substr binmsg index n) : SyncLog Bytes)
      (fun seg => seg = (binmsg.drop index).take n) stop (fun _ => True) := by
  rw [substr, if_neg (by omega)]
  exact Traced.Ensures.pure rfl

/-- The type of a byte is cast back to that byte. -/
theorem NymphTypes.toByte_ofByte (b : UInt8) : (NymphTypes.ofByte b).toByte = b := by
  unfold NymphTypes.ofByte
  split <;> rfl

/-- The parts of an entry, read one after the other, are an entry. -/
theorem encode_of_parts {methodId l methodName l' parameters t : Bytes}
    (hid : methodId.length = 4) (hl : l.length = 1) (hname : methodName.length = ofBytes l)
    (hl' : l'.length = 1) (hparameters : parameters.length = ofBytes l') (ht : t.length = 1) :
    let e : SyncEntry := ⟨.ofNat (ofBytes methodId), methodName, parameters.map NymphTypes.ofByte,
      NymphTypes.ofByte (.ofNat (ofBytes t))⟩
    e.WellFormed ∧ e.encode =
      methodSignature ++ (methodId ++ (l ++ (methodName ++ (l' ++ (parameters ++ t))))) := by
  intro e
  have hlt : ∀ bs : Bytes, bs.length = 1 → ofBytes bs ≤ 255 := by
    intro bs hbs
    have hbyte := ofBytes_lt bs
    rw [hbs] at hbyte
    omega
  have hwritten : ∀ (bs : Bytes) (n : ℕ), bs.length = n → toBytes n (ofBytes bs) = bs := by
    rintro bs n rfl
    exact toBytes_ofBytes bs
  have hidNat : (UInt32.ofNat (ofBytes methodId)).toNat = ofBytes methodId := by
    have hbound := ofBytes_lt methodId
    rw [hid] at hbound
    rw [UInt32.toNat_ofNat']
    exact Nat.mod_eq_of_lt hbound
  have htypes : (parameters.map NymphTypes.ofByte).map NymphTypes.toByte = parameters := by
    rw [List.map_map]
    exact (List.map_congr_left fun b _ => NymphTypes.toByte_ofByte b).trans (List.map_id _)
  have htype : [(NymphTypes.ofByte (.ofNat (ofBytes t))).toByte] = t := by
    obtain ⟨b, rfl⟩ := List.length_eq_one_iff.mp ht
    rw [NymphTypes.toByte_ofByte]
    simp [ofBytes]
  apply And.intro
  · refine ⟨?_, ?_, ?_, ?_⟩
    · exact hname.le.trans (hlt l hl)
    · rw [List.length_map]
      exact hparameters.le.trans (hlt l' hl')
    · intro type htype
      obtain ⟨b, -, rfl⟩ := List.mem_map.mp htype
      rw [NymphTypes.toByte_ofByte]
    · rw [NymphTypes.toByte_ofByte]
  · rw [SyncEntry.encode, hidNat, hwritten _ _ hid, hname, hwritten _ _ hl, List.length_map,
      hparameters, hwritten _ _ hl', htypes, htype]

/-- An entry whose reads stay inside is one, or does not begin with the signature. -/
theorem ensures_syncMethodLogged (hindex : index ≤ binmsg.length) :
    Traced.Ensures (SyncEvent.Inside binmsg.length) (syncMethodLogged binmsg index c)
      (fun out => ∃ e : SyncEntry, e.WellFormed ∧ out.1 ≤ binmsg.length ∧
        binmsg.drop index = e.encode ++ binmsg.drop out.1)
      (fun f => f = .noMethodSignature ∧ 10 ≤ (binmsg.drop index).length ∧
        (binmsg.drop index).take 6 ≠ methodSignature)
      (fun _ => True) := by
  rw [syncMethodLogged]
  refine (ensures_substr hindex).bind fun signature hsignature => ?_
  refine (ensures_readAt binmsg (index + 6) 4).bind fun methodId hid => ?_
  by_cases hmethod : signature ≠ methodSignature
  · rw [if_pos hmethod]
    refine Traced.Ensures.fault ⟨rfl, ?_, ?_⟩
    · rw [List.length_drop]
      omega
    · rwa [← hsignature]
  · rw [if_neg hmethod]
    refine (ensures_readAt binmsg (index + 10) 1).bind fun l hl => ?_
    refine (ensures_substr (by omega)).bind fun methodName hname => ?_
    refine (ensures_readAt binmsg (index + 11 + ofBytes l) 1).bind fun l' hl' => ?_
    refine (ensures_readAt binmsg _ (ofBytes l')).bind fun parameters hparameters => ?_
    refine (ensures_readAt binmsg _ 1).bind fun t ht => ?_
    have hnameLength : methodName.length = ofBytes l := by
      rw [hname, List.length_take, List.length_drop]
      omega
    obtain ⟨hwellFormed, hencode⟩ := encode_of_parts hid.2.1 hl.2.1 hnameLength hl'.2.1
      hparameters.2.1 ht.2.1
    have hentry : ∃ e : SyncEntry, e.WellFormed ∧
        index + 11 + ofBytes l + 2 + ofBytes l' ≤ binmsg.length ∧
        binmsg.drop index = e.encode ++ binmsg.drop (index + 11 + ofBytes l + 2 + ofBytes l') := by
      refine ⟨_, hwellFormed, by omega, ?_⟩
      have hend : index + 11 + ofBytes l + 2 + ofBytes l' =
          index + 11 + ofBytes l + 1 + ofBytes l' + 1 := by omega
      rw [hencode, drop_eq_take_append binmsg index 6, ← hsignature,
        drop_eq_take_append binmsg (index + 6) 4, ← hid.1,
        drop_eq_take_append binmsg (index + 10) 1, ← hl.1,
        drop_eq_take_append binmsg (index + 11) (ofBytes l), ← hname,
        drop_eq_take_append binmsg (index + 11 + ofBytes l) 1, ← hl'.1,
        drop_eq_take_append binmsg (index + 11 + ofBytes l + 1) (ofBytes l'), ← hparameters.1,
        drop_eq_take_append binmsg (index + 11 + ofBytes l + 1 + ofBytes l') 1, ← ht.1,
        not_not.mp hmethod, hend]
      simp only [List.append_assoc]
    apply Traced.Ensures.tell_bind
    intro _
    refine ⟨trivial, ?_⟩
    split_ifs
    · exact Traced.Ensures.pure hentry
    · apply Traced.Ensures.tell_bind
      intro _
      exact ⟨trivial, Traced.Ensures.pure hentry⟩

/-- An entry before such entries. -/
theorem StopsEarly.cons {body : Bytes} {n : ℕ} {e : SyncEntry} (he : e.WellFormed)
    (h : StopsEarly body n) : StopsEarly (e.encode ++ body) (n + 1) := by
  obtain ⟨es, m, rest, hes, hm, hlength, hrest, hsignature, rfl⟩ := h
  refine ⟨e :: es, m, rest, List.forall_mem_cons.mpr ⟨he, hes⟩, hm, ?_, hrest, hsignature, ?_⟩
  · rw [List.length_cons]
    omega
  · rw [List.map_cons, List.flatten_cons, List.append_assoc]

/-- Entries whose reads stay inside are there, or the loop comes to what is none. -/
theorem ensures_syncMethodsLogged {n : ℕ} (hindex : index ≤ binmsg.length) :
    Traced.Ensures (SyncEvent.Inside binmsg.length) (syncMethodsLogged binmsg n index c)
      (fun out => ∃ es : List SyncEntry, (∀ e ∈ es, e.WellFormed) ∧ es.length = n ∧
        binmsg.drop index = (es.map SyncEntry.encode).flatten ++ binmsg.drop out.1)
      (fun f => f = .noMethodSignature ∧ StopsEarly (binmsg.drop index) n) (fun _ => True) := by
  induction n generalizing index c with
  | zero => exact Traced.Ensures.pure ⟨[], by simp, rfl, rfl⟩
  | succ n ih =>
    have hfirst : Traced.Ensures (SyncEvent.Inside binmsg.length) (syncMethodLogged binmsg index c)
        (fun out => ∃ e : SyncEntry, e.WellFormed ∧ out.1 ≤ binmsg.length ∧
          binmsg.drop index = e.encode ++ binmsg.drop out.1)
        (fun f => f = .noMethodSignature ∧ StopsEarly (binmsg.drop index) (n + 1))
        (fun _ => True) := by
      apply (ensures_syncMethodLogged hindex).mono (fun _ h => h)
      rintro f ⟨hf, hlength, hsignature⟩
      exact ⟨hf, [], n + 1, _, by simp, by omega, by simp, hlength, hsignature, rfl⟩
    rw [syncMethodsLogged]
    apply hfirst.bind
    rintro ⟨index', c'⟩ ⟨e, he, hindex', hdrop⟩
    apply (ih hindex').mono
    · rintro out ⟨es, hes, hlength, hrest⟩
      refine ⟨e :: es, List.forall_mem_cons.mpr ⟨he, hes⟩, congrArg Nat.succ hlength, ?_⟩
      rw [hdrop, hrest, List.map_cons, List.flatten_cons, List.append_assoc]
    · rintro f ⟨hf, hstops⟩
      rw [hdrop]
      exact ⟨hf, hstops.cons he⟩

/-- A string whose reads stay inside begins with a table, or is refused. -/
theorem ensures_syncLogged (c : NymphServerInstance) (binmsg : Bytes) :
    Traced.Ensures (SyncEvent.Inside binmsg.length) (syncLogged c binmsg)
      (fun _ => ∃ (es : List SyncEntry) (rest : Bytes), (∀ e ∈ es, e.WellFormed) ∧
        es.length < 2 ^ 32 ∧ binmsg = methodsSignature ++
          (toBytes 4 es.length ++ ((es.map SyncEntry.encode).flatten ++ rest)))
      (fun _ => Refused binmsg) (fun _ => True) := by
  rw [syncLogged]
  by_cases hshort : binmsg.length < 11
  · rw [if_pos hshort]
    exact Traced.Ensures.fault (.short hshort)
  · rw [if_neg hshort]
    refine (ensures_substr (Nat.zero_le _)).bind fun signature hsignature => ?_
    refine (ensures_readAt binmsg 7 4).bind fun methodCount hcount => ?_
    rw [List.drop_zero] at hsignature
    by_cases hmethods : signature ≠ methodsSignature
    · rw [if_pos hmethods]
      exact Traced.Ensures.fault (.noMethodsSignature (by omega) (hsignature ▸ hmethods))
    · have hbytes : toBytes 4 (ofBytes methodCount) = methodCount := by
        have hwritten := toBytes_ofBytes methodCount
        rwa [hcount.2.1] at hwritten
      have hbound : ofBytes methodCount < 2 ^ 32 := by
        have hlt := ofBytes_lt methodCount
        rwa [hcount.2.1] at hlt
      have hheader : binmsg = methodsSignature ++
          (toBytes 4 (ofBytes methodCount) ++ binmsg.drop 11) := by
        rw [hbytes, hcount.1, ← drop_eq_take_append binmsg 7 4, ← not_not.mp hmethods, hsignature,
          List.take_append_drop]
      rw [if_neg hmethods]
      by_cases hzero : ofBytes methodCount = 0
      · rw [if_pos hzero]
        rw [hzero] at hheader
        exact Traced.Ensures.fault (.noMethods _ hheader)
      · rw [if_neg hzero]
        apply (ensures_syncMethodsLogged (by omega)).mono
        · rintro out ⟨es, hes, hlength, hdrop⟩
          refine ⟨es, binmsg.drop out.1, hes, by omega, ?_⟩
          rw [hlength, ← hdrop]
          exact hheader
        · rintro f ⟨-, hstops⟩
          exact Refused.noMethodSignature _ _ hbound hstops hheader

/-! ### Tables and refused strings -/

/-- The reads of entries that stand in the string stay inside. -/
theorem inside_entriesLog {es : List SyncEntry}
    (h : Holds binmsg index (es.map SyncEntry.encode).flatten)
    (hindex : index ≤ binmsg.length) : ∀ w ∈ entriesLog index es, w.Inside binmsg.length := by
  induction es generalizing index with
  | nil => exact fun w hw => absurd hw List.not_mem_nil
  | cons e es ih =>
    rw [List.map_cons, List.flatten_cons] at h
    obtain ⟨he, hrest⟩ := Holds.append_iff.mp h
    have hend := he.add_length_le (by simp [SyncEntry.encode, methodSignature])
    have hlength := e.encode_length
    intro w hw
    rcases List.mem_append.mp hw with hw | hw
    · rcases List.mem_append.mp hw with hw | hw
      · simp only [List.mem_cons, List.not_mem_nil, or_false] at hw
        rcases hw with rfl | rfl | rfl | rfl | rfl | rfl <;> simp only [SyncEvent.Inside] <;> omega
      · split_ifs at hw
        · cases hw
        · rw [List.mem_singleton.mp hw]
          trivial
    · exact ih hrest (by omega) w hw

/-- The entries that a string begins with are read inside. -/
theorem inside_table {es : List SyncEntry} {count : ℕ} {rest : Bytes}
    (h : binmsg = methodsSignature ++
      (toBytes 4 count ++ ((es.map SyncEntry.encode).flatten ++ rest))) :
    11 + (es.map SyncEntry.encode).flatten.length + rest.length = binmsg.length ∧
      ∀ w ∈ SyncEvent.read 7 4 :: entriesLog 11 es, w.Inside binmsg.length := by
  have hlength : 11 + (es.map SyncEntry.encode).flatten.length + rest.length = binmsg.length := by
    rw [h, List.length_append, List.length_append, List.length_append, toBytes_length,
      show methodsSignature.length = 7 from rfl]
    omega
  refine ⟨hlength, List.forall_mem_cons.mpr ⟨.inr (by omega), ?_⟩⟩
  exact inside_entriesLog (holds_body h) (by omega)

/-- A whole table is read inside. -/
theorem CompleteTable.inside (h : CompleteTable binmsg) (c : NymphServerInstance) :
    ∀ w ∈ (syncLogged c binmsg).log, w.Inside binmsg.length := by
  obtain ⟨es, hes, hcount, htable⟩ := h
  have htable' : binmsg = methodsSignature ++
      (toBytes 4 (es.length + 0) ++ ((es.map SyncEntry.encode).flatten ++ [])) := by
    rw [List.append_nil]
    exact htable
  have hinside := (inside_table htable').2
  cases es with
  | nil =>
    rw [htable, syncLogged_count c hcount, ← htable]
    exact fun w hw => hinside w hw
  | cons e es =>
    rw [syncLogged_encode c hes hcount (Nat.succ_pos _) [] htable', Traced.log_tellAll_bind]
    exact fun w hw => hinside w (by simpa [syncMethodsLogged] using hw)

/-- What is no entry is read inside, and refused. -/
theorem syncMethodLogged_none {rest : Bytes} (h : binmsg.drop index = rest)
    (hindex : index ≤ binmsg.length) (hrest : 10 ≤ rest.length)
    (hsignature : rest.take 6 ≠ methodSignature) :
    (∀ w ∈ (syncMethodLogged binmsg index c).log, w.Inside binmsg.length) ∧
      (syncMethodLogged binmsg index c).result = .error .noMethodSignature := by
  have hlength : rest.length = binmsg.length - index := by
    rw [← h, List.length_drop]
  have hid : Holds binmsg (index + 6) ((rest.drop 6).take 4) := by
    rw [← h, List.drop_drop]
    exact List.take_prefix _ _
  have hidLength : ((rest.drop 6).take 4).length = 4 := by
    rw [List.length_take, List.length_drop]
    omega
  rw [syncMethodLogged, substr, if_neg (by omega), h, Traced.ofExcept_ok, Traced.pure_bind,
    readAt_holds hid hidLength, if_pos hsignature]
  apply And.intro
  · intro w hw
    rw [List.mem_singleton.mp hw]
    exact .inr (by omega)
  · rfl

/-- A string that is refused is read inside, and `sync` returns `false`. -/
theorem Refused.safe (h : Refused binmsg) (c : NymphServerInstance) :
    (∀ w ∈ (syncLogged c binmsg).log, w.Inside binmsg.length) ∧
      ReturnsFalse (syncLogged c binmsg).result := by
  cases h with
  | short h =>
    rw [syncLogged, if_pos h]
    exact ⟨fun w hw => absurd hw List.not_mem_nil, trivial⟩
  | noMethodsSignature hlength h =>
    have hcount : Holds binmsg 7 ((binmsg.drop 7).take 4) := List.take_prefix _ _
    have hcountLength : ((binmsg.drop 7).take 4).length = 4 := by
      rw [List.length_take, List.length_drop]
      omega
    rw [syncLogged, if_neg (by omega), substr, if_neg (by omega), Traced.ofExcept_ok,
      Traced.pure_bind, readAt_holds hcount hcountLength, List.drop_zero, if_pos h]
    apply And.intro
    · intro w hw
      rw [List.mem_singleton.mp hw]
      exact .inr hlength
    · trivial
  | noMethods body h =>
    have hlength : 11 ≤ binmsg.length := by
      rw [h, List.length_append, List.length_append, toBytes_length,
        show methodsSignature.length = 7 from rfl]
      omega
    have hrun : syncLogged c binmsg =
        Traced.tell (.read 7 4) >>= fun _ => Traced.fault .noMethods := by
      rw [h, syncLogged_count c (by decide), if_pos rfl]
    rw [hrun]
    apply And.intro
    · intro w hw
      rw [List.mem_singleton.mp hw]
      exact .inr hlength
    · trivial
  | noMethodSignature count body hcount hstops h =>
    obtain ⟨es, m, rest, hes, hm, rfl, hrest, hsignature, rfl⟩ := hstops
    obtain ⟨hlength, hinside⟩ := inside_table h
    obtain ⟨m, rfl⟩ := Nat.exists_eq_add_one_of_ne_zero (show m ≠ 0 by omega)
    have hdrop : binmsg.drop (11 + (es.map SyncEntry.encode).flatten.length) = rest := by
      rw [h, ← List.append_assoc, ← List.append_assoc]
      apply List.drop_left'
      rw [List.length_append, List.length_append, toBytes_length]
      rfl
    obtain ⟨hread, hfault⟩ := syncMethodLogged_none (c := es.foldl SyncEntry.addTo c) hdrop
      (by omega) hrest hsignature
    have hloop : ∀ f : ℕ × NymphServerInstance → SyncLog (ℕ × NymphServerInstance),
        (syncMethodLogged binmsg (11 + (es.map SyncEntry.encode).flatten.length)
          (es.foldl SyncEntry.addTo c) >>= f).result = .error .noMethodSignature :=
      fun f => Traced.result_bind_eq_error.mpr (.inl hfault)
    rw [syncLogged_encode c hes hcount (by omega) rest h, syncMethodsLogged]
    apply And.intro
    · intro w hw
      rw [Traced.log_tellAll_bind, Traced.log_bind_of_error hfault] at hw
      rcases List.mem_append.mp hw with hw | hw
      · exact hinside w hw
      · exact hread w hw
    · rw [Traced.result_tellAll_bind, hloop]
      trivial

/-- Exactly whole tables and refused strings are read safely. -/
theorem syncsSafely_iff {c : NymphServerInstance} :
    SyncsSafely c binmsg ↔ CompleteTable binmsg ∨ Refused binmsg := by
  constructor
  · rintro ⟨hinside, hfalse⟩
    by_cases hcomplete : CompleteTable binmsg
    · exact .inl hcomplete
    · right
      have hreturns := hfalse hcomplete
      obtain ⟨-, hstop, -⟩ := ensures_syncLogged c binmsg hinside
      cases hresult : (syncLogged c binmsg).result with
      | ok out =>
        rw [hresult] at hreturns
        exact hreturns.elim
      | error f => exact hstop f hresult
  · rintro (hcomplete | hrefused)
    · exact ⟨hcomplete.inside c, fun hnot => absurd hcomplete hnot⟩
    · obtain ⟨hinside, hfalse⟩ := hrefused.safe c
      exact ⟨hinside, fun _ => hfalse⟩

end

/-! ### Answers -/

/-- The built-in method of a new instance is registered once, and has no parameters. -/
theorem registeredOnce_nymphsync : ∃ node, RegisteredOnce connected nymphsync node ∧
    node.method.parameters = [] := by
  refine ⟨⟨0, (NymphMethod.make nymphsync [] .string dummyCallback).setId 0⟩, ⟨?_, ?_⟩, rfl⟩
  · exact (MethodTable.find?_insert _ _ _ _).trans (if_pos rfl)
  · exact (OrderedMap.Map.find?_insert _ _ _ _).trans (if_pos rfl)

section

variable {handle : ℕ} {env : CallEnvironment} {j : ℕ} {memory : NymphRequest}
  {messages : OrderedMap.Map UInt64 ℕ} {out : CallOut} {m : NymphMessage}

/-- What `callMethod` hands over of the answer to a call that was sent. -/
theorem returnvalue_callMethod (hsending : env.sending = .whole)
    (hwaiting : env.waiting = .signalled m) :
    (callMethod connected handle env j memory messages nymphsync [] out).returned = true ∧
      (callMethod connected handle env j memory messages nymphsync [] out).returnvalue =
        if m.isReply then m.response else none := by
  obtain ⟨node, hnode, hparameters⟩ := registeredOnce_nymphsync
  have haccepts : node.method.Accepts [] := by
    refine ⟨?_, by simp⟩
    rw [hparameters]
    rfl
  rw [callMethod_eq hnode]
  exact returnvalue_awaitResponse (returned_called.mpr ⟨haccepts, hsending⟩) hwaiting
    request_called.1

/-- An answer is used safely if and only if it is a reply with a string that is a whole table, or
that one of the four checks refuses. -/
theorem usesSafely_iff (hsending : env.sending = .whole) (hwaiting : env.waiting = .signalled m) :
    UsesSafely connected
        (callMethod connected handle env j memory messages nymphsync [] out).returnvalue ↔
      m.isReply = true ∧ ∃ t binmsg, m.response = some t ∧ t.getString = some binmsg ∧
        (CompleteTable binmsg ∨ Refused binmsg) := by
  rw [(returnvalue_callMethod hsending hwaiting).2, UsesSafely]
  simp only [syncsSafely_iff]
  by_cases hreply : m.isReply
  · rw [if_pos hreply, and_iff_right hreply]
  · rw [if_neg hreply]
    apply iff_of_false
    · rintro ⟨t, binmsg, hnone, -⟩
      cases hnone
    · rintro ⟨htrue, -⟩
      exact hreply htrue

end

/-- A reply with a string. -/
def textReply (text : Bytes) : NymphMessage :=
  { emptyReply with response := some (.ofString text false) }

/-- An exception message. -/
def exceptionAnswer : NymphMessage := { emptyReply with flags := flagException }

/-- What `sync` gets of an answer. -/
def syncValue (m : NymphMessage) : Option NymphType :=
  (callMethod connected 0 (sentAndWaiting (.signalled m)) 0 flaggedMemory .empty nymphsync []
    ⟨none, []⟩).returnvalue

/-- The method 'c', which has a parameter and returns a string. -/
def letterEntry : SyncEntry := ⟨1, [0x63], [.bool], .string⟩

/-- A whole table with this method is used safely. -/
theorem usesSafely_letter : UsesSafely connected (syncValue (textReply
    (methodsSignature ++ (toBytes 4 1 ++ letterEntry.encode)))) := by
  have hcomplete : CompleteTable (methodsSignature ++ (toBytes 4 1 ++ letterEntry.encode)) := by
    refine ⟨[letterEntry], ?_, by decide, rfl⟩
    rw [List.forall_mem_singleton]
    exact ⟨by decide, by decide, by decide, rfl⟩
  exact (usesSafely_iff rfl rfl).mpr ⟨by decide, _, _, rfl, rfl, .inl hcomplete⟩

/-- An exception leaves a null pointer, and a string that announces a method and ends is read
behind its end. -/
theorem not_usesSafely_exception : ¬UsesSafely connected (syncValue exceptionAnswer) ∧
    ¬SyncsSafely connected (methodsSignature ++ toBytes 4 1) := by
  apply And.intro
  · rintro ⟨t, binmsg, hnone, -⟩
    rw [syncValue, (returnvalue_callMethod rfl rfl).2, if_neg (by decide)] at hnone
    cases hnone
  · rintro ⟨hinside, -⟩
    rcases hinside (.read 17 4) (by decide +kernel) with hzero | hend
    · cases hzero
    · exact absurd hend (by decide)

end NymphRpc
