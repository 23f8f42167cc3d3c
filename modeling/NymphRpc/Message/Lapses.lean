import NymphRpc.Message.Bounds
import NymphRpc.Types.Lapses

/-!
# Where the decoder is more lenient than the specification

The decoder ignores what `parseValue` reports: whether a message is corrupt is decided by the
last byte it looks at alone. What it accepts follows the specification unless the parser lapses
in one of the values, one of them fails, the name of a callback is no string or the last thing
in the buffer, or the ID of an exception is not where the message ends. Within the range of the
parser's signed index each of these is a message that the specification does not have.
-/

namespace NymphRpc

open LittleEndian Buffer

/-- The parser lapses within one of the parameters from `p` on, or one of them fails. -/
inductive LapsesParameters (binmsg : Bytes) : ℕ → Prop
  | value {p tc} (htc : Buffer.get? binmsg (cursor p) = some tc)
      (hne : tc ≠ NymphInternalTypes.none.toByte) (h : LapsesAt binmsg p) :
      LapsesParameters binmsg p
  | failed {p q tc} (htc : Buffer.get? binmsg (cursor p) = some tc)
      (hne : tc ≠ NymphInternalTypes.none.toByte) (h : Reads binmsg p q false) :
      LapsesParameters binmsg p
  | later {p q tc ok} (htc : Buffer.get? binmsg (cursor p) = some tc)
      (hne : tc ≠ NymphInternalTypes.none.toByte) (h : Reads binmsg p q ok)
      (hs : LapsesParameters binmsg q) : LapsesParameters binmsg p

/-- The decoder goes on over something the specification does not have. -/
inductive LapsesMessage (binmsg : Bytes) : Prop
  | response {flags} (h : ReadsHeader binmsg flags) (hr : flags &&& flagReply ≠ 0)
      (hlapse : LapsesAt binmsg 25)
  | responseFailed {flags q} (h : ReadsHeader binmsg flags) (hr : flags &&& flagReply ≠ 0)
      (hfail : Reads binmsg 25 q false)
  | exceptionEnd {flags} (h : ReadsHeader binmsg flags) (hr : flags &&& flagReply = 0)
      (he : flags &&& flagException ≠ 0)
      (hend : Buffer.get? binmsg 29 ≠ some NymphInternalTypes.none.toByte)
  | nameType {flags tc} (h : ReadsHeader binmsg flags) (hr : flags &&& flagReply = 0)
      (he : flags &&& flagException = 0) (hc : flags &&& flagCallback ≠ 0)
      (htc : Buffer.get? binmsg 17 = some tc) (hstring : tc ≠ NymphInternalTypes.string.toByte)
      (hempty : tc ≠ NymphInternalTypes.emptyString.toByte)
  | name {flags} (h : ReadsHeader binmsg flags) (hr : flags &&& flagReply = 0)
      (he : flags &&& flagException = 0) (hc : flags &&& flagCallback ≠ 0)
      (hlapse : LapsesAt binmsg 17)
  | nameFailed {flags q} (h : ReadsHeader binmsg flags) (hr : flags &&& flagReply = 0)
      (he : flags &&& flagException = 0) (hc : flags &&& flagCallback ≠ 0)
      (hfail : Reads binmsg 17 q false)
  | nameEnd {flags q ok} (h : ReadsHeader binmsg flags) (hr : flags &&& flagReply = 0)
      (he : flags &&& flagException = 0) (hc : flags &&& flagCallback ≠ 0)
      (hname : Reads binmsg 17 q ok) (hend : Buffer.get? binmsg (cursor q) = none)
  | callbackParameters {flags q ok} (h : ReadsHeader binmsg flags) (hr : flags &&& flagReply = 0)
      (he : flags &&& flagException = 0) (hc : flags &&& flagCallback ≠ 0)
      (hname : Reads binmsg 17 q ok) (hlapse : LapsesParameters binmsg q)
  | parameters {flags} (h : ReadsHeader binmsg flags) (hr : flags &&& flagReply = 0)
      (he : flags &&& flagException = 0) (hc : flags &&& flagCallback = 0)
      (hlapse : LapsesParameters binmsg 17)

section

variable {binmsg : Bytes} {flags : UInt32}

/-- A word that is read from the buffer is written back as it was. -/
theorem toBytes_toNat_ofNat {bs : Bytes} (h : bs.length = 4) :
    toBytes 4 (UInt32.ofNat (ofBytes bs)).toNat = bs := by
  have hlt := ofBytes_lt bs
  rw [h] at hlt
  rw [UInt32.toNat_ofNat_of_lt' (by simpa using hlt), ← h, toBytes_ofBytes]

/-- A double word that is read from the buffer is written back as it was. -/
theorem toBytes_toNat_ofNat64 {bs : Bytes} (h : bs.length = 8) :
    toBytes 8 (UInt64.ofNat (ofBytes bs)).toNat = bs := by
  have hlt := ofBytes_lt bs
  rw [h] at hlt
  rw [UInt64.toNat_ofNat_of_lt' (by simpa using hlt), ← h, toBytes_ofBytes]

/-- The double word at a position inside the buffer. -/
theorem exists_holds_uint64 {p : ℕ} (h : p + 8 ≤ binmsg.length) :
    ∃ id : UInt64, Holds binmsg p (toBytes 8 id.toNat) := by
  obtain ⟨bs, hbs⟩ := exists_slice? p 8 h
  refine ⟨.ofNat (ofBytes bs), ?_⟩
  rw [toBytes_toNat_ofNat64 (length_of_slice? hbs)]
  exact holds_of_slice? hbs

/-- The word at a position inside the buffer. -/
theorem exists_holds_uint32 {p : ℕ} (h : p + 4 ≤ binmsg.length) :
    ∃ id : UInt32, Holds binmsg p (toBytes 4 id.toNat) := by
  obtain ⟨bs, hbs⟩ := exists_slice? p 4 h
  refine ⟨.ofNat (ofBytes bs), ?_⟩
  rw [toBytes_toNat_ofNat (length_of_slice? hbs)]
  exact holds_of_slice? hbs

/-- What is read as a header is one. -/
theorem ReadsHeader.exists_header (h : ReadsHeader binmsg flags) :
    ∃ s : NymphMessage, s.flags = flags ∧ Holds binmsg 0 s.header := by
  obtain ⟨hlen, hversion, bs, hbs, hflags⟩ := h
  obtain ⟨methodId, hmethod⟩ := exists_holds_uint32 (show 1 + 4 ≤ binmsg.length by omega)
  obtain ⟨messageId, hid⟩ := exists_holds_uint64 (show 9 + 8 ≤ binmsg.length by omega)
  have hword : toBytes 4 flags.toNat = bs := hflags ▸ toBytes_toNat_ofNat (length_of_slice? hbs)
  let um : MessageUninit := ⟨messageId, 0⟩
  refine ⟨{ NymphMessage.ofMethodId um methodId with flags := flags }, rfl, ?_⟩
  have hbyte : binmsg[0]? = some 0x00 := by simpa [Buffer.get?] using hversion
  have hflags' : Holds binmsg 5 (toBytes 4 flags.toNat) := hword ▸ holds_of_slice? hbs
  refine Holds.cons_iff.mpr ⟨hbyte, Holds.append_iff.mpr ⟨hmethod, Holds.append_iff.mpr ?_⟩⟩
  rw [toBytes_length, toBytes_length]
  exact ⟨hflags', hid⟩

/-- Two headers of one buffer have the same flags. -/
theorem ReadsHeader.flags_eq (h : ReadsHeader binmsg flags) {s : NymphMessage}
    (hs : Holds binmsg 0 s.header) : s.flags = flags := by
  obtain ⟨-, -, bs, hbs, rfl⟩ := h
  obtain ⟨-, hs⟩ := Holds.cons_iff.mp hs
  obtain ⟨-, hs⟩ := Holds.append_iff.mp hs
  obtain ⟨hflags, -⟩ := Holds.append_iff.mp hs
  simp only [toBytes_length] at hflags
  have hword : Buffer.slice? binmsg 5 4 = some (toBytes 4 s.flags.toNat) := by
    have hslice := hflags.slice?
    rwa [toBytes_length] at hslice
  rw [hword] at hbs
  rw [← Option.some.inj hbs, ofBytes_toBytes (n := 4) (by simpa using s.flags.toNat_lt),
    UInt32.ofNat_toNat]

/-- Parameters that are read to the terminator without a lapse are those of the specification. -/
theorem ReadsParameters.valuesAt {p : ℕ} {c : Bool} (h : ReadsParameters binmsg p c) :
    c = false → Buffer.get? binmsg (cursor p) ≠ none → p < 2 ^ 32 → ¬LapsesParameters binmsg p →
      ∃ bs vs, DenotesAll bs vs ∧ Holds binmsg p (bs ++ [NymphInternalTypes.none.toByte]) := by
  induction h with
  | past h =>
    intro _ hin
    exact absurd h hin
  | done h =>
    intro _ _ hp _
    have hbyte := holds_of_get?_cursor h (lt_of_get?_cursor h hp)
    exact ⟨[], [], .nil, Holds.cons_iff.mpr ⟨hbyte, List.nil_prefix⟩⟩
  | last htc hne h hq =>
    intro hc
    cases hc
  | @more p q tc tc' ok c htc hne h hq hs ih =>
    intro hc _ hp hlapse
    have hok : ok = true := by
      by_contra hfalse
      rw [Bool.not_eq_true] at hfalse
      exact hlapse (.failed htc hne (hfalse ▸ h))
    obtain ⟨b, v, hv, hb, rfl, hlt⟩ :=
      h.valueAt hok (lt_of_get?_cursor htc hp) fun hl => hlapse (.value htc hne hl)
    obtain ⟨bs, vs, hvs, hbs⟩ := ih hc (by rw [hq]; exact Option.some_ne_none _) hlt
      fun hl => hlapse (.later htc hne h hl)
    refine ⟨b ++ bs, v :: vs, .cons hv hvs, ?_⟩
    rw [List.append_assoc]
    exact Holds.append_iff.mpr ⟨hb, hbs⟩

/-- The parameters of the specification are read without a lapse. -/
theorem DenotesAll.not_lapsesParameters {bs : Bytes} {vs : List Value} {p : ℕ}
    (hvs : DenotesAll bs vs) (h : Holds binmsg p (bs ++ [NymphInternalTypes.none.toByte]))
    (hp : p + bs.length < 2 ^ 31) : ¬LapsesParameters binmsg p := by
  induction vs generalizing bs p with
  | nil =>
    cases hvs
    have hnone := get?_cursor_of_holds h (by omega)
    intro hlapse
    have hbyte : ∀ {tc}, Buffer.get? binmsg (cursor p) = some tc →
        tc = NymphInternalTypes.none.toByte := fun htc =>
      Option.some.inj (htc.symm.trans hnone)
    cases hlapse with
    | value htc hne _ | failed htc hne _ | later htc hne _ _ => exact hne (hbyte htc)
  | cons v vs ih =>
    cases hvs with
    | cons hv hvs =>
      rw [List.append_assoc] at h
      obtain ⟨hb, hbs⟩ := Holds.append_iff.mp h
      rw [List.length_append] at hp
      have hwalks := hv.walksTo hb (by omega)
      intro hlapse
      cases hlapse with
      | value _ _ hl => exact hwalks.lapses hl
      | failed _ _ hq => cases (hwalks.reads _ _ hq).2
      | later _ _ hq hl =>
        obtain ⟨rfl, -⟩ := hwalks.reads _ _ hq
        exact ih hvs hbs (by omega) hl

/-- A value that starts with the typecode of a string is a string. -/
theorem ValueAt.string {p q : ℕ} {tc : UInt8} (h : ValueAt binmsg p q)
    (htc : binmsg[p]? = some tc) (hstring : tc = NymphInternalTypes.string.toByte ∨
      tc = NymphInternalTypes.emptyString.toByte) :
    ∃ bs s, Denotes bs (.string s) ∧ Holds binmsg p bs ∧ q = p + bs.length ∧ q < 2 ^ 32 := by
  obtain ⟨bs, v, hv, hbs, hq, hlt⟩ := h
  rcases hstring with rfl | rfl
  · obtain ⟨t, s, hs, rfl⟩ := hv.tagged hbs htc
    exact ⟨_, s, .string t s hs, hbs, hq, hlt⟩
  · have hbyte : ∀ {c : NymphInternalTypes} {rest : Bytes}, Holds binmsg p (c.toByte :: rest) →
        c = .emptyString := by
      intro c rest hc
      have heq := (Holds.cons_iff.mp hc).1
      rw [htc] at heq
      exact NymphInternalTypes.toByte_injective (Option.some.inj heq).symm
    cases hv with
    | emptyString => exact ⟨_, [], .emptyString, hbs, hq, hlt⟩
    | null | booleanFalse | booleanTrue => cases hbyte hbs
    | scalar _ _ | string _ _ _ | array _ _ | struct _ => cases hbyte hbs

/-- The first byte of a string of the grammar. -/
theorem Denotes.stringTypecode {bs s : Bytes} (h : Denotes bs (.string s)) :
    ∃ tc rest, bs = tc :: rest ∧ (tc = NymphInternalTypes.string.toByte ∨
      tc = NymphInternalTypes.emptyString.toByte) := by
  cases h with
  | emptyString => exact ⟨_, _, rfl, .inr rfl⟩
  | string t s hs => exact ⟨_, _, rfl, .inl rfl⟩

/-! ### What is accepted without a lapse follows the specification -/

/-- A reply whose response is read without a lapse, with the None typecode behind it. -/
theorem follows_of_reply {q : ℕ} {ok : Bool} (h : ReadsHeader binmsg flags)
    (hr : flags &&& flagReply ≠ 0) (hlen : 25 ≤ binmsg.length) (hval : Reads binmsg 25 q ok)
    (hend : Buffer.get? binmsg (cursor q) = some NymphInternalTypes.none.toByte)
    (hlapse : ¬LapsesMessage binmsg) : FollowsSpecification binmsg := by
  have hok : ok = true := by
    by_contra hfalse
    rw [Bool.not_eq_true] at hfalse
    exact hlapse (.responseFailed h hr (hfalse ▸ hval))
  obtain ⟨bs, v, hv, hbs, rfl, hlt⟩ :=
    hval.valueAt hok (by omega) fun hl => hlapse (.response h hr hl)
  obtain ⟨s, hflags, hheader⟩ := h.exists_header
  obtain ⟨id, hid⟩ := exists_holds_uint64 (show 17 + 8 ≤ binmsg.length by omega)
  have hreply : s.isReply = true := by simpa [NymphMessage.isReply, hflags] using hr
  have hterm := holds_of_get?_cursor hend (lt_of_get?_cursor hend hlt)
  refine ⟨s, .reply id v, _, hreply, .reply id hv, hheader, ?_⟩
  rw [List.append_assoc]
  exact Holds.append_iff.mpr ⟨hid, Holds.append_iff.mpr
    ⟨by rwa [toBytes_length], Holds.cons_iff.mpr ⟨by rwa [toBytes_length], List.nil_prefix⟩⟩⟩

/-- An exception with the None typecode behind its ID. -/
theorem follows_of_exception (h : ReadsHeader binmsg flags) (hr : flags &&& flagReply = 0)
    (he : flags &&& flagException ≠ 0) (hlapse : ¬LapsesMessage binmsg) :
    FollowsSpecification binmsg := by
  have hend : Buffer.get? binmsg 29 = some NymphInternalTypes.none.toByte := by
    by_contra hne
    exact hlapse (.exceptionEnd h hr he hne)
  obtain ⟨-, hin⟩ := bounds_of_get? hend
  obtain ⟨s, hflags, hheader⟩ := h.exists_header
  obtain ⟨id, hid⟩ := exists_holds_uint64 (show 17 + 8 ≤ binmsg.length by omega)
  obtain ⟨exceptionId, hexc⟩ := exists_holds_uint32 (show 25 + 4 ≤ binmsg.length by omega)
  have hreply : s.isReply = false := by simpa [NymphMessage.isReply, hflags] using hr
  have hexception : s.isException = true := by
    simpa [NymphMessage.isException, hflags] using he
  have hterm : binmsg[29]? = some NymphInternalTypes.none.toByte := by
    simpa [Buffer.get?] using hend
  refine ⟨s, .exception id ⟨exceptionId, []⟩, _, ⟨hreply, hexception⟩,
    .exception id exceptionId, hheader, ?_⟩
  rw [List.append_assoc]
  exact Holds.append_iff.mpr ⟨hid, Holds.append_iff.mpr
    ⟨by rwa [toBytes_length], Holds.cons_iff.mpr ⟨by simpa using hterm, List.nil_prefix⟩⟩⟩

/-- A callback whose name is a string and whose parameters are read without a lapse. -/
theorem follows_of_callback {q : ℕ} {ok : Bool} (h : ReadsHeader binmsg flags)
    (hr : flags &&& flagReply = 0) (he : flags &&& flagException = 0)
    (hcall : flags &&& flagCallback ≠ 0) (hname : Reads binmsg 17 q ok)
    (hs : ReadsParameters binmsg q false) (hlapse : ¬LapsesMessage binmsg) :
    FollowsSpecification binmsg := by
  obtain ⟨h17, -, -, -⟩ := NymphMessage.cursor_header
  obtain ⟨tc, htc⟩ := hname.typecode
  have hok : ok = true := by
    by_contra hfalse
    rw [Bool.not_eq_true] at hfalse
    exact hlapse (.nameFailed h hr he hcall (hfalse ▸ hname))
  have hstring : tc = NymphInternalTypes.string.toByte ∨
      tc = NymphInternalTypes.emptyString.toByte := by
    by_contra hne
    rw [not_or] at hne
    exact hlapse (.nameType h hr he hcall (h17 ▸ htc) hne.1 hne.2)
  obtain ⟨cs, name, hcs, hholds, rfl, hlt⟩ :=
    (hname.valueAt hok (by omega) fun hl => hlapse (.name h hr he hcall hl)).string
      (holds_of_get?_cursor htc (by omega)) hstring
  obtain ⟨bs, vs, hvs, hbs⟩ := hs.valuesAt rfl
    (fun hend => hlapse (.nameEnd h hr he hcall hname hend)) hlt
    fun hl => hlapse (.callbackParameters h hr he hcall hname hl)
  obtain ⟨s, hflags, hheader⟩ := h.exists_header
  refine ⟨s, .callback name vs, _, ⟨?_, ?_, ?_⟩, .callback hcs hvs, hheader, ?_⟩
  · simpa [NymphMessage.isReply, hflags] using hr
  · simpa [NymphMessage.isException, hflags] using he
  · simpa [NymphMessage.isCallback, hflags] using hcall
  · rw [List.append_assoc]
    exact Holds.append_iff.mpr ⟨hholds, hbs⟩

/-- A regular message whose parameters are read without a lapse. -/
theorem follows_of_regular (h : ReadsHeader binmsg flags) (hr : flags &&& flagReply = 0)
    (he : flags &&& flagException = 0) (hcall : flags &&& flagCallback = 0)
    (hlen : 17 < binmsg.length) (hs : ReadsParameters binmsg 17 false)
    (hlapse : ¬LapsesMessage binmsg) : FollowsSpecification binmsg := by
  obtain ⟨h17, -, -, -⟩ := NymphMessage.cursor_header
  have hin : Buffer.get? binmsg (cursor 17) ≠ none := by
    rw [h17, ← Option.isSome_iff_ne_none, Buffer.get?_isSome_iff]
    omega
  obtain ⟨bs, vs, hvs, hbs⟩ := hs.valuesAt rfl hin (by omega)
    fun hl => hlapse (.parameters h hr he hcall hl)
  obtain ⟨s, hflags, hheader⟩ := h.exists_header
  refine ⟨s, .regular vs, _, ⟨?_, ?_, ?_⟩, .regular hvs, hheader, hbs⟩
  · simpa [NymphMessage.isReply, hflags] using hr
  · simpa [NymphMessage.isException, hflags] using he
  · simpa [NymphMessage.isCallback, hflags] using hcall

/-- A message that is read without a lapse, and not called corrupt, follows the specification. -/
theorem ReadsMessage.follows {c : Bool} (h : ReadsMessage binmsg c) (hc : c = false)
    (hlapse : ¬LapsesMessage binmsg) : FollowsSpecification binmsg := by
  cases h with
  | version _ _ _ | empty _ _ _ _ _ => cases hc
  | reply h hr hlen hval => exact follows_of_reply h hr hlen hval (by simpa using hc) hlapse
  | exception h hr he _ _ _ => exact follows_of_exception h hr he hlapse
  | callback h hr he hcall hname hs =>
    exact follows_of_callback h hr he hcall hname (hc ▸ hs) hlapse
  | regular h hr he hcall hlen hs => exact follows_of_regular h hr he hcall hlen (hc ▸ hs) hlapse

/-! ### What follows the specification has no lapse -/

namespace FollowsSpecification

/-- The body of a reply. -/
theorem reply (h : FollowsSpecification binmsg) (hheader : ReadsHeader binmsg flags)
    (hr : flags &&& flagReply ≠ 0) :
    ∃ bs v, Denotes bs v ∧ Holds binmsg 25 (bs ++ [NymphInternalTypes.none.toByte]) := by
  obtain ⟨s, c, body, hann, hspec, hs, hbody⟩ := h
  have hreply : s.isReply = true := by
    simpa [NymphMessage.isReply, hheader.flags_eq hs] using hr
  cases hspec with
  | reply id hv =>
    rw [List.append_assoc] at hbody
    have hrest := (Holds.append_iff.mp hbody).2
    rw [toBytes_length] at hrest
    exact ⟨_, _, hv, hrest⟩
  | regular _ | callback _ _ | exception _ _ =>
    have hnot := hann.1
    rw [hreply] at hnot
    cases hnot

/-- An exception ends behind its ID. -/
theorem exception (h : FollowsSpecification binmsg) (hheader : ReadsHeader binmsg flags)
    (hr : flags &&& flagReply = 0) (he : flags &&& flagException ≠ 0) :
    Buffer.get? binmsg 29 = some NymphInternalTypes.none.toByte := by
  obtain ⟨s, c, body, hann, hspec, hs, hbody⟩ := h
  have hreply : s.isReply = false := by
    simpa [NymphMessage.isReply, hheader.flags_eq hs] using hr
  have hexception : s.isException = true := by
    simpa [NymphMessage.isException, hheader.flags_eq hs] using he
  cases hspec with
  | exception id exceptionId =>
    have hrest := (Holds.append_iff.mp hbody).2
    rw [List.length_append, toBytes_length, toBytes_length] at hrest
    exact hrest.get?
  | reply _ _ =>
    rw [show s.isReply = true from hann] at hreply
    cases hreply
  | regular _ | callback _ _ =>
    have hnot := hann.2.1
    rw [hexception] at hnot
    cases hnot

/-- The body of a callback. -/
theorem callback (h : FollowsSpecification binmsg) (hheader : ReadsHeader binmsg flags)
    (hr : flags &&& flagReply = 0) (he : flags &&& flagException = 0)
    (hc : flags &&& flagCallback ≠ 0) :
    ∃ cs name bs vs, Denotes cs (.string name) ∧ DenotesAll bs vs ∧
      Holds binmsg 17 (cs ++ (bs ++ [NymphInternalTypes.none.toByte])) := by
  obtain ⟨s, c, body, hann, hspec, hs, hbody⟩ := h
  have hreply : s.isReply = false := by
    simpa [NymphMessage.isReply, hheader.flags_eq hs] using hr
  have hexception : s.isException = false := by
    simpa [NymphMessage.isException, hheader.flags_eq hs] using he
  have hcallback : s.isCallback = true := by
    simpa [NymphMessage.isCallback, hheader.flags_eq hs] using hc
  cases hspec with
  | callback hname hvs =>
    rw [List.append_assoc] at hbody
    exact ⟨_, _, _, _, hname, hvs, hbody⟩
  | reply _ _ =>
    rw [show s.isReply = true from hann] at hreply
    cases hreply
  | exception _ _ =>
    rw [hann.2] at hexception
    cases hexception
  | regular _ =>
    have hnot := hann.2.2
    rw [hcallback] at hnot
    cases hnot

/-- The body of a regular message. -/
theorem regular (h : FollowsSpecification binmsg) (hheader : ReadsHeader binmsg flags)
    (hr : flags &&& flagReply = 0) (he : flags &&& flagException = 0)
    (hc : flags &&& flagCallback = 0) :
    ∃ bs vs, DenotesAll bs vs ∧ Holds binmsg 17 (bs ++ [NymphInternalTypes.none.toByte]) := by
  obtain ⟨s, c, body, hann, hspec, hs, hbody⟩ := h
  have hreply : s.isReply = false := by
    simpa [NymphMessage.isReply, hheader.flags_eq hs] using hr
  have hexception : s.isException = false := by
    simpa [NymphMessage.isException, hheader.flags_eq hs] using he
  have hcallback : s.isCallback = false := by
    simpa [NymphMessage.isCallback, hheader.flags_eq hs] using hc
  cases hspec with
  | regular hvs => exact ⟨_, _, hvs, hbody⟩
  | reply _ _ =>
    rw [show s.isReply = true from hann] at hreply
    cases hreply
  | exception _ _ =>
    rw [hann.2] at hexception
    cases hexception
  | callback _ _ =>
    rw [hann.2.2] at hcallback
    cases hcallback

/-- The name of a callback is read to its end without a lapse. -/
theorem name_walksTo {cs bs name : Bytes} (hname : Denotes cs (.string name))
    (h : Holds binmsg 17 (cs ++ (bs ++ [NymphInternalTypes.none.toByte])))
    (hlen : binmsg.length < 2 ^ 31) :
    WalksTo binmsg 17 (17 + cs.length) ∧
      Holds binmsg (17 + cs.length) (bs ++ [NymphInternalTypes.none.toByte]) ∧
      17 + cs.length + bs.length < 2 ^ 31 := by
  have hle := h.add_length_le (by simp)
  simp only [List.length_append, List.length_cons, List.length_nil] at hle
  obtain ⟨hcs, hrest⟩ := Holds.append_iff.mp h
  exact ⟨hname.walksTo hcs (by omega), hrest, by omega⟩

/-- A message of the specification, in the signed range, is read without a lapse. -/
theorem not_lapses (h : FollowsSpecification binmsg) (hlen : binmsg.length < 2 ^ 31) :
    ¬LapsesMessage binmsg := by
  intro hlapse
  cases hlapse with
  | response hheader hr hl =>
    obtain ⟨bs, v, hv, hbs⟩ := h.reply hheader hr
    have hle := hbs.add_length_le (by simp)
    rw [List.length_append] at hle
    exact (hv.walksTo (Holds.append_iff.mp hbs).1 (by omega)).lapses hl
  | responseFailed hheader hr hfail =>
    obtain ⟨bs, v, hv, hbs⟩ := h.reply hheader hr
    have hle := hbs.add_length_le (by simp)
    rw [List.length_append] at hle
    cases ((hv.walksTo (Holds.append_iff.mp hbs).1 (by omega)).reads _ _ hfail).2
  | exceptionEnd hheader hr he hend => exact hend (h.exception hheader hr he)
  | nameType hheader hr he hc htc hstring hempty =>
    obtain ⟨cs, name, bs, vs, hname, hvs, hbody⟩ := h.callback hheader hr he hc
    obtain ⟨tc', rest, rfl, htc'⟩ := hname.stringTypecode
    have hfirst : Buffer.get? binmsg 17 = some tc' := hbody.get?
    rw [htc] at hfirst
    cases hfirst
    exact htc'.elim hstring hempty
  | name hheader hr he hc hl =>
    obtain ⟨cs, name, bs, vs, hname, hvs, hbody⟩ := h.callback hheader hr he hc
    exact (name_walksTo hname hbody hlen).1.lapses hl
  | nameFailed hheader hr he hc hfail =>
    obtain ⟨cs, name, bs, vs, hname, hvs, hbody⟩ := h.callback hheader hr he hc
    cases ((name_walksTo hname hbody hlen).1.reads _ _ hfail).2
  | nameEnd hheader hr he hc hq hend =>
    obtain ⟨cs, name, bs, vs, hname, hvs, hbody⟩ := h.callback hheader hr he hc
    obtain ⟨hwalks, hrest, hlt⟩ := name_walksTo hname hbody hlen
    obtain ⟨rfl, -⟩ := hwalks.reads _ _ hq
    obtain ⟨b, rest, hcons⟩ : ∃ b rest, bs ++ [NymphInternalTypes.none.toByte] = b :: rest :=
      List.exists_cons_of_ne_nil (by simp)
    rw [hcons] at hrest
    rw [get?_cursor_of_holds hrest (by omega)] at hend
    cases hend
  | callbackParameters hheader hr he hc hq hl =>
    obtain ⟨cs, name, bs, vs, hname, hvs, hbody⟩ := h.callback hheader hr he hc
    obtain ⟨hwalks, hrest, hlt⟩ := name_walksTo hname hbody hlen
    obtain ⟨rfl, -⟩ := hwalks.reads _ _ hq
    exact hvs.not_lapsesParameters hrest hlt hl
  | parameters hheader hr he hc hl =>
    obtain ⟨bs, vs, hvs, hbs⟩ := h.regular hheader hr he hc
    have hle := hbs.add_length_le (by simp)
    rw [List.length_append] at hle
    exact hvs.not_lapsesParameters hbs (by omega) hl

end FollowsSpecification

end

namespace NymphMessage

/-- Whatever is decoded inside the buffer and not called corrupt follows the specification. -/
def AcceptsOnlySpecified (u : ℤ → Uninit) (um : MessageUninit) (binmsg : Bytes) : Prop :=
  ∀ fuel m, (decode u um fuel binmsg).result = .ok m →
    (∀ e ∈ (decode u um fuel binmsg).log, StringInside binmsg e) → m.corrupt = false →
      FollowsSpecification binmsg

/-- The decoder accepts the buffer, and lapses in it. -/
def AcceptsLapse (binmsg : Bytes) : Prop := ReadsMessage binmsg false ∧ LapsesMessage binmsg

/-- A lapse that is accepted, in the signed range, is no message of the specification. -/
theorem AcceptsLapse.not_acceptsOnlySpecified {binmsg : Bytes} (h : AcceptsLapse binmsg)
    (hlen : binmsg.length < 2 ^ 31) (u : ℤ → Uninit) (um : MessageUninit) :
    ¬AcceptsOnlySpecified u um binmsg := by
  obtain ⟨hread, hlapse⟩ := h
  have hruns : ∃ fuel₀, ∀ fuel, fuel₀ ≤ fuel →
      Runs binmsg (decode u um fuel binmsg) fun m => m.corrupt = false := decode_runs hread
  obtain ⟨fuel, hrun⟩ := hruns
  obtain ⟨m, hm, hcorrupt, hlog⟩ := hrun fuel le_rfl
  intro haccepts
  exact (haccepts fuel m hm hlog hcorrupt).not_lapses hlen hlapse

/-- The decoder accepts only messages of the specification where it does not accept a lapse; in
the signed range it does so exactly there. -/
theorem acceptsOnlySpecified_of_not_acceptsLapse (u : ℤ → Uninit) (um : MessageUninit)
    (binmsg : Bytes) :
    (¬AcceptsLapse binmsg → AcceptsOnlySpecified u um binmsg) ∧
      (binmsg.length < 2 ^ 31 → (AcceptsOnlySpecified u um binmsg ↔ ¬AcceptsLapse binmsg)) := by
  have hsound : ¬AcceptsLapse binmsg → AcceptsOnlySpecified u um binmsg := by
    intro hlapse fuel m hm hlog hcorrupt
    have hread := (readsInside_decode fuel hlog).1 m hm
    exact hread.follows hcorrupt fun hl => hlapse ⟨hcorrupt ▸ hread, hl⟩
  exact ⟨hsound, fun hlen =>
    ⟨fun haccepts h => h.not_acceptsOnlySpecified hlen u um haccepts, hsound⟩⟩

/-! ### Lapses of one parameter -/

/-- The header of a regular message, all zero. -/
theorem readsHeader_zero (rest : Bytes) : ReadsHeader (List.replicate 17 0x00 ++ rest) 0 := by
  refine ⟨by simp, rfl, List.replicate 4 0x00, ?_, rfl⟩
  simp only [Buffer.slice?, List.length_append, List.length_replicate]
  rw [if_neg (by decide), if_pos (by omega)]
  rfl

/-- A byte in the signed range is read where it stands. -/
theorem get?_cursor_eq {binmsg : Bytes} {p : ℕ} (hp : p < 2 ^ 31) :
    Buffer.get? binmsg (cursor p) = binmsg[p]? := by
  rw [cursor_eq hp]
  simp [Buffer.get?]

/-- A value of the unknown typecode 0x13 as the only parameter. -/
theorem acceptsLapse_unknown : AcceptsLapse (List.replicate 17 0x00 ++ [0x13, 0x01]) := by
  have htc : Buffer.get? (List.replicate 17 0x00 ++ [0x13, 0x01]) (cursor 17) = some 0x13 :=
    get?_cursor_eq (by omega)
  have hend : Buffer.get? (List.replicate 17 0x00 ++ [0x13, 0x01]) (cursor 18) = some 0x01 :=
    get?_cursor_eq (by omega)
  exact ⟨.regular (readsHeader_zero _) rfl rfl rfl (by decide)
      (.more htc (by decide) (.single htc rfl) hend (.done hend)),
    .parameters (readsHeader_zero _) rfl rfl rfl (.value htc (by decide) (.unknown htc rfl))⟩

/-- An empty array that a null stands behind, and not its terminator. -/
theorem acceptsLapse_unclosed :
    AcceptsLapse (List.replicate 17 0x00 ++ 0x0e :: (List.replicate 8 0x00 ++ [0x00, 0x01])) := by
  set binmsg : Bytes := List.replicate 17 0x00 ++ 0x0e :: (List.replicate 8 0x00 ++ [0x00, 0x01])
    with hbinmsg
  have htc : Buffer.get? binmsg (cursor 17) = some NymphInternalTypes.array.toByte :=
    get?_cursor_eq (by omega)
  have hcount : Buffer.slice? binmsg (cursor 18) 8 = some (List.replicate 8 0x00) := by
    rw [cursor_eq (by omega)]
    rfl
  have hnull : Buffer.get? binmsg (cursor 26) = some 0x00 := get?_cursor_eq (by omega)
  have hend : Buffer.get? binmsg (cursor 27) = some 0x01 := get?_cursor_eq (by omega)
  have hread : Reads binmsg 17 27 true := .array htc hcount (by decide) .nil hnull
  exact ⟨.regular (readsHeader_zero _) rfl rfl rfl (by decide)
      (.more htc (by decide) hread hend (.done hend)),
    .parameters (readsHeader_zero _) rfl rfl rfl
      (.value htc (by decide) (.unclosed htc hcount .nil hnull (by decide)))⟩

/-- A struct that fails at its first key; the bytes of the key are taken for a parameter. -/
theorem acceptsLapse_failed :
    AcceptsLapse (List.replicate 17 0x00 ++ [0x11, 0x04, 0x07, 0x01]) := by
  set binmsg : Bytes := List.replicate 17 0x00 ++ [0x11, 0x04, 0x07, 0x01] with hbinmsg
  have htc : Buffer.get? binmsg (cursor 17) = some NymphInternalTypes.struct.toByte :=
    get?_cursor_eq (by omega)
  have hkey : Buffer.get? binmsg (cursor 18) = some (NymphInternalTypes.scalar .uint8).toByte :=
    get?_cursor_eq (by omega)
  have hbyte : Buffer.slice? binmsg (cursor 19) 1 = some [0x07] := by
    rw [cursor_eq (by omega)]
    rfl
  have hend : Buffer.get? binmsg (cursor 20) = some 0x01 := get?_cursor_eq (by omega)
  have hread : Reads binmsg 17 18 false := .struct htc (.noKey hkey (by decide) (by decide))
  exact ⟨.regular (readsHeader_zero _) rfl rfl rfl (by decide)
      (.more htc (by decide) hread hkey
        (.more hkey (by decide) (.scalar hkey hbyte) hend (.done hend))),
    .parameters (readsHeader_zero _) rfl rfl rfl (.failed htc (by decide) hread)⟩

/-- An unknown typecode, an array that is not closed and a struct that fails are accepted. -/
theorem not_acceptsOnlySpecified_lapses :
    ¬AcceptsOnlySpecified (fun _ => ⟨0, 0⟩) ⟨0, 0⟩ (List.replicate 17 0x00 ++ [0x13, 0x01]) ∧
      ¬AcceptsOnlySpecified (fun _ => ⟨0, 0⟩) ⟨0, 0⟩
        (List.replicate 17 0x00 ++ 0x0e :: (List.replicate 8 0x00 ++ [0x00, 0x01])) ∧
      ¬AcceptsOnlySpecified (fun _ => ⟨0, 0⟩) ⟨0, 0⟩
        (List.replicate 17 0x00 ++ [0x11, 0x04, 0x07, 0x01]) :=
  ⟨acceptsLapse_unknown.not_acceptsOnlySpecified (by decide) _ _,
    acceptsLapse_unclosed.not_acceptsOnlySpecified (by decide) _ _,
    acceptsLapse_failed.not_acceptsOnlySpecified (by decide) _ _⟩

end NymphMessage

end NymphRpc
