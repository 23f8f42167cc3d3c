import NymphRpc.Message.Decode
import NymphRpc.Message.Grammar
import NymphRpc.Types.ParseAccepts

/-!
# The decoder accepts the documented layouts

A body whose header and payload stand at its start decodes to a message with the header's
fields and the payload's content, whatever stands behind the terminator. The branch that runs
is the one of the header's flags; a decode never needs more fuel than there are bytes.
-/

namespace NymphRpc

open LittleEndian Buffer NymphType

variable {u : ℤ → Uninit} {binmsg : Bytes}

/-- No byte string of the grammar starts with the None typecode. -/
theorem Denotes.typecode_ne_none {bs : Bytes} {v : Value} {p : ℕ} {tc : UInt8}
    (h : Denotes bs v) (hp : Holds binmsg p bs) (htc : Buffer.get? binmsg p = some tc) :
    tc ≠ NymphInternalTypes.none.toByte := by
  have hhead : ∀ {c : NymphInternalTypes} {rest : Bytes}, c ≠ .none →
      Holds binmsg p (c.toByte :: rest) → tc ≠ NymphInternalTypes.none.toByte := by
    intro c rest hc hrest heq
    have hsame : c.toByte = tc := Option.some.inj (hrest.get?.symm.trans htc)
    exact hc (NymphInternalTypes.toByte_injective (hsame.trans heq))
  cases h <;> exact hhead (by simp) hp

/-- A byte string of a string parses to an object whose characters can be copied. -/
theorem Denotes.parsesString {bs s : Bytes} (h : Denotes bs (.string s)) (fuel : ℕ) {p : ℕ}
    (hp : Holds binmsg p bs) (hbound : p + bs.length < 2 ^ 31) :
    ∃ tc, Buffer.get? binmsg p = some tc ∧ ∀ u₀, ∃ t,
      (parseValue u (fuel + 1) (fresh u₀) tc binmsg (int32 (p + 1))).result =
        .ok ⟨true, t, (p + bs.length : ℕ)⟩ ∧ t.valuetype = .string ∧ readString t = pure s := by
  cases h with
  | emptyString =>
    let m : Members := ⟨binaryStringLength 0, 0, true, false, false⟩
    refine ⟨_, hp.get?, fun u₀ => ⟨.string m .null, ?_, rfl, rfl⟩⟩
    rw [int32_natCast_succ hbound]
    rfl
  | string t s hs =>
    refine ⟨_, hp.get?, fun u₀ => ?_⟩
    obtain ⟨hm, hchars, hparse⟩ := parseString_holds (fresh u₀) hs hp hbound
    refine ⟨_, ?_, rfl, readString_holds hm hchars⟩
    have hlt : p + 1 < 2 ^ 31 := by
      simp only [taggedString, List.length_cons] at hbound
      omega
    rw [int32_natCast_succ hlt]
    exact hparse

namespace NymphMessage

/-- A position inside the buffer is not past the end. -/
theorem pastEnd_of_lt {p : ℕ} (h : p < binmsg.length) : pastEnd binmsg p = false := by
  simp [pastEnd, h]

/-- The value of a linked object. -/
@[simp] theorem value_linked (t : NymphType) : (linked t).value = t.value :=
  value_setMembers_linked t true

/-- The message a decoder starts from: the fields of a header over a buffer. -/
def opened (um : MessageUninit) (binmsg : Bytes) (s : NymphMessage) : NymphMessage :=
  { ofMethodId um s.methodId with
    dataBuffer := some binmsg
    bufferLength := .ofNat binmsg.length
    flags := s.flags
    messageId := s.messageId }

/-- Behind a header the branch of its flags runs. -/
theorem decode_of_header {um : MessageUninit} {fuel : ℕ} {s : NymphMessage}
    (h : Holds binmsg 0 s.header) :
    decode u um fuel binmsg =
      if s.isReply then decodeReply u fuel binmsg (opened um binmsg s)
      else if s.isException then decodeException u fuel binmsg (opened um binmsg s)
      else if s.isCallback then decodeCallback u fuel binmsg (opened um binmsg s)
      else decodeRegular u fuel binmsg (opened um binmsg s) := by
  have hversion : Buffer.get? binmsg 0 = some 0x00 := h.get?
  obtain ⟨-, h⟩ := Holds.cons_iff.mp h
  obtain ⟨hmethod, h⟩ := Holds.append_iff.mp h
  obtain ⟨hflags, hid⟩ := Holds.append_iff.mp h
  simp only [toBytes_length] at hflags hid
  have hmethod' : memcpy binmsg 1 4 = pure (toBytes 4 s.methodId.toNat) :=
    memcpy_holds hmethod (toBytes_length _ _)
  have hflags' : memcpy binmsg 5 4 = pure (toBytes 4 s.flags.toNat) :=
    memcpy_holds hflags (toBytes_length _ _)
  have hid' : memcpy binmsg 9 8 = pure (toBytes 8 s.messageId.toNat) :=
    memcpy_holds hid (toBytes_length _ _)
  unfold decode
  rw [readByte_eq hversion, hmethod', hflags', hid']
  simp only [Traced.pure_bind, ne_eq, not_true_eq_false, if_false,
    ofBytes_toBytes (n := 4) (v := s.methodId.toNat) s.methodId.toNat_lt,
    ofBytes_toBytes (n := 4) (v := s.flags.toNat) s.flags.toNat_lt,
    ofBytes_toBytes (n := 8) (v := s.messageId.toNat) s.messageId.toNat_lt,
    UInt32.ofNat_toNat, UInt64.ofNat_toNat]
  rfl

/-- One round of the parameter loop: a value that does not end the message. -/
theorem parseParameters_step {fuel p q : ℕ} {m : NymphMessage} {tc : UInt8} {t : NymphType}
    (htc : Buffer.get? binmsg p = some tc) (hne : tc ≠ NymphInternalTypes.none.toByte)
    (hval : (parseValue u fuel (fresh (u p)) tc binmsg (int32 (p + 1))).result =
      .ok ⟨true, t, (q : ℕ)⟩)
    (hq : q < binmsg.length) :
    (parseParameters u (fuel + 1) binmsg p m).result =
      (parseParameters u fuel binmsg q (m.pushLinked t)).result := by
  have hp : p < binmsg.length := by exact_mod_cast (bounds_of_get? htc).2
  rw [parseParameters, pastEnd_of_lt hp, readByte_eq htc]
  simp only [Bool.false_eq_true, if_false, Traced.pure_bind, if_neg hne]
  rw [Traced.result_bind_of_ok hval, Traced.result_bind_of_ok (Traced.result_tell _)]
  simp only [pastEnd_of_lt hq, Bool.false_eq_true, if_false]

/-- The parameter loop appends the values that stand before the terminator. -/
theorem parseParameters_accepts {bs : Bytes} {vs : List Value} (h : DenotesAll bs vs) (fuel : ℕ)
    {p : ℕ} (m : NymphMessage) (hfuel : bs.length + 1 ≤ fuel)
    (hp : Holds binmsg p (bs ++ [NymphInternalTypes.none.toByte]))
    (hbound : p + bs.length < 2 ^ 31) :
    ∃ ts rc, (parseParameters u fuel binmsg p m).result =
      .ok { m with values := m.values ++ ts, refCount := rc } ∧ valueAll ts = vs := by
  induction fuel generalizing bs vs p m with
  | zero => omega
  | succ fuel ih =>
    cases h with
    | nil =>
      have hin : p < binmsg.length := by exact_mod_cast (bounds_of_get? hp.get?).2
      refine ⟨[], m.refCount, ?_, rfl⟩
      rw [parseParameters, pastEnd_of_lt hin, readByte_eq hp.get?]
      simp
    | @cons b v bs vs hv hvs =>
      rw [List.append_assoc] at hp
      obtain ⟨hb, hbs⟩ := Holds.append_iff.mp hp
      rw [List.length_append] at hfuel hbound
      have hpos := hv.length_pos
      obtain ⟨tc, htc, hparse⟩ := hv.parsesAs fuel (by omega) hb (by omega)
      obtain ⟨t, ht, hval⟩ := hparse (u p)
      have hend := hbs.add_length_le (by simp)
      simp only [List.length_append, List.length_singleton] at hend
      obtain ⟨ts, rc, hts, hvals⟩ := ih hvs (m.pushLinked t) (by omega) hbs (by omega)
      refine ⟨linked t :: ts, rc, ?_, by rw [valueAll, value_linked, hval, hvals]⟩
      rw [parseParameters_step htc (hv.typecode_ne_none hb htc) ht (by omega), hts]
      simp [pushLinked, addReference]

/-- The branch of a regular message takes the values before the terminator. -/
theorem decodeRegular_accepts {bs : Bytes} {vs : List Value} (h : DenotesAll bs vs) (fuel : ℕ)
    (m : NymphMessage) (hfuel : bs.length + 1 ≤ fuel)
    (hp : Holds binmsg 17 (bs ++ [NymphInternalTypes.none.toByte]))
    (hbound : 17 + bs.length < 2 ^ 31) :
    ∃ ts rc, (decodeRegular u fuel binmsg m).result =
        .ok { m with values := m.values ++ ts, refCount := rc } ∧ valueAll ts = vs := by
  have hend := hp.add_length_le (by simp)
  rw [List.length_append, List.length_singleton] at hend
  have hin : pastEnd binmsg 17 = false := pastEnd_of_lt (p := 17) (by omega)
  rw [decodeRegular, hin]
  exact parseParameters_accepts h fuel m hfuel hp hbound

/-- The callback branch takes the name and the values behind it. -/
theorem decodeCallback_accepts {cs name bs : Bytes} {vs : List Value}
    (hname : Denotes cs (.string name)) (h : DenotesAll bs vs) (fuel : ℕ) (m : NymphMessage)
    (hfuel : bs.length + 1 ≤ fuel)
    (hp : Holds binmsg 17 (cs ++ (bs ++ [NymphInternalTypes.none.toByte])))
    (hbound : 17 + cs.length + bs.length < 2 ^ 31) :
    ∃ ts rc, (decodeCallback u fuel binmsg m).result =
        .ok { m with callbackName := name, values := m.values ++ ts, refCount := rc } ∧
      valueAll ts = vs := by
  obtain ⟨fuel, rfl⟩ : ∃ f, fuel = f + 1 := ⟨fuel - 1, by omega⟩
  obtain ⟨hcs, hbs⟩ := Holds.append_iff.mp hp
  obtain ⟨tc, htc, hparse⟩ := hname.parsesString (u := u) fuel hcs (by omega)
  obtain ⟨t, ht, htype, hread⟩ := hparse (u 17)
  obtain ⟨ts, rc, hts, hvals⟩ :=
    parseParameters_accepts (u := u) h (fuel + 1) { m with callbackName := name } hfuel hbs hbound
  refine ⟨ts, rc, ?_, hvals⟩
  have hcursor : int32 (((17 : ℕ) : ℤ) + 1) = 18 := rfl
  rw [hcursor] at ht
  rw [decodeCallback]
  change (readByte binmsg ((17 : ℕ) : ℤ) >>= _).result = _
  rw [readByte_eq htc]
  simp only [Traced.pure_bind]
  rw [Traced.result_bind_of_ok ht]
  simp only [stringOr, htype, if_true, hread, Traced.pure_bind]
  exact hts

/-- The reply branch takes the response ID and the value before the terminator. -/
theorem decodeReply_accepts {bs : Bytes} {v : Value} {id : UInt64} (h : Denotes bs v) (fuel : ℕ)
    (m : NymphMessage) (hfuel : bs.length ≤ fuel)
    (hp : Holds binmsg 17 (toBytes 8 id.toNat ++ (bs ++ [NymphInternalTypes.none.toByte])))
    (hbound : 25 + bs.length < 2 ^ 31) :
    ∃ t rc, (decodeReply u fuel binmsg m).result =
        .ok { m with responseId := id, response := some t, refCount := rc } ∧ t.value = v := by
  obtain ⟨hid, hbs⟩ := Holds.append_iff.mp hp
  rw [toBytes_length] at hbs
  obtain ⟨hb, hend⟩ := Holds.append_iff.mp hbs
  obtain ⟨tc, htc, hparse⟩ := h.parsesAs (u := u) fuel hfuel hb hbound
  obtain ⟨t, ht, hval⟩ := hparse (u 25)
  have hcursor : int32 (((17 + 8 : ℕ) : ℤ) + 1) = 26 := rfl
  rw [hcursor] at ht
  have hin : 17 + 8 + bs.length < binmsg.length := by exact_mod_cast (bounds_of_get? hend.get?).2
  refine ⟨linked t, (m.addReference t).refCount, ?_, by rw [value_linked, hval]⟩
  have hid' : memcpy binmsg 17 8 = pure (toBytes 8 id.toNat) :=
    memcpy_holds (p := 17) hid (toBytes_length _ _)
  rw [decodeReply, hid']
  change (readByte binmsg ((17 + 8 : ℕ) : ℤ) >>= _).result = _
  rw [readByte_eq htc]
  simp only [Traced.pure_bind, ofBytes_toBytes (n := 8) (v := id.toNat) id.toNat_lt]
  rw [Traced.result_bind_of_ok ht]
  simp only [pastEnd_of_lt hin, readByte_eq hend.get?, Traced.pure_bind, UInt64.ofNat_toNat]
  rfl

/-- The reply branch takes a message for corrupt whose string ends between 2^31 and 2^32. -/
theorem corrupt_of_decodeReply {id : UInt64} {s : Bytes} {fuel : ℕ} {m m' : NymphMessage}
    (hid : Holds binmsg 17 (toBytes 8 id.toNat)) (hs : Holds binmsg 25 (taggedString .uint32 s))
    (hlow : 2 ^ 31 ≤ 25 + (taggedString .uint32 s).length)
    (hhigh : 25 + (taggedString .uint32 s).length < 2 ^ 32) (hlength : s.length < 2 ^ 32)
    (h : (decodeReply u fuel binmsg m).result = .ok m') : m'.corrupt = true := by
  have hid' : memcpy binmsg 17 8 = pure (toBytes 8 id.toNat) :=
    memcpy_holds (p := 17) hid (toBytes_length _ _)
  have htc : readByte binmsg 25 = pure NymphInternalTypes.string.toByte := readByte_eq hs.get?
  rw [decodeReply, hid', Traced.pure_bind, htc, Traced.pure_bind] at h
  obtain ⟨val, hval, hrest⟩ := Traced.result_bind_eq_ok.mp h
  cases fuel with
  | zero => cases hval
  | succ fuel =>
    obtain ⟨-, hparse⟩ := parseString_tagged (t := .uint32) (fresh (u 25)) hlength hs (by decide)
    have hindex : val.index = int32 ((25 + (taggedString .uint32 s).length : ℕ) : ℤ) := by
      rw [← Except.ok.inj (hparse.symm.trans hval)]
    have hwrapped : val.index < 0 := by
      rw [hindex]
      unfold int32
      omega
    have hpast : pastEnd binmsg val.index = true := decide_eq_true (.inl hwrapped)
    dsimp only at hrest
    rw [if_pos hpast] at hrest
    rw [← Except.ok.inj hrest]
    rfl

/-- What a decode of a documented message arrives at. -/
structure Received (s : NymphMessage) (c : Content) (m : NymphMessage) : Prop where
  corrupt : m.corrupt = false
  methodId : m.methodId = s.methodId
  flags : m.flags = s.flags
  messageId : m.messageId = s.messageId
  carried : c.CarriedBy m

/-- A header, a payload that its flags announce, and a terminator decode to the payload's
content. Exceptions are excluded: the decoder does not follow their layout. -/
theorem decode_accepts {um : MessageUninit} {fuel : ℕ} {s : NymphMessage} {payload : Bytes}
    {c : Content} (hc : DenotesContent payload c) (hflags : c.Announced s)
    (hexception : ∀ id e, c ≠ .exception id e) (hheader : Holds binmsg 0 s.header)
    (hpayload : Holds binmsg 17 (payload ++ [NymphInternalTypes.none.toByte]))
    (hbound : 17 + payload.length < 2 ^ 31) (hfuel : payload.length + 1 ≤ fuel) :
    ∃ m, (decode u um fuel binmsg).result = .ok m ∧ Received s c m := by
  rw [decode_of_header hheader]
  cases hc with
  | regular h =>
    obtain ⟨hr, he, hcb⟩ := hflags
    rw [hr, he, hcb]
    obtain ⟨ts, rc, hts, hvals⟩ := decodeRegular_accepts (u := u) h fuel (opened um binmsg s) hfuel
      hpayload hbound
    exact ⟨_, hts, rfl, rfl, rfl, rfl, hvals⟩
  | callback hname h =>
    obtain ⟨hr, he, hcb⟩ := hflags
    rw [hr, he, hcb]
    rw [List.append_assoc] at hpayload
    rw [List.length_append] at hbound hfuel
    obtain ⟨ts, rc, hts, hvals⟩ := decodeCallback_accepts (u := u) hname h fuel (opened um binmsg s)
      (by omega) hpayload (by omega)
    exact ⟨_, hts, rfl, rfl, rfl, rfl, rfl, hvals⟩
  | reply id h =>
    have hr : s.isReply = true := hflags
    rw [hr]
    rw [List.append_assoc] at hpayload
    rw [List.length_append, toBytes_length] at hbound hfuel
    obtain ⟨t, rc, ht, hval⟩ := decodeReply_accepts (u := u) h fuel (opened um binmsg s)
      (by omega) hpayload (by omega)
    exact ⟨_, ht, rfl, rfl, rfl, rfl, rfl, congrArg some hval⟩
  | exception id exceptionId h => exact absurd rfl (hexception id _)

end NymphMessage

end NymphRpc
