import NymphRpc.Types.Grammar
import NymphRpc.Types.ParseValue

/-!
# The parser accepts the documented grammar

On any byte string of the value grammar, wherever it stands in a buffer and whatever follows
it, a fresh object parses it successfully, stops exactly behind it, and stands for the value
it encodes. Fuel for as many steps as there are bytes is enough. The induction is on the
derivation: an array or a struct hands each part of its encoding to the call that parses it.
-/

namespace NymphRpc

open LittleEndian Buffer NymphType

/-- A segment is copied from its position. -/
theorem memcpy_holds {binmsg seg : Bytes} {p n : ℕ} (h : Holds binmsg p seg) (hn : seg.length = n) :
    memcpy binmsg p n = pure seg :=
  memcpy_eq (hn ▸ h.slice?)

/-- Advancing the cursor by one below the signed bound. -/
theorem int32_natCast_succ {p : ℕ} (h : p + 1 < 2 ^ 31) :
    int32 ((p : ℤ) + 1) = ((p + 1 : ℕ) : ℤ) := by
  simpa using int32_natCast_add (p := p) (n := 1) h

/-- Inserting an entry inserts the pair it stands for. -/
theorem valuePairs_insertEntry (p : NymphPair) (ps : List NymphPair) :
    valuePairs (OrderedMap.insertEntry NymphPair.name p ps) =
      OrderedMap.insertEntry Prod.fst (p.name, p.value.value) (valuePairs ps) := by
  obtain ⟨k, key, val⟩ := p
  induction ps with
  | nil => rfl
  | cons q qs ih =>
    obtain ⟨k', key', val'⟩ := q
    simp only [OrderedMap.insertEntry, NymphPair.name, NymphPair.value, valuePairs] at ih ⊢
    cases compare k k' with
    | lt => rfl
    | eq => rfl
    | gt => simp only [valuePairs, ih]

/-- A tagged string parses to a string object over its characters in the buffer, and the index
after it may wrap around. -/
theorem parseString_tagged {binmsg s : Bytes} {p : ℕ} {t : LengthTag} (self : NymphType)
    (hs : s.length < 256 ^ t.width) (h : Holds binmsg p (taggedString t s))
    (hbound : p + 2 + t.width < 2 ^ 31) :
    Holds binmsg (p + 2 + t.width) s ∧
      (parseString self binmsg (p + 1 : ℕ)).result =
        .ok ⟨true, .string (self.members.setString s.length) (.block binmsg (p + 2 + t.width : ℕ)),
          int32 (p + (taggedString t s).length : ℕ)⟩ := by
  obtain ⟨-, h⟩ := Holds.cons_iff.mp h
  have htag := h.get?
  obtain ⟨-, h⟩ := Holds.cons_iff.mp h
  obtain ⟨hlen, hchars⟩ := Holds.append_iff.mp h
  rw [toBytes_length] at hchars
  have hlength : (taggedString t s).length = 2 + t.width + s.length := by
    simp only [taggedString, List.length_cons, List.length_append, toBytes_length]
    omega
  have hvalue : ofBytes (toBytes t.width s.length) = s.length := ofBytes_toBytes hs
  refine ⟨hchars, ?_⟩
  unfold parseString
  rw [readByte_eq htag]
  simp only [Traced.pure_bind, LengthTag.ofByte_toByte]
  rw [int32_natCast_succ (by omega), memcpy_holds hlen (toBytes_length _ _)]
  simp only [Traced.pure_bind, hvalue]
  rw [int32_natCast_add (by omega), Traced.result_bind_of_ok (Traced.result_tell _),
    Traced.result_pure, hlength]
  congr 3
  omega

/-- A tagged string below 2^31 parses to a string object over its characters in the buffer. -/
theorem parseString_holds {binmsg s : Bytes} {p : ℕ} {t : LengthTag} (self : NymphType)
    (hs : s.length < 256 ^ t.width) (h : Holds binmsg p (taggedString t s))
    (hbound : p + (taggedString t s).length < 2 ^ 31) :
    (self.members.setString s.length).strLength.toNat = s.length ∧
      Holds binmsg (p + 2 + t.width) s ∧
      (parseString self binmsg (p + 1 : ℕ)).result =
        .ok ⟨true, .string (self.members.setString s.length) (.block binmsg (p + 2 + t.width : ℕ)),
          (p + (taggedString t s).length : ℕ)⟩ := by
  have hlength : (taggedString t s).length = 2 + t.width + s.length := by
    simp only [taggedString, List.length_cons, List.length_append, toBytes_length]
    omega
  obtain ⟨hchars, hparse⟩ := parseString_tagged self hs h (by omega)
  rw [int32_eq (by omega) (by omega)] at hparse
  refine ⟨?_, hchars, hparse⟩
  change (UInt32.ofNat s.length).toNat = s.length
  rw [UInt32.toNat_ofNat']
  omega

/-- The characters of a string object over a buffer are read back from it. -/
theorem readString_holds {binmsg s : Bytes} {p : ℕ} {m : Members}
    (hm : m.strLength.toNat = s.length) (h : Holds binmsg p s) :
    readString (.string m (.block binmsg p)) = pure s := by
  rw [readString, hm, memcpy_holds h rfl]

/-- The value of a string object over a buffer. -/
theorem value_string_holds {binmsg s : Bytes} {p : ℕ} {m : Members}
    (hm : m.strLength.toNat = s.length) (h : Holds binmsg p s) :
    (NymphType.string m (.block binmsg p)).value = .string s := by
  simp only [NymphType.value, CharPtr.read, hm, h.slice?, Option.getD_some]

/-- The array case, once its count, its elements and the byte behind them are read. -/
theorem parseValue_array {u : ℤ → Uninit} {fuel : ℕ} {binmsg bs : Bytes} {index stop : ℤ}
    {self : NymphType} {vec : List NymphType} {tc : UInt8}
    (hcount : memcpy binmsg index 8 = pure bs) (hcap : ¬vectorMaxSize < ofBytes bs)
    (hvec : (parseElements u fuel (ofBytes bs) binmsg (int32 (index + 8))).result =
      .ok (vec, stop))
    (hend : Buffer.get? binmsg stop = some tc) :
    (parseValue u (fuel + 1) self NymphInternalTypes.array.toByte binmsg index).result =
      .ok ⟨true, .array { self.members with
        own := true, length := self.members.length + sumBytes vec + 10 } vec,
        int32 (stop + 1)⟩ := by
  rw [parseValue]
  simp only [NymphInternalTypes.ofByte_toByte]
  rw [hcount]
  simp only [Traced.pure_bind, hcap, if_false]
  rw [Traced.result_bind_of_ok hvec]
  simp only [readByte_eq hend, Traced.pure_bind, Traced.result_pure]

/-- A scalar is parsed where its bytes are. -/
theorem parseValue_scalar_holds {u : ℤ → Uninit} {fuel : ℕ} {binmsg : Bytes} {p : ℕ} {k : Scalar}
    {bits : BitVec (8 * k.width)} (u₀ : Uninit)
    (h : Holds binmsg p ((NymphInternalTypes.scalar k).toByte :: toBytes k.width bits.toNat))
    (hbound : p + (k.width + 1) < 2 ^ 31) :
    (parseValue u (fuel + 1) (fresh u₀) (NymphInternalTypes.scalar k).toByte binmsg
      (int32 (p + 1))).result =
      .ok ⟨true, .scalar ⟨.ofNat (1 + k.width), u₀.strLength, false, false, false⟩ k bits,
        (p + (k.width + 1) : ℕ)⟩ := by
  obtain ⟨-, hpayload⟩ := Holds.cons_iff.mp h
  have hbits : bits.toNat < 256 ^ k.width := by
    have hlt := bits.isLt
    rwa [Nat.pow_mul] at hlt
  rw [int32_natCast_succ (by omega), parseValue]
  simp only [NymphInternalTypes.ofByte_toByte]
  rw [memcpy_holds hpayload (toBytes_length _ _)]
  simp only [Traced.pure_bind, ofBytes_toBytes hbits, BitVec.ofNat_toNat, BitVec.setWidth_eq]
  rw [int32_natCast_add (by omega), Traced.result_pure]
  congr 2
  omega

/-- An array is parsed where its bytes are, if its elements are. -/
theorem parseValue_array_holds {u : ℤ → Uninit} {fuel : ℕ} {binmsg body : Bytes} {p n : ℕ}
    {ts : List NymphType} (u₀ : Uninit)
    (h : Holds binmsg p (NymphInternalTypes.array.toByte ::
      (toBytes 8 n ++ (body ++ [NymphInternalTypes.none.toByte]))))
    (hn : n ≤ body.length) (hbound : p + (body.length + 10) < 2 ^ 31)
    (hts : (parseElements u fuel n binmsg (p + 1 + 8 : ℕ)).result =
      .ok (ts, ((p + 1 + 8 + body.length : ℕ) : ℤ))) :
    (parseValue u (fuel + 1) (fresh u₀) NymphInternalTypes.array.toByte binmsg
      (int32 (p + 1))).result =
      .ok ⟨true, .array { (fresh u₀).members with
        own := true, length := (fresh u₀).members.length + sumBytes ts + 10 } ts,
        (p + (body.length + 10) : ℕ)⟩ := by
  obtain ⟨-, hrest⟩ := Holds.cons_iff.mp h
  obtain ⟨hcount, hrest⟩ := Holds.append_iff.mp hrest
  obtain ⟨-, hend⟩ := Holds.append_iff.mp hrest
  rw [toBytes_length] at hend
  have hvalue : ofBytes (toBytes 8 n) = n := ofBytes_toBytes (by omega)
  have hskip : int32 (((p + 1 : ℕ) : ℤ) + 8) = ((p + 1 + 8 : ℕ) : ℤ) :=
    int32_natCast_add (n := 8) (by omega)
  have hcap : ¬vectorMaxSize < ofBytes (toBytes 8 n) := by
    have hmax : vectorMaxSize = 1152921504606846975 := rfl
    omega
  have hstop : p + 1 + 8 + body.length + 1 = p + (body.length + 10) := by omega
  rw [← hvalue, ← hskip] at hts
  rw [int32_natCast_succ (by omega),
    parseValue_array (memcpy_holds hcount (toBytes_length _ _)) hcap hts hend.get?,
    int32_natCast_succ (by omega), hstop]

/-- A struct is parsed if its pairs are. -/
theorem parseValue_struct_holds {u : ℤ → Uninit} {fuel : ℕ} {binmsg : Bytes} {p : ℕ}
    {r : ParsedPairs} (u₀ : Uninit) (hbound : p + 1 < 2 ^ 31)
    (hr : (parsePairs u fuel binmsg (p + 1 : ℕ) [] 0).result = .ok r) (hok : r.ok = true) :
    (parseValue u (fuel + 1) (fresh u₀) NymphInternalTypes.struct.toByte binmsg
      (int32 (p + 1))).result =
      .ok ⟨true, .struct { (fresh u₀).members with
        own := true, length := (fresh u₀).members.length + r.length + 2 } r.pairs, r.index⟩ := by
  rw [int32_natCast_succ hbound, parseValue]
  simp only [NymphInternalTypes.ofByte_toByte]
  rw [Traced.result_bind_of_ok hr, if_pos hok, Traced.result_pure]

/-- One round of the array loop: an element, and the rest of the loop. -/
theorem parseElements_step {u : ℤ → Uninit} {fuel n : ℕ} {binmsg : Bytes} {index i stop : ℤ}
    {tc : UInt8} {t : NymphType} {ts : List NymphType} (htc : Buffer.get? binmsg index = some tc)
    (ht : (parseValue u fuel (fresh (u index)) tc binmsg (int32 (index + 1))).result =
      .ok ⟨true, t, i⟩)
    (hts : (parseElements u fuel n binmsg i).result = .ok (ts, stop)) :
    (parseElements u (fuel + 1) (n + 1) binmsg index).result = .ok (t :: ts, stop) := by
  rw [parseElements, readByte_eq htc]
  simp only [Traced.pure_bind]
  rw [Traced.result_bind_of_ok ht, Traced.result_bind_of_ok (Traced.result_tell _),
    Traced.result_bind_of_ok hts, Traced.result_pure]

/-- The struct loop ends at the terminator. -/
theorem parsePairs_end {u : ℤ → Uninit} {fuel : ℕ} {binmsg : Bytes} {p : ℕ} (acc : List NymphPair)
    (len : UInt64) (h : Buffer.get? binmsg p = some NymphInternalTypes.none.toByte)
    (hbound : p + 1 < 2 ^ 31) : (parsePairs u (fuel + 1) binmsg p acc len).result =
      .ok ⟨true, acc, len, ((p + 1 : ℕ) : ℤ)⟩ := by
  rw [parsePairs, readByte_eq h]
  simp only [Traced.pure_bind, if_true]
  rw [int32_natCast_succ hbound, Traced.result_pure]

/-- One round of the struct loop: a key, its value, and the rest of the loop. -/
theorem parsePairs_step {u : ℤ → Uninit} {fuel : ℕ} {binmsg name : Bytes} {index i j : ℤ}
    {pairs : List NymphPair} {len : UInt64} {key val : NymphType} {tc : UInt8}
    (hstring : Buffer.get? binmsg index = some NymphInternalTypes.string.toByte)
    (hkey : (parseValue u fuel (fresh (u index)) NymphInternalTypes.string.toByte binmsg
      (int32 (index + 1))).result = .ok ⟨true, key, i⟩)
    (htc : Buffer.get? binmsg i = some tc)
    (hval : (parseValue u fuel (fresh (u i)) tc binmsg (int32 (i + 1))).result =
      .ok ⟨true, val, j⟩)
    (hname : readString key = pure name) :
    (parsePairs u (fuel + 1) binmsg index pairs len).result =
      (parsePairs u fuel binmsg j
        (OrderedMap.insertEntry NymphPair.name (.mk name key val) pairs)
        (len + key.bytes + val.bytes)).result := by
  have hne : NymphInternalTypes.string.toByte ≠ NymphInternalTypes.none.toByte := by decide
  rw [parsePairs, readByte_eq hstring]
  simp only [Traced.pure_bind, if_neg hne, ne_eq, not_true_eq_false, if_false]
  rw [Traced.result_bind_of_ok hkey, Traced.result_bind_of_ok (Traced.result_tell _)]
  simp only [if_true, readByte_eq htc, Traced.pure_bind]
  rw [Traced.result_bind_of_ok hval, Traced.result_bind_of_ok (Traced.result_tell _)]
  simp only [if_true, hname, Traced.pure_bind]

/-- A fresh object parses the value whose typecode is at `p` and stops at `q`. -/
def ParsesAs (u : ℤ → Uninit) (fuel : ℕ) (binmsg : Bytes) (p q : ℕ) (v : Value) : Prop :=
  ∃ tc, Buffer.get? binmsg p = some tc ∧ ∀ u₀, ∃ t,
    (parseValue u fuel (fresh u₀) tc binmsg (int32 (p + 1))).result = .ok ⟨true, t, (q : ℕ)⟩ ∧
      t.value = v

section

variable {u : ℤ → Uninit} {binmsg : Bytes}

mutual

/-- A byte string of the grammar parses to the value it encodes. -/
theorem Denotes.parsesAs : ∀ {bs : Bytes} {v : Value}, Denotes bs v →
    ∀ (fuel : ℕ) {p : ℕ}, bs.length ≤ fuel → Holds binmsg p bs → p + bs.length < 2 ^ 31 →
      ParsesAs u fuel binmsg p (p + bs.length) v
  | _, _, h, 0, _, hfuel, _, _ => absurd h.length_pos (by omega)
  | _, _, .null, fuel + 1, p, _, h, hbound => by
    refine ⟨_, h.get?, fun u₀ => ⟨fresh u₀, ?_, rfl⟩⟩
    rw [int32_natCast_succ hbound]
    rfl
  | _, _, .booleanFalse, fuel + 1, p, _, h, hbound => by
    refine ⟨_, h.get?, fun u₀ => ⟨.boolean { (fresh u₀).members with length := 1 } false, ?_, rfl⟩⟩
    rw [int32_natCast_succ hbound]
    rfl
  | _, _, .booleanTrue, fuel + 1, p, _, h, hbound => by
    refine ⟨_, h.get?, fun u₀ => ⟨.boolean { (fresh u₀).members with length := 1 } true, ?_, rfl⟩⟩
    rw [int32_natCast_succ hbound]
    rfl
  | _, _, .scalar k bits, fuel + 1, p, _, h, hbound => by
    simp only [List.length_cons, toBytes_length] at hbound ⊢
    exact ⟨_, h.get?, fun u₀ => ⟨_, parseValue_scalar_holds u₀ h hbound, rfl⟩⟩
  | _, _, .emptyString, fuel + 1, p, _, h, hbound => by
    let m : Members := ⟨binaryStringLength 0, 0, true, false, false⟩
    refine ⟨_, h.get?, fun u₀ => ⟨.string m .null, ?_, rfl⟩⟩
    rw [int32_natCast_succ hbound]
    rfl
  | _, _, .string t s hs, fuel + 1, p, _, h, hbound => by
    refine ⟨_, h.get?, fun u₀ => ?_⟩
    obtain ⟨hm, hchars, hparse⟩ := parseString_holds (fresh u₀) hs h hbound
    refine ⟨_, ?_, value_string_holds hm hchars⟩
    have hlt : p + 1 < 2 ^ 31 := by simp only [taggedString, List.length_cons] at hbound; omega
    rw [int32_natCast_succ hlt]
    exact hparse
  | _, _, @Denotes.array bs vs hall _, fuel + 1, p, hfuel, h, hbound => by
    obtain ⟨hbody, -⟩ := Holds.append_iff.mp (Holds.append_iff.mp (Holds.cons_iff.mp h).2).2
    simp only [List.length_cons, List.length_append, toBytes_length, List.length_nil] at *
    obtain ⟨ts, hts, hval⟩ := hall.parseElements fuel (by omega) hbody (by omega)
    have hstop : p + (8 + (bs.length + (0 + 1)) + 1) = p + (bs.length + 10) := by omega
    rw [hstop]
    exact ⟨_, h.get?, fun u₀ =>
      ⟨_, parseValue_array_holds u₀ h hall.length_le (by omega) hts, by rw [NymphType.value, hval]⟩⟩
  | _, _, @Denotes.struct bs fs hpairs, fuel + 1, p, hfuel, h, hbound => by
    obtain ⟨-, hrest⟩ := Holds.cons_iff.mp h
    simp only [List.length_cons, List.length_append, List.length_nil] at *
    obtain ⟨r, hr, hok, hval, hindex⟩ :=
      hpairs.parsePairs fuel [] 0 (by omega) hrest (by omega)
    have hstop : r.index = ((p + (bs.length + (0 + 1) + 1) : ℕ) : ℤ) := by
      rw [hindex]
      omega
    refine ⟨_, h.get?, fun u₀ => ⟨_, hstop ▸ parseValue_struct_holds u₀ (by omega) hr hok, ?_⟩⟩
    rw [NymphType.value, hval, collectPairs]
    rfl

/-- Consecutive values parse as the elements of an array. -/
theorem DenotesAll.parseElements : ∀ {bs : Bytes} {vs : List Value}, DenotesAll bs vs →
    ∀ (fuel : ℕ) {p : ℕ}, bs.length + 1 ≤ fuel → Holds binmsg p bs → p + bs.length < 2 ^ 31 →
      ∃ ts, (NymphRpc.parseElements u fuel vs.length binmsg p).result =
          .ok (ts, ((p + bs.length : ℕ) : ℤ)) ∧ valueAll ts = vs
  | _, _, _, 0, _, hfuel, _, _ => absurd hfuel (by omega)
  | _, _, .nil, fuel + 1, p, _, _, _ => ⟨[], by simp [NymphRpc.parseElements], rfl⟩
  | _, _, @DenotesAll.cons b _ bs _ hv hvs, fuel + 1, p, hfuel, h, hbound => by
    obtain ⟨hb, hbs⟩ := Holds.append_iff.mp h
    have hpos := hv.length_pos
    rw [List.length_append] at hfuel hbound ⊢
    obtain ⟨tc, htc, hparse⟩ := hv.parsesAs fuel (by omega) hb (by omega)
    obtain ⟨t, ht, hval⟩ := hparse (u p)
    obtain ⟨ts, hts, hvals⟩ := hvs.parseElements fuel (by omega) hbs (by omega)
    refine ⟨t :: ts, ?_, by rw [valueAll, hval, hvals]⟩
    rw [← Nat.add_assoc]
    exact parseElements_step htc ht hts

/-- Consecutive pairs and the terminator parse as the entries of a struct. -/
theorem DenotesPairs.parsePairs : ∀ {bs : Bytes} {fs : List (Bytes × Value)}, DenotesPairs bs fs →
    ∀ (fuel : ℕ) {p : ℕ} (acc : List NymphPair) (len : UInt64), bs.length + 1 ≤ fuel →
      Holds binmsg p (bs ++ [NymphInternalTypes.none.toByte]) → p + bs.length + 1 < 2 ^ 31 →
        ∃ r, (NymphRpc.parsePairs u fuel binmsg p acc len).result = .ok r ∧ r.ok = true ∧
          valuePairs r.pairs =
            fs.foldl (fun acc f => OrderedMap.insertEntry Prod.fst f acc) (valuePairs acc) ∧
          r.index = ((p + bs.length + 1 : ℕ) : ℤ)
  | _, _, _, 0, _, _, _, hfuel, _, _ => absurd hfuel (by omega)
  | _, _, .nil, fuel + 1, p, acc, len, _, h, hbound =>
    ⟨_, parsePairs_end acc len h.get? hbound, rfl, rfl, rfl⟩
  | _, _, @DenotesPairs.cons b v bs _ t k hk hv hfs, fuel + 1, p, acc, len, hfuel, h,
      hbound => by
    rw [List.append_assoc, List.append_assoc] at h
    obtain ⟨hkey, hrest⟩ := Holds.append_iff.mp h
    obtain ⟨hb, hbs⟩ := Holds.append_iff.mp hrest
    have hpos := hv.length_pos
    have hkpos : 3 ≤ (taggedString t k).length := by
      have := t.width_bounds
      simp only [taggedString, List.length_cons, List.length_append, toBytes_length]
      omega
    simp only [List.length_append] at hfuel hbound ⊢
    obtain ⟨hmk, hchars, hparseKey⟩ := parseString_holds (fresh (u p)) hk hkey (by omega)
    obtain ⟨tc, htc, hparse⟩ := hv.parsesAs fuel (by omega) hb (by omega)
    obtain ⟨tv, htv, hval⟩ := hparse (u ((p + (taggedString t k).length : ℕ) : ℤ))
    obtain ⟨keyObj, hkeyObj⟩ : ∃ o, o = NymphType.string ((fresh (u p)).members.setString k.length)
      (.block binmsg ((p + 2 + t.width : ℕ) : ℤ)) := ⟨_, rfl⟩
    rw [← hkeyObj] at hparseKey
    obtain ⟨r, hr, hok, hpairs, hindex⟩ := hfs.parsePairs fuel
      (OrderedMap.insertEntry NymphPair.name (.mk k keyObj tv) acc)
      (len + keyObj.bytes + tv.bytes) (by omega) hbs (by omega)
    refine ⟨r, ?_, hok, ?_, ?_⟩
    · obtain ⟨f, rfl⟩ : ∃ f, fuel = f + 1 := ⟨fuel - 1, by omega⟩
      have hcall : (parseValue u (f + 1) (fresh (u p)) NymphInternalTypes.string.toByte binmsg
          (int32 (p + 1))).result =
            .ok ⟨true, keyObj, ((p + (taggedString t k).length : ℕ) : ℤ)⟩ := by
        rw [int32_natCast_succ (by omega), parseValue]
        exact hparseKey
      have hname : readString keyObj = pure k := by rw [hkeyObj, readString_holds hmk hchars]
      rw [parsePairs_step hkey.get? hcall htc htv hname, hr]
    · rw [hpairs, valuePairs_insertEntry, List.foldl_cons]
      simp only [NymphPair.name, NymphPair.value, hval]
    · rw [hindex]
      omega

end

end

end NymphRpc
