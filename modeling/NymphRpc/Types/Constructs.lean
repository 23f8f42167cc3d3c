import NymphRpc.Types.NymphType

/-!
# Objects made by the constructors

`Constructs v t` says that the object `t` is what the constructors build for the value `v`,
bottom up, whatever the uninitialised and ownership members hold. A struct is built over an
ordered map whose keys are non-empty and whose key objects hold the map keys. There is no
case for a default-constructed object, so nothing below such an object is null.

Constructed objects refine their values: serialising one writes the encoding of its value,
and `bytes()` is the reserved size.
-/

namespace NymphRpc

open LittleEndian NymphType

mutual

/-- The object the constructors build for a value. -/
inductive Constructs : Value → NymphType → Prop
  | boolean (u b) : Constructs (.boolean b) (ofBool u b)
  | scalar (u k bits) : Constructs (.scalar k bits) (ofScalar u k bits)
  | chars (s own) (h : s.length < 2 ^ 32) :
      Constructs (.string s) (ofChars s (.ofNat s.length) own)
  | string (s own) : Constructs (.string s) (ofString s own)
  | array {vs ts} (u own) (h : ConstructsAll vs ts) : Constructs (.array vs) (ofVector u ts own)
  | struct {fs ps} (u own) (h : ConstructsPairs fs ps)
      (hsorted : OrderedMap.Sorted (Prod.fst : Bytes × Value → Bytes) fs) :
      Constructs (.struct fs) (ofMap u ps own)

/-- The objects built for consecutive values. -/
inductive ConstructsAll : List Value → List NymphType → Prop
  | nil : ConstructsAll [] []
  | cons {v t vs ts} (hv : Constructs v t) (hvs : ConstructsAll vs ts) :
      ConstructsAll (v :: vs) (t :: ts)

/-- The map entries built for the pairs of a struct. -/
inductive ConstructsPairs : List (Bytes × Value) → List NymphPair → Prop
  | nil : ConstructsPairs [] []
  | cons {k v key t fs ps} (hne : k ≠ []) (hkey : Constructs (.string k) key)
      (hv : Constructs v t) (hps : ConstructsPairs fs ps) :
      ConstructsPairs ((k, v) :: fs) (.mk k key t :: ps)

end

/-- A constructed object has the type of its value. -/
theorem Constructs.valuetype {v : Value} {t : NymphType} (h : Constructs v t) :
    t.valuetype = v.valuetype := by
  cases h <;> rfl

namespace Value

/-- The characters of a string fit in its reserved size. -/
theorem length_lt_stringSize (n : ℕ) : n < stringSize n := by
  unfold stringSize
  split_ifs <;> omega

end Value

/-- The recorded string size is the reserved size, as long as it fits 64 bits. -/
theorem NymphType.binaryStringLength_toNat {n : ℕ} (h : n < 2 ^ 32) :
    (binaryStringLength (.ofNat n)).toNat = Value.stringSize n := by
  have hn : (UInt64.ofNat n).toNat = n := by
    rw [UInt64.toNat_ofNat']
    omega
  unfold binaryStringLength Value.stringSize
  simp only [UInt64.le_iff_toNat_le, hn, UInt64.reduceToNat]
  split_ifs <;> simp only [UInt64.toNat_add, hn, UInt64.reduceToNat] <;> omega

/-- Reading all characters of a block from its start. -/
theorem CharPtr.read_block_zero (s : Bytes) : CharPtr.read s.length (.block s 0) = some s := by
  have h := (Buffer.Holds.self s []).slice?
  simpa [CharPtr.read] using h

/-- A string object serialises to the encoding of its characters. -/
theorem NymphType.serializeString_eq {m : Members} {s : Bytes}
    (hlen : m.strLength.toNat = s.length) (hempty : m.emptyString = decide (s = [])) :
    serializeString m (.block s 0) = Value.encodeString s := by
  unfold serializeString Value.encodeString
  rw [hlen, CharPtr.read_block_zero, hempty]
  by_cases hs : s = [] <;> simp [hs]

/-- Converting a length that fits 32 bits keeps it. -/
theorem uint32_ofNat_toNat {n : ℕ} (h : n < 2 ^ 32) : (UInt32.ofNat n).toNat = n := by
  rw [UInt32.toNat_ofNat']
  omega

/-- A length that fits 32 bits is zero exactly for the empty string. -/
theorem decide_length_eq_zero {s : Bytes} (h : s.length < 2 ^ 32) :
    decide (UInt32.ofNat s.length = 0) = decide (s = []) := by
  have hiff : UInt32.ofNat s.length = 0 ↔ s = [] := by
    rw [← UInt32.toNat_inj, uint32_ofNat_toNat h]
    simp
  simp [hiff]

/-- What an object constructed for a value agrees with it on. -/
structure NymphType.Represents (v : Value) (t : NymphType) : Prop where
  serialize : t.serialize = v.encode
  bytes : t.bytes.toNat = v.size
  value : t.value = v

/-- Both string constructors represent the string, when its length fits 32 bits. -/
theorem NymphType.Represents.string {s : Bytes} (m : Members) (h : s.length < 2 ^ 32)
    (hlen : m.strLength = .ofNat s.length)
    (hbytes : m.length = binaryStringLength (.ofNat s.length))
    (hempty : m.emptyString = decide (UInt32.ofNat s.length = 0)) :
    Represents (.string s) (.string m (.block s 0)) where
  serialize := serializeString_eq (by rw [hlen, uint32_ofNat_toNat h])
    (by rw [hempty, decide_length_eq_zero h])
  bytes := by
    change m.length.toNat = Value.stringSize s.length
    rw [hbytes, binaryStringLength_toNat h]
  value := by
    rw [NymphType.value, hlen, uint32_ofNat_toNat h, CharPtr.read_block_zero]
    rfl

mutual

/-- A constructed object represents its value, when the reserved size fits 32 bits. -/
theorem Constructs.represents : ∀ {v : Value} {t : NymphType}, Constructs v t →
    v.size < 2 ^ 32 → NymphType.Represents v t
  | _, _, .boolean u b, _ => ⟨rfl, rfl, rfl⟩
  | _, _, .scalar u k bits, _ => by
    refine ⟨rfl, ?_, rfl⟩
    have hk := k.width_bounds
    change (UInt64.ofNat (1 + k.width)).toNat = 1 + k.width
    rw [UInt64.toNat_ofNat']
    omega
  | _, _, .chars s own h, _ => by
    refine NymphType.Represents.string _ h rfl ?_ rfl
    have hconv : (UInt32.ofNat s.length).toUInt64 = .ofNat s.length := by
      apply UInt64.toNat_inj.mp
      rw [UInt32.toNat_toUInt64, uint32_ofNat_toNat h, UInt64.toNat_ofNat']
      omega
    change binaryStringLength _ = _
    rw [hconv]
  | _, _, .string s own, hsize => by
    have h : s.length < 2 ^ 32 := lt_of_lt_of_le (Value.length_lt_stringSize _) hsize.le
    exact NymphType.Represents.string _ h rfl rfl rfl
  | _, _, @Constructs.array vs ts u own h, hsize => by
    simp only [Value.size] at hsize
    obtain ⟨hser, hbytes, hval, hlen⟩ := h.represents (by omega)
    refine ⟨?_, ?_, ?_⟩
    · simp only [ofVector, NymphType.serialize, Value.encode, hser, hlen]
    · change (sumBytes ts + 10).toNat = _
      rw [UInt64.toNat_add, hbytes, Value.size]
      simp only [UInt64.reduceToNat]
      omega
    · simp only [ofVector, NymphType.value, hval]
  | _, _, @Constructs.struct fs ps u own h hsorted, hsize => by
    simp only [Value.size] at hsize
    obtain ⟨hser, hbytes, hval⟩ := h.represents (by omega)
    refine ⟨?_, ?_, ?_⟩
    · simp only [ofMap, NymphType.serialize, Value.encode, hser]
    · change (sumPairBytes ps + 2).toNat = _
      rw [UInt64.toNat_add, hbytes, Value.size]
      simp only [UInt64.reduceToNat]
      omega
    · simp only [ofMap, NymphType.value, hval]

/-- Consecutive constructed objects represent their values. -/
theorem ConstructsAll.represents : ∀ {vs : List Value} {ts : List NymphType}, ConstructsAll vs ts →
    Value.sizeAll vs < 2 ^ 32 →
      serializeAll ts = Value.encodeAll vs ∧ (sumBytes ts).toNat = Value.sizeAll vs ∧
        valueAll ts = vs ∧ ts.length = vs.length
  | _, _, .nil, _ => ⟨rfl, rfl, rfl, rfl⟩
  | _, _, @ConstructsAll.cons _ t _ ts hv hvs, hsize => by
    simp only [Value.sizeAll] at hsize
    obtain ⟨hser, hbytes, hval⟩ := hv.represents (by omega)
    obtain ⟨hsers, hbytess, hvals, hlen⟩ := hvs.represents (by omega)
    refine ⟨?_, ?_, ?_, ?_⟩
    · simp only [serializeAll, Value.encodeAll, hser, hsers]
    · change (t.bytes + sumBytes ts).toNat = _
      rw [UInt64.toNat_add, hbytes, hbytess, Value.sizeAll]
      omega
    · simp only [valueAll, hval, hvals]
    · simp only [List.length_cons, hlen]

/-- The entries built for pairs represent them. -/
theorem ConstructsPairs.represents : ∀ {fs : List (Bytes × Value)} {ps : List NymphPair},
    ConstructsPairs fs ps → Value.sizeFields fs < 2 ^ 32 →
      serializePairs ps = Value.encodeFields fs ∧ (sumPairBytes ps).toNat = Value.sizeFields fs ∧
        valuePairs ps = fs
  | _, _, .nil, _ => ⟨rfl, rfl, rfl⟩
  | _, _, @ConstructsPairs.cons k _ key t _ ps hne hkey hv hps, hsize => by
    simp only [Value.sizeFields] at hsize
    obtain ⟨hserk, hbytesk, -⟩ := hkey.represents (by simpa only [Value.size] using by omega)
    obtain ⟨hser, hbytes, hval⟩ := hv.represents (by omega)
    obtain ⟨hsers, hbytess, hvals⟩ := hps.represents (by omega)
    refine ⟨?_, ?_, ?_⟩
    · simp only [serializePairs, Value.encodeFields, hserk, hser, hsers, Value.encode]
    · change (key.bytes + t.bytes + sumPairBytes ps).toNat = _
      rw [UInt64.toNat_add, UInt64.toNat_add, hbytesk, hbytes, hbytess, Value.sizeFields,
        Value.size]
      rw [Value.size] at hbytesk
      omega
    · simp only [valuePairs, hval, hvals]

end

end NymphRpc
