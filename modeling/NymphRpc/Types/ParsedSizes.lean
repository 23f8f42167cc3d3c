import NymphRpc.Types.ParseAccepts

/-!
# The sizes of parsed values

The parser adds the size of an array or a struct to the `length` of the object it fills in,
which the default constructor does not set. The memory a message is parsed into therefore
decides what `bytes()` returns: the sizes of a value and of everything nested in it are those
of their encodings exactly if `length` happens to hold zero wherever an array or a struct is
parsed.
-/

namespace NymphRpc

open LittleEndian Buffer NymphType

namespace Value

mutual

/-- No null and no empty string, and in every struct distinct keys that are not empty. -/
def Regular : Value → Prop
  | null => False
  | boolean _ | scalar _ _ => True
  | string s => s ≠ []
  | array vs => RegularAll vs
  | struct fs => (fs.map Prod.fst).Nodup ∧ RegularFields fs

/-- Every value is regular. -/
def RegularAll : List Value → Prop
  | [] => True
  | v :: vs => v.Regular ∧ RegularAll vs

/-- Every pair has a key that is not empty and a regular value. -/
def RegularFields : List (Bytes × Value) → Prop
  | [] => True
  | (k, v) :: fs => k ≠ [] ∧ v.Regular ∧ RegularFields fs

end

/-- The object the value is parsed into has a length of zero, if the value adds to it. -/
def Clear (u₀ : Uninit) : Value → Prop
  | array _ | struct _ => u₀.length = 0
  | _ => True

mutual

/-- The objects for the arrays and structs inside the value at a position have lengths of zero. -/
def ClearInside (u : ℤ → Uninit) : ℕ → Value → Prop
  | p, array vs => ClearAll u (p + 9) vs
  | p, struct fs => ClearFields u (p + 1) fs
  | _, _ => True

/-- The objects for the arrays and structs among consecutive values have lengths of zero. -/
def ClearAll (u : ℤ → Uninit) : ℕ → List Value → Prop
  | _, [] => True
  | p, v :: vs => v.Clear (u p) ∧ ClearInside u p v ∧ ClearAll u (p + v.encode.length) vs

/-- The objects for the arrays and structs among the pairs have lengths of zero. -/
def ClearFields (u : ℤ → Uninit) : ℕ → List (Bytes × Value) → Prop
  | _, [] => True
  | p, (k, v) :: fs =>
    v.Clear (u (p + (encodeString k).length : ℕ)) ∧
      ClearInside u (p + (encodeString k).length) v ∧
        ClearFields u (p + (encodeString k).length + v.encode.length) fs

end

/-- The encoding of pairs is as long as the encodings of its keys and values together. -/
theorem length_encodeFields (fs : List (Bytes × Value)) :
    (encodeFields fs).length =
      (fs.map fun f => (encodeString f.1).length + f.2.encode.length).sum := by
  induction fs with
  | nil => rfl
  | cons f fs ih =>
    simp only [encodeFields, List.length_append, List.map_cons, List.sum_cons, ih]

/-- A value is encoded in at least its typecode. -/
theorem length_encode_pos (v : Value) : 0 < v.encode.length := by
  cases v with
  | string s =>
    rw [encode, encodeString]
    split_ifs <;> exact Nat.succ_pos _
  | _ => exact Nat.succ_pos _

/-- Values are encoded in at least a byte each. -/
theorem length_le_encodeAll (vs : List Value) : vs.length ≤ (encodeAll vs).length := by
  induction vs with
  | nil => exact le_rfl
  | cons v vs ih =>
    have hpos := v.length_encode_pos
    simp only [encodeAll, List.length_cons, List.length_append]
    omega

end Value

namespace NymphType

mutual

/-- `bytes()` of the object and of every object nested in it is the length of its encoding. -/
def KnowsSize : NymphType → Prop
  | array m vector =>
    m.length.toNat = (array m vector).value.encode.length ∧ KnowsSizeAll vector
  | struct m pairs =>
    m.length.toNat = (struct m pairs).value.encode.length ∧ KnowsSizePairs pairs
  | t => t.bytes.toNat = t.value.encode.length

/-- Every element knows its size. -/
def KnowsSizeAll : List NymphType → Prop
  | [] => True
  | v :: vs => v.KnowsSize ∧ KnowsSizeAll vs

/-- Every key and value knows its size. -/
def KnowsSizePairs : List NymphPair → Prop
  | [] => True
  | .mk _ key value :: ps => (key.KnowsSize ∧ value.KnowsSize) ∧ KnowsSizePairs ps

end

/-- An object that knows its size has it in `bytes()`. -/
theorem KnowsSize.bytes_eq {t : NymphType} (h : t.KnowsSize) :
    t.bytes.toNat = t.value.encode.length := by
  cases t <;> first | exact h.1 | exact h

/-- The order of the entries does not matter. -/
theorem knowsSizePairs_iff (ps : List NymphPair) :
    KnowsSizePairs ps ↔ ∀ p ∈ ps, p.key.KnowsSize ∧ p.value.KnowsSize := by
  induction ps with
  | nil => simp [KnowsSizePairs]
  | cons p ps ih =>
    obtain ⟨name, key, value⟩ := p
    simp [KnowsSizePairs, ih, NymphPair.key, NymphPair.value]

/-- The pairs of a map, entry by entry. -/
theorem valuePairs_eq_map (ps : List NymphPair) :
    valuePairs ps = ps.map fun p => (p.name, p.value.value) := by
  induction ps with
  | nil => rfl
  | cons p ps ih =>
    obtain ⟨name, key, value⟩ := p
    simp only [valuePairs, ih, List.map_cons, NymphPair.name, NymphPair.value]

/-- The recorded sizes of elements that know them. -/
theorem KnowsSizeAll.sumBytes_eq {ts : List NymphType} (h : KnowsSizeAll ts)
    (hlen : (Value.encodeAll (valueAll ts)).length < 2 ^ 64) :
    (sumBytes ts).toNat = (Value.encodeAll (valueAll ts)).length := by
  induction ts with
  | nil => rfl
  | cons t ts ih =>
    simp only [valueAll, Value.encodeAll, List.length_append] at hlen ⊢
    have hrest := ih h.2 (by omega)
    have hhead := h.1.bytes_eq
    change (t.bytes + sumBytes ts).toNat = _
    rw [UInt64.toNat_add, hhead, hrest]
    omega

end NymphType

/-- The parser took an entry for a pair whose key it holds. -/
structure EntryRead (e : NymphPair) : Prop where
  key : e.key.value = .string e.name
  serializeKey : e.key.serialize = Value.encodeString e.name
  serializeValue : e.value.serialize = e.value.value.encode

/-- The recorded sizes of entries that know them. -/
theorem sumPairBytes_eq {ps : List NymphPair} (hread : ∀ e ∈ ps, EntryRead e)
    (h : KnowsSizePairs ps) (hlen : (Value.encodeFields (valuePairs ps)).length < 2 ^ 64) :
    (sumPairBytes ps).toNat = (Value.encodeFields (valuePairs ps)).length := by
  induction ps with
  | nil => rfl
  | cons p ps ih =>
    obtain ⟨name, key, value⟩ := p
    simp only [valuePairs, Value.encodeFields, List.length_append] at hlen ⊢
    have hrest := ih (fun e he => hread e (List.mem_cons_of_mem _ he)) h.2 (by omega)
    have hkey := (hread _ List.mem_cons_self).key
    simp only [NymphPair.key, NymphPair.name] at hkey
    have hbkey := h.1.1.bytes_eq
    have hbvalue := h.1.2.bytes_eq
    rw [hkey, Value.encode] at hbkey
    change (key.bytes + value.bytes + sumPairBytes ps).toNat = _
    rw [UInt64.toNat_add, UInt64.toNat_add, hbkey, hbvalue, hrest]
    omega

/-- The bytes written for entries that were read are the encoding of their pairs. -/
theorem serializePairs_eq {ps : List NymphPair} (hread : ∀ e ∈ ps, EntryRead e) :
    serializePairs ps = Value.encodeFields (valuePairs ps) := by
  induction ps with
  | nil => rfl
  | cons p ps ih =>
    obtain ⟨name, key, value⟩ := p
    have hp := hread _ List.mem_cons_self
    have hkey := hp.serializeKey
    have hvalue := hp.serializeValue
    simp only [NymphPair.key, NymphPair.name, NymphPair.value] at hkey hvalue
    rw [serializePairs, valuePairs, Value.encodeFields, hkey, hvalue,
      ih fun e he => hread e (List.mem_cons_of_mem _ he)]

/-- Adding a size to a length gives the size exactly if the length is zero. -/
theorem add_toNat_eq_iff {x s k : UInt64} {n : ℕ} (hs : s.toNat = n)
    (hn : n + k.toNat < 2 ^ 64) : (x + s + k).toNat = n + k.toNat ↔ x = 0 := by
  rw [← UInt64.toNat_inj, UInt64.toNat_add, UInt64.toNat_add, hs]
  have hx := x.toNat_lt
  simp only [UInt64.reduceToNat]
  omega

/-! ### What is parsed -/

/-- The object for a value at a position, made in the memory `u₀`. -/
structure Received (u : ℤ → Uninit) (p : ℕ) (v : Value) (u₀ : Uninit) (t : NymphType) : Prop where
  length : t.value.encode.length = v.encode.length
  serialize : t.serialize = t.value.encode
  knowsSize : t.KnowsSize ↔ v.Clear u₀ ∧ Value.ClearInside u p v

/-- The objects for consecutive values from a position on. -/
structure ReceivedAll (u : ℤ → Uninit) (p : ℕ) (vs : List Value) (ts : List NymphType) : Prop where
  count : (valueAll ts).length = vs.length
  length : (Value.encodeAll (valueAll ts)).length = (Value.encodeAll vs).length
  serialize : serializeAll ts = Value.encodeAll (valueAll ts)
  knowsSize : KnowsSizeAll ts ↔ Value.ClearAll u p vs

/-- The entries for the pairs from a position on, in the order in which they were read. -/
structure ReceivedPairs (u : ℤ → Uninit) (p : ℕ) (fs : List (Bytes × Value))
    (es : List NymphPair) : Prop where
  read : ∀ e ∈ es, EntryRead e
  length : (Value.encodeFields (valuePairs es)).length = (Value.encodeFields fs).length
  knowsSize : KnowsSizePairs es ↔ Value.ClearFields u p fs

/-- The objects of an array's elements make the array. -/
theorem ReceivedAll.array {u : ℤ → Uninit} {p : ℕ} {vs : List Value} {ts : List NymphType}
    (h : ReceivedAll u (p + 9) vs ts) (hlen : (Value.encodeAll vs).length < 2 ^ 32) (u₀ : Uninit)
    (m : Members) (hm : m.length = u₀.length + sumBytes ts + 10) :
    Received u p (.array vs) u₀ (.array m ts) := by
  have hcount : ts.length = (valueAll ts).length := by
    rw [valueAll_eq_map, List.length_map]
  have hsize : (Value.encode (.array (valueAll ts))).length = (Value.encodeAll vs).length + 10 := by
    simp only [Value.encode, List.length_cons, List.length_append, toBytes_length, h.length,
      List.length_nil]
    omega
  refine ⟨?_, ?_, ?_⟩
  · simp only [NymphType.value, Value.encode, List.length_cons, List.length_append, toBytes_length,
      h.length]
  · simp only [NymphType.serialize, NymphType.value, Value.encode, h.serialize, hcount]
  · have hiff : KnowsSizeAll ts → (m.length.toNat = (Value.encodeAll vs).length + 10 ↔
        u₀.length = 0) := by
      intro hknows
      rw [hm]
      refine add_toNat_eq_iff (k := 10) ?_ ?_
      · rw [hknows.sumBytes_eq (by rw [h.length]; omega), h.length]
      · simp only [UInt64.reduceToNat]
        omega
    simp only [NymphType.KnowsSize, NymphType.value, hsize, Value.Clear, Value.ClearInside,
      ← h.knowsSize]
    constructor
    · rintro ⟨hbytes, hknows⟩
      exact ⟨(hiff hknows).mp hbytes, hknows⟩
    · rintro ⟨hclear, hknows⟩
      exact ⟨(hiff hknows).mpr hclear, hknows⟩

/-- The entries of a struct's pairs, in any order, make the struct. -/
theorem ReceivedPairs.struct {u : ℤ → Uninit} {p : ℕ} {fs : List (Bytes × Value)}
    {es ps : List NymphPair} (h : ReceivedPairs u (p + 1) fs es) (hperm : ps.Perm es)
    (hlen : (Value.encodeFields fs).length < 2 ^ 32) (u₀ : Uninit) (m : Members)
    (hm : m.length = u₀.length + sumPairBytes es + 2) :
    Received u p (.struct fs) u₀ (.struct m ps) := by
  have hread : ∀ e ∈ ps, EntryRead e := fun e he => h.read e (hperm.mem_iff.mp he)
  have hfields : (Value.encodeFields (valuePairs ps)).length = (Value.encodeFields fs).length := by
    rw [← h.length, Value.length_encodeFields, Value.length_encodeFields, valuePairs_eq_map,
      valuePairs_eq_map]
    exact ((hperm.map _).map _).sum_nat
  have hsize : (Value.encode (.struct (valuePairs ps))).length =
      (Value.encodeFields fs).length + 2 := by
    simp only [Value.encode, List.length_cons, List.length_append, hfields, List.length_nil]
  have hknowsPairs : KnowsSizePairs ps ↔ KnowsSizePairs es := by
    simp only [knowsSizePairs_iff, hperm.mem_iff]
  refine ⟨?_, ?_, ?_⟩
  · simp only [NymphType.value, Value.encode, List.length_cons, List.length_append, hfields]
  · simp only [NymphType.serialize, NymphType.value, Value.encode, serializePairs_eq hread]
  · have hiff : KnowsSizePairs es → (m.length.toNat = (Value.encodeFields fs).length + 2 ↔
        u₀.length = 0) := by
      intro hknows
      rw [hm]
      refine add_toNat_eq_iff (k := 2) ?_ ?_
      · rw [sumPairBytes_eq h.read hknows (by rw [h.length]; omega), h.length]
      · simp only [UInt64.reduceToNat]
        omega
    simp only [NymphType.KnowsSize, NymphType.value, hsize, Value.Clear, Value.ClearInside,
      hknowsPairs, ← h.knowsSize]
    constructor
    · rintro ⟨hbytes, hknows⟩
      exact ⟨(hiff hknows).mp hbytes, hknows⟩
    · rintro ⟨hclear, hknows⟩
      exact ⟨(hiff hknows).mpr hclear, hknows⟩

/-- A string object that a non-empty string was parsed into. -/
theorem received_string {binmsg s : Bytes} {p q : ℕ} (u : ℤ → Uninit) (u₀ : Uninit) (hs : s ≠ [])
    (hlen : s.length < 2 ^ 32) (h : Holds binmsg q s) :
    Received u p (.string s) u₀
      (.string ((fresh u₀).members.setString s.length) (.block binmsg q)) := by
  have hstrLength : ((fresh u₀).members.setString s.length).strLength.toNat = s.length :=
    uint32_ofNat_toNat hlen
  have hvalue := value_string_holds hstrLength h
  have hread : (CharPtr.read ((fresh u₀).members.setString s.length).strLength.toNat
      (.block binmsg q)).getD [] = s := by
    rw [NymphType.value] at hvalue
    exact Value.string.inj hvalue
  have hempty : ((fresh u₀).members.setString s.length).emptyString = false := by
    simpa [Members.setString, fresh, members] using hs
  refine ⟨by rw [hvalue], ?_, ?_⟩
  · rw [hvalue, NymphType.serialize, serializeString, hread, hempty, hstrLength, Value.encode,
      Value.encodeString, if_neg hs]
    rfl
  · have hbytes : (NymphType.string ((fresh u₀).members.setString s.length)
        (.block binmsg q)).bytes.toNat = Value.stringSize s.length := binaryStringLength_toNat hlen
    have hsize := (Value.length_encodeString s (by omega)).2 hs
    simp only [NymphType.KnowsSize, hbytes, hvalue, Value.encode, hsize, Value.Clear,
      Value.ClearInside, and_self]

/-- An entry of a key and a value that were received. -/
theorem EntryRead.of_received {u : ℤ → Uninit} {p q : ℕ} {k : Bytes} {v : Value} {u₀ u₁ : Uninit}
    {key val : NymphType} (hkey : key.value = .string k) (hk : Received u p (.string k) u₀ key)
    (hv : Received u q v u₁ val) : EntryRead (.mk k key val) := by
  refine ⟨hkey, ?_, hv.serialize⟩
  have hser := hk.serialize
  rw [hkey, Value.encode] at hser
  exact hser

/-- One more pair in front. -/
theorem ReceivedPairs.cons {u : ℤ → Uninit} {p : ℕ} {k : Bytes} {v : Value}
    {fs : List (Bytes × Value)} {u₀ : Uninit} {key val : NymphType} {es : List NymphPair}
    (hkey : key.value = .string k) (hk : Received u p (.string k) u₀ key)
    (hv : Received u (p + (Value.encodeString k).length) v
      (u (p + (Value.encodeString k).length : ℕ)) val)
    (hes : ReceivedPairs u (p + (Value.encodeString k).length + v.encode.length) fs es) :
    ReceivedPairs u p ((k, v) :: fs) (.mk k key val :: es) := by
  refine ⟨?_, ?_, ?_⟩
  · intro e he
    rcases List.mem_cons.mp he with rfl | he
    · exact .of_received hkey hk hv
    · exact hes.read e he
  · simp only [valuePairs, Value.encodeFields, List.length_append, hv.length, hes.length]
  · have hkeyKnows : key.KnowsSize := hk.knowsSize.mpr ⟨trivial, trivial⟩
    simp only [KnowsSizePairs, Value.ClearFields, hkeyKnows, true_and, hv.knowsSize, hes.knowsSize,
      and_assoc]

section

variable {u : ℤ → Uninit} {binmsg : Bytes}

/-- A fresh object parses the value at a position and stops behind it. -/
def Receives (u : ℤ → Uninit) (binmsg : Bytes) (fuel p : ℕ) (v : Value) : Prop :=
  ∃ tc, Buffer.get? binmsg p = some tc ∧ ∀ u₀, ∃ t,
    (parseValue u fuel (fresh u₀) tc binmsg (int32 (p + 1))).result =
      .ok ⟨true, t, (p + v.encode.length : ℕ)⟩ ∧ Received u p v u₀ t

/-- A non-empty string is received, and its object holds it. -/
theorem receives_string {s : Bytes} {p : ℕ} (fuel : ℕ) (hs : s ≠ [])
    (h : Holds binmsg p (Value.encodeString s))
    (hbound : p + (Value.encodeString s).length < 2 ^ 31) (u₀ : Uninit) :
    Buffer.get? binmsg p = some NymphInternalTypes.string.toByte ∧ ∃ t,
      (parseValue u (fuel + 1) (fresh u₀) NymphInternalTypes.string.toByte binmsg
        (int32 (p + 1))).result = .ok ⟨true, t, (p + (Value.encodeString s).length : ℕ)⟩ ∧
      Received u p (.string s) u₀ t ∧ t.value = .string s ∧ readString t = pure s := by
  rw [Value.encodeString_of_ne_nil hs] at h hbound ⊢
  have hlen : (taggedString (LengthTag.shortest s.length) s).length =
      2 + (LengthTag.shortest s.length).width + s.length := by
    simp only [taggedString, List.length_cons, List.length_append, toBytes_length]
    omega
  obtain ⟨hm, hchars, hparse⟩ := parseString_holds (fresh u₀)
    (LengthTag.lt_shortest (by omega)) h hbound
  refine ⟨h.get?, _, ?_, received_string u u₀ hs (by omega) hchars, value_string_holds hm hchars,
    readString_holds hm hchars⟩
  rw [int32_natCast_succ (by omega), parseValue]
  exact hparse

/-- A boolean is received. -/
theorem receives_boolean {b : Bool} {p : ℕ} (fuel : ℕ)
    (h : Holds binmsg p (Value.boolean b).encode)
    (hbound : p + (Value.boolean b).encode.length < 2 ^ 31) :
    Receives u binmsg (fuel + 1) p (.boolean b) := by
  refine ⟨_, h.get?, fun u₀ => ⟨.boolean { (fresh u₀).members with length := 1 } b, ?_, ?_⟩⟩
  · have hlt : p + 1 < 2 ^ 31 := hbound
    rw [int32_natCast_succ hlt]
    cases b <;> rfl
  · exact ⟨rfl, rfl, by simp [NymphType.KnowsSize, NymphType.bytes, members, NymphType.value,
      Value.encode, Value.Clear, Value.ClearInside]⟩

/-- A scalar is received. -/
theorem receives_scalar {k : Scalar} {bits : BitVec (8 * k.width)} {p : ℕ} (fuel : ℕ)
    (h : Holds binmsg p (Value.scalar k bits).encode)
    (hbound : p + (Value.scalar k bits).encode.length < 2 ^ 31) :
    Receives u binmsg (fuel + 1) p (.scalar k bits) := by
  simp only [Value.encode, List.length_cons, toBytes_length] at hbound
  refine ⟨_, h.get?, fun u₀ => ⟨.scalar ⟨.ofNat (1 + k.width), u₀.strLength, false, false, false⟩
    k bits, ?_, rfl, rfl, ?_⟩⟩
  · rw [parseValue_scalar_holds u₀ h hbound, Value.encode, List.length_cons, toBytes_length]
  · have hwidth := k.width_bounds
    have hlength : (UInt64.ofNat (1 + k.width)).toNat = k.width + 1 := by
      rw [UInt64.toNat_ofNat']
      omega
    simp only [NymphType.KnowsSize, NymphType.bytes, members, NymphType.value, Value.encode,
      List.length_cons, toBytes_length, hlength, Value.Clear, Value.ClearInside, and_self]

/-- An array is received if its elements are. -/
theorem receives_array {vs : List Value} {ts : List NymphType} {fuel p : ℕ}
    (h : Holds binmsg p (Value.array vs).encode)
    (hbound : p + (Value.array vs).encode.length < 2 ^ 31)
    (hts : (parseElements u fuel vs.length binmsg (p + 1 + 8 : ℕ)).result =
      .ok (ts, ((p + 1 + 8 + (Value.encodeAll vs).length : ℕ) : ℤ)))
    (hrec : ReceivedAll u (p + 1 + 8) vs ts) : Receives u binmsg (fuel + 1) p (.array vs) := by
  have hsize : (Value.encode (.array vs)).length = (Value.encodeAll vs).length + 10 := by
    simp only [Value.encode, List.length_cons, List.length_append, toBytes_length,
      List.length_nil]
    omega
  rw [hsize] at hbound
  rw [Value.encode, List.append_assoc] at h
  rw [Receives, hsize]
  exact ⟨_, h.get?, fun u₀ => ⟨_, parseValue_array_holds u₀ h (Value.length_le_encodeAll vs) hbound
    hts, hrec.array (by omega) u₀ _ rfl⟩⟩

/-- A struct is received if its pairs are. -/
theorem receives_struct {fs : List (Bytes × Value)} {r : ParsedPairs} {es : List NymphPair}
    {fuel p : ℕ} (h : Holds binmsg p (Value.struct fs).encode)
    (hbound : p + (Value.struct fs).encode.length < 2 ^ 31)
    (hr : (parsePairs u fuel binmsg (p + 1 : ℕ) [] 0).result = .ok r) (hok : r.ok = true)
    (hindex : r.index = ((p + 1 + (Value.encodeFields fs).length + 1 : ℕ) : ℤ))
    (hperm : r.pairs.Perm es) (hlength : r.length = sumPairBytes es)
    (hrec : ReceivedPairs u (p + 1) fs es) : Receives u binmsg (fuel + 1) p (.struct fs) := by
  have hsize : (Value.encode (.struct fs)).length = (Value.encodeFields fs).length + 2 := by
    simp only [Value.encode, List.length_cons, List.length_append, List.length_nil]
  rw [hsize] at hbound
  have hstop : r.index = ((p + (Value.encode (.struct fs)).length : ℕ) : ℤ) := by
    rw [hindex, hsize]
    omega
  refine ⟨_, h.get?, fun u₀ => ⟨_, hstop ▸ parseValue_struct_holds u₀ (by omega) hr hok,
    hrec.struct hperm (by omega) u₀ _ ?_⟩⟩
  rw [← hlength]
  rfl

mutual

/-- A regular value is received. -/
theorem Value.Regular.receives : ∀ {v : Value}, v.Regular → ∀ (fuel : ℕ) {p : ℕ},
    v.encode.length ≤ fuel → Holds binmsg p v.encode → p + v.encode.length < 2 ^ 31 →
      Receives u binmsg fuel p v
  | .null, hreg, _, _, _, _, _ => hreg.elim
  | v, _, 0, _, hfuel, _, _ => absurd hfuel (Nat.not_le.mpr v.length_encode_pos)
  | .boolean b, _, fuel + 1, p, _, h, hbound => receives_boolean fuel h hbound
  | .scalar k bits, _, fuel + 1, p, _, h, hbound => receives_scalar fuel h hbound
  | .string s, hs, fuel + 1, p, _, h, hbound => by
    refine ⟨_, (receives_string (u := u) fuel hs h hbound ⟨0, 0⟩).1, fun u₀ => ?_⟩
    obtain ⟨-, t, hparse, hrec, -⟩ := receives_string (u := u) fuel hs h hbound u₀
    exact ⟨t, hparse, hrec⟩
  | .array vs, hreg, fuel + 1, p, hfuel, h, hbound => by
    have hrest := h
    rw [Value.encode, List.append_assoc] at hrest
    obtain ⟨hbody, -⟩ := Holds.append_iff.mp (Holds.append_iff.mp (Holds.cons_iff.mp hrest).2).2
    rw [toBytes_length] at hbody
    have hlength := hbound
    simp only [Value.encode, List.length_cons, List.length_append, toBytes_length,
      List.length_nil] at hfuel hlength
    have hall : Value.RegularAll vs := hreg
    obtain ⟨ts, hts, hrec⟩ := hall.receives fuel (by omega) hbody (by omega)
    exact receives_array h hbound hts hrec
  | .struct fs, hreg, fuel + 1, p, hfuel, h, hbound => by
    obtain ⟨-, hrest⟩ := Holds.cons_iff.mp h
    have hlength := hbound
    simp only [Value.encode, List.length_cons, List.length_append, List.length_nil]
      at hfuel hlength
    obtain ⟨r, es, hr, hok, hindex, hperm, hbytes, hrec⟩ :=
      Value.RegularFields.receives hreg.2 hreg.1 fuel [] 0 (fun e he => by cases he) (by omega)
        hrest (by omega)
    rw [List.nil_append] at hperm
    rw [UInt64.zero_add] at hbytes
    exact receives_struct h hbound hr hok hindex hperm hbytes hrec

/-- Regular elements are received. -/
theorem Value.RegularAll.receives : ∀ {vs : List Value}, Value.RegularAll vs →
    ∀ (fuel : ℕ) {p : ℕ}, (Value.encodeAll vs).length + 1 ≤ fuel →
      Holds binmsg p (Value.encodeAll vs) → p + (Value.encodeAll vs).length < 2 ^ 31 →
      ∃ ts, (parseElements u fuel vs.length binmsg p).result =
          .ok (ts, ((p + (Value.encodeAll vs).length : ℕ) : ℤ)) ∧ ReceivedAll u p vs ts
  | [], _, 0, _, hfuel, _, _ => by omega
  | [], _, fuel + 1, p, _, _, _ =>
    ⟨[], by simp [parseElements, Value.encodeAll], rfl, rfl, rfl, Iff.rfl⟩
  | v :: vs, _, 0, _, hfuel, _, _ => by omega
  | v :: vs, hreg, fuel + 1, p, hfuel, h, hbound => by
    have hpos := v.length_encode_pos
    obtain ⟨hb, hbs⟩ := Holds.append_iff.mp h
    simp only [Value.encodeAll, List.length_append] at hfuel hbound ⊢
    obtain ⟨tc, htc, hparse⟩ := hreg.1.receives fuel (by omega) hb (by omega)
    obtain ⟨t, ht, hrec⟩ := hparse (u p)
    obtain ⟨ts, hts, hrecs⟩ := Value.RegularAll.receives hreg.2 fuel (by omega) hbs (by omega)
    refine ⟨t :: ts, ?_, ?_, ?_, ?_, ?_⟩
    · rw [← Nat.add_assoc]
      exact parseElements_step htc ht hts
    · simp only [valueAll, List.length_cons, hrecs.count]
    · simp only [valueAll, Value.encodeAll, List.length_append, hrec.length, hrecs.length]
    · rw [serializeAll, valueAll, Value.encodeAll, hrec.serialize, hrecs.serialize]
    · simp only [KnowsSizeAll, Value.ClearAll, hrec.knowsSize, hrecs.knowsSize, and_assoc]

/-- Regular pairs are received, whatever distinct keys were read before. -/
theorem Value.RegularFields.receives : ∀ {fs : List (Bytes × Value)}, Value.RegularFields fs →
    (fs.map Prod.fst).Nodup → ∀ (fuel : ℕ) {p : ℕ} (acc : List NymphPair) (len : UInt64),
      (∀ e ∈ acc, e.name ∉ fs.map Prod.fst) → (Value.encodeFields fs).length + 1 ≤ fuel →
        Holds binmsg p (Value.encodeFields fs ++ [NymphInternalTypes.none.toByte]) →
          p + (Value.encodeFields fs).length + 1 < 2 ^ 31 →
            ∃ r es, (parsePairs u fuel binmsg p acc len).result = .ok r ∧ r.ok = true ∧
              r.index = ((p + (Value.encodeFields fs).length + 1 : ℕ) : ℤ) ∧
              r.pairs.Perm (acc ++ es) ∧ r.length = len + sumPairBytes es ∧
              ReceivedPairs u p fs es
  | [], _, _, 0, _, _, _, _, hfuel, _, _ => by omega
  | [], _, _, fuel + 1, p, acc, len, _, _, h, hbound => by
    refine ⟨_, [], parsePairs_end acc len h.get? hbound, rfl, rfl, ?_, ?_, ?_⟩
    · rw [List.append_nil]
    · exact (UInt64.add_zero len).symm
    · exact ⟨fun e he => (by cases he), rfl, Iff.rfl⟩
  | (k, v) :: fs, _, _, 0, _, _, _, _, hfuel, _, _ => by omega
  | (k, v) :: fs, hreg, hnodup, fuel + 1, p, acc, len, hnew, hfuel, h, hbound => by
    obtain ⟨hk, hv, hfs⟩ := hreg
    have hkpos := Value.length_lt_encodeString k
    have hpos := v.length_encode_pos
    rw [Value.encodeFields, List.append_assoc, List.append_assoc] at h
    obtain ⟨hkey, hrest⟩ := Holds.append_iff.mp h
    obtain ⟨hb, hbs⟩ := Holds.append_iff.mp hrest
    simp only [Value.encodeFields, List.length_append] at hfuel hbound ⊢
    obtain ⟨f, rfl⟩ : ∃ f, fuel = f + 1 := ⟨fuel - 1, by omega⟩
    obtain ⟨htck, key, hparseKey, hreck, hkeyValue, hname⟩ :=
      receives_string (u := u) f hk hkey (by omega) (u p)
    obtain ⟨tc, htc, hparse⟩ := hv.receives (f + 1) (by omega) hb (by omega)
    obtain ⟨val, hval, hrec⟩ := hparse (u ((p + (Value.encodeString k).length : ℕ) : ℤ))
    obtain ⟨hknew, hnodup'⟩ := List.nodup_cons.mp hnodup
    have hfresh : ∀ e ∈ acc, e.name ≠ k := by
      intro e he heq
      exact hnew e he (heq ▸ List.mem_cons_self)
    have hperm : (OrderedMap.insertEntry NymphPair.name (.mk k key val) acc).Perm
        (.mk k key val :: acc) := OrderedMap.insertEntry_perm hfresh
    have hnew' : ∀ e ∈ OrderedMap.insertEntry NymphPair.name (.mk k key val) acc,
        e.name ∉ fs.map Prod.fst := by
      intro e he
      rcases List.mem_cons.mp (hperm.mem_iff.mp he) with rfl | he
      · exact hknew
      · exact fun hmem => hnew e he (List.mem_cons_of_mem _ hmem)
    obtain ⟨r, es, hr, hok, hindex, hpairs, hlength, hrecs⟩ := Value.RegularFields.receives hfs
      hnodup' (f + 1) (OrderedMap.insertEntry NymphPair.name (.mk k key val) acc)
      (len + key.bytes + val.bytes) hnew' (by omega) hbs (by omega)
    refine ⟨r, .mk k key val :: es, ?_, hok, ?_, ?_, ?_, .cons hkeyValue hreck hrec hrecs⟩
    · rw [parsePairs_step htck hparseKey htc hval hname, hr]
    · rw [hindex]
      omega
    · exact hpairs.trans ((hperm.append_right es).trans List.perm_middle.symm)
    · rw [hlength]
      change _ = len + (key.bytes + val.bytes + sumPairBytes es)
      simp only [UInt64.add_assoc]

end

end

/-- The parser takes the encoding of a regular value for an object that is written in as many
bytes, and that knows its size and the sizes of everything in it exactly if the memory the
arrays and structs were parsed into held lengths of zero. -/
theorem parseValue_knowsSize_iff {v : Value} (hreg : v.Regular) (pre suffix : Bytes)
    (hlen : (pre ++ (v.encode ++ suffix)).length < 2 ^ 31) (u : ℤ → Uninit) (u₀ : Uninit)
    (fuel : ℕ) (hfuel : v.encode.length ≤ fuel) :
    ∃ tc rest t, v.encode = tc :: rest ∧
      (parseValue u fuel (fresh u₀) tc (pre ++ (v.encode ++ suffix)) (pre.length + 1 : ℕ)).result =
        .ok ⟨true, t, (pre.length + v.encode.length : ℕ)⟩ ∧
      t.value.encode.length = v.encode.length ∧ t.serialize.length = v.encode.length ∧
      (t.KnowsSize ↔ v.Clear u₀ ∧ Value.ClearInside u pre.length v) := by
  simp only [List.length_append] at hlen
  have hpos := v.length_encode_pos
  have hholds := Holds.append pre v.encode suffix
  obtain ⟨tc, htc, hparse⟩ := hreg.receives (u := u) fuel hfuel hholds (by omega)
  obtain ⟨t, ht, hrec⟩ := hparse u₀
  obtain ⟨b, rest, henc⟩ := List.exists_cons_of_length_pos hpos
  have hfirst : Holds (pre ++ (v.encode ++ suffix)) pre.length (b :: rest) := by
    rw [← henc]
    exact hholds
  obtain rfl : b = tc := Option.some.inj (hfirst.get?.symm.trans htc)
  rw [int32_natCast_succ (by omega)] at ht
  exact ⟨b, rest, t, henc, ht, hrec.length, hrec.serialize ▸ hrec.length, hrec.knowsSize⟩

/-- The array [[true]] parsed into memory that is all zero knows its sizes. -/
theorem parseValue_knowsSize_nested :
    ∃ t, (parseValue (fun _ => ⟨0, 0⟩) 30 (fresh ⟨0, 7⟩) NymphInternalTypes.array.toByte
        (Value.encode (.array [.array [.boolean true]])) 1).result = .ok ⟨true, t, 21⟩ ∧
      t.KnowsSize := by
  have hreg : (Value.array [.array [.boolean true]]).Regular := ⟨⟨trivial, trivial⟩, trivial⟩
  obtain ⟨tc, rest, t, henc, hparse, -, -, hiff⟩ := parseValue_knowsSize_iff hreg [] []
    (by decide) (fun _ => ⟨0, 0⟩) ⟨0, 7⟩ 30 (by decide)
  obtain ⟨rfl, -⟩ := List.cons.inj henc
  exact ⟨t, hparse, hiff.mpr ⟨rfl, rfl, ⟨trivial, trivial, trivial⟩, trivial⟩⟩

/-- The array [true] parsed into an object whose length held one is a byte too long. -/
theorem not_knowsSize_uninitialised :
    ∃ t, (parseValue (fun _ => ⟨0, 0⟩) 20 (fresh ⟨1, 0⟩) NymphInternalTypes.array.toByte
        (Value.encode (.array [.boolean true])) 1).result = .ok ⟨true, t, 11⟩ ∧
      t.bytes = 12 ∧ ¬t.KnowsSize := by
  refine ⟨.array ⟨12, 0, false, true, false⟩ [.boolean ⟨1, 0, false, false, false⟩ true], rfl, rfl,
    fun h => ?_⟩
  exact absurd h.1 (by decide)

end NymphRpc
