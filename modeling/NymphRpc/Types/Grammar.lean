import NymphRpc.Types.Constructs

/-!
# The documented value grammar

The byte strings the protocol specification allows for each value. A string is written with
any length tag that can hold its length, or with the empty-string typecode; the pairs of a
struct come in any order, and the first pair of a repeated key counts. Each count and length
has to fit the field it is written in, and every array and struct is closed by the None
typecode.

The encoding of a value is one of its byte strings as long as the value has no null and no
empty key in it, which is what the constructors guarantee.
-/

namespace NymphRpc

open LittleEndian

/-- A string with a tagged length. -/
def taggedString (t : LengthTag) (s : Bytes) : Bytes :=
  NymphInternalTypes.string.toByte :: t.toByte :: (toBytes t.width s.length ++ s)

/-- The map a sequence of pairs describes: the first pair of each key, in key order. -/
def collectPairs (fs : List (Bytes × Value)) : List (Bytes × Value) :=
  fs.foldl (fun acc f => OrderedMap.insertEntry Prod.fst f acc) []

mutual

/-- The byte string encodes the value. -/
inductive Denotes : Bytes → Value → Prop
  | null : Denotes [NymphInternalTypes.null.toByte] .null
  | booleanFalse : Denotes [NymphInternalTypes.booleanFalse.toByte] (.boolean false)
  | booleanTrue : Denotes [NymphInternalTypes.booleanTrue.toByte] (.boolean true)
  | scalar (k bits) :
      Denotes ((NymphInternalTypes.scalar k).toByte :: toBytes k.width bits.toNat) (.scalar k bits)
  | emptyString : Denotes [NymphInternalTypes.emptyString.toByte] (.string [])
  | string (t s) (h : s.length < 256 ^ t.width) : Denotes (taggedString t s) (.string s)
  | array {bs vs} (h : DenotesAll bs vs) (hcount : vs.length < 256 ^ 8) :
      Denotes (NymphInternalTypes.array.toByte ::
        (toBytes 8 vs.length ++ (bs ++ [NymphInternalTypes.none.toByte]))) (.array vs)
  | struct {bs fs} (h : DenotesPairs bs fs) :
      Denotes (NymphInternalTypes.struct.toByte :: (bs ++ [NymphInternalTypes.none.toByte]))
        (.struct (collectPairs fs))

/-- The byte string encodes the values one after the other. -/
inductive DenotesAll : Bytes → List Value → Prop
  | nil : DenotesAll [] []
  | cons {b v bs vs} (hv : Denotes b v) (hvs : DenotesAll bs vs) : DenotesAll (b ++ bs) (v :: vs)

/-- The byte string encodes the pairs one after the other. -/
inductive DenotesPairs : Bytes → List (Bytes × Value) → Prop
  | nil : DenotesPairs [] []
  | cons {b v bs fs} (t k) (hk : k.length < 256 ^ t.width) (hv : Denotes b v)
      (hfs : DenotesPairs bs fs) :
      DenotesPairs (taggedString t k ++ (b ++ bs)) ((k, v) :: fs)

end

/-- Every encoding has a first byte, its typecode. -/
theorem Denotes.length_pos {bs : Bytes} {v : Value} (h : Denotes bs v) : 0 < bs.length := by
  cases h <;> simp [taggedString]

/-- Values take at least a byte each. -/
theorem DenotesAll.length_le : ∀ {bs : Bytes} {vs : List Value}, DenotesAll bs vs →
    vs.length ≤ bs.length
  | _, _, .nil => le_rfl
  | _, _, .cons hv hvs => by
    have hpos := hv.length_pos
    have hle := hvs.length_le
    simp only [List.length_cons, List.length_append]
    omega

namespace Value

/-- A non-empty string is encoded with the shortest tag. -/
theorem encodeString_of_ne_nil {s : Bytes} (h : s ≠ []) :
    encodeString s = taggedString (LengthTag.shortest s.length) s := by
  rw [encodeString, if_neg h, taggedString]

/-- A string is shorter than its encoding. -/
theorem length_lt_encodeString (s : Bytes) : s.length < (encodeString s).length := by
  unfold encodeString
  split_ifs with hs
  · subst hs
    exact Nat.one_pos
  · simp only [List.length_cons, List.length_append]
    omega

/-- The encoding of a string is one of its byte strings. -/
theorem denotes_encodeString {s : Bytes} (h : s.length < 2 ^ 64) :
    Denotes (encodeString s) (.string s) := by
  by_cases hs : s = []
  · subst hs
    exact .emptyString
  · rw [encodeString_of_ne_nil hs]
    exact .string _ _ (LengthTag.lt_shortest h)

/-- The encoding of a string never exceeds its reserved size, and meets it when the string is
not empty. -/
theorem length_encodeString (s : Bytes) (h : s.length < 2 ^ 64) :
    (encodeString s).length ≤ stringSize s.length ∧
      (s ≠ [] → (encodeString s).length = stringSize s.length) := by
  by_cases hs : s = []
  · subst hs
    simp [encodeString, stringSize]
  · have heq : (encodeString s).length = stringSize s.length := by
      rw [encodeString_of_ne_nil hs]
      simp only [taggedString, List.length_cons, List.length_append, toBytes_length]
      unfold LengthTag.shortest stringSize
      split_ifs <;> simp only [LengthTag.width, LengthTag.scalar, Scalar.width] <;> omega
    exact ⟨heq.le, fun _ => heq⟩

end Value

/-- A map already in key order is its own collection. -/
theorem collectPairs_of_sorted {fs : List (Bytes × Value)}
    (h : OrderedMap.Sorted (Prod.fst : Bytes × Value → Bytes) fs) : collectPairs fs = fs := by
  simpa [collectPairs] using
    OrderedMap.foldl_insertEntry_append (l := []) (by simpa using h)

mutual

/-- What the constructors build for is encoded within its reserved size, and the encoding is
one of the value's byte strings. -/
theorem Constructs.encode : ∀ {v : Value} {t : NymphType}, Constructs v t → v.size < 2 ^ 64 →
    Denotes v.encode v ∧ v.encode.length ≤ v.size
  | _, _, .boolean u b, _ => by
    cases b
    · exact ⟨.booleanFalse, le_rfl⟩
    · exact ⟨.booleanTrue, le_rfl⟩
  | _, _, .scalar u k bits, _ => by
    refine ⟨.scalar k bits, ?_⟩
    simp [Value.encode, Value.size, Nat.add_comm]
  | _, _, .chars s own hs, hsize => by
    have h : s.length < 2 ^ 64 := by omega
    exact ⟨Value.denotes_encodeString h, (Value.length_encodeString s h).1⟩
  | _, _, .string s own, hsize => by
    have h : s.length < 2 ^ 64 := lt_of_lt_of_le (Value.length_lt_stringSize _) hsize.le
    exact ⟨Value.denotes_encodeString h, (Value.length_encodeString s h).1⟩
  | _, _, @Constructs.array vs _ u own h, hsize => by
    simp only [Value.size] at hsize
    obtain ⟨hden, hlen⟩ := h.encode (by omega)
    have hcount := hden.length_le
    rw [Value.encode, List.append_assoc]
    refine ⟨.array hden (by omega), ?_⟩
    simp only [Value.size, List.length_cons, List.length_append, toBytes_length, List.length_nil]
    omega
  | _, _, @Constructs.struct fs _ u own h hsorted, hsize => by
    simp only [Value.size] at hsize
    obtain ⟨hden, hlen⟩ := h.encode (by omega)
    have hstruct := Denotes.struct hden
    rw [collectPairs_of_sorted hsorted] at hstruct
    refine ⟨hstruct, ?_⟩
    simp only [Value.encode, Value.size, List.length_cons, List.length_append, List.length_nil]
    omega

/-- The encodings of consecutive constructed values. -/
theorem ConstructsAll.encode : ∀ {vs : List Value} {ts : List NymphType}, ConstructsAll vs ts →
    Value.sizeAll vs < 2 ^ 64 →
      DenotesAll (Value.encodeAll vs) vs ∧ (Value.encodeAll vs).length ≤ Value.sizeAll vs
  | _, _, .nil, _ => ⟨.nil, le_rfl⟩
  | _, _, .cons hv hvs, hsize => by
    simp only [Value.sizeAll] at hsize
    obtain ⟨hden, hlen⟩ := hv.encode (by omega)
    obtain ⟨hdens, hlens⟩ := hvs.encode (by omega)
    refine ⟨.cons hden hdens, ?_⟩
    simp only [Value.encodeAll, Value.sizeAll, List.length_append]
    omega

/-- The encodings of the pairs of a constructed struct. -/
theorem ConstructsPairs.encode : ∀ {fs : List (Bytes × Value)} {ps : List NymphPair},
    ConstructsPairs fs ps → Value.sizeFields fs < 2 ^ 64 →
      DenotesPairs (Value.encodeFields fs) fs ∧
        (Value.encodeFields fs).length ≤ Value.sizeFields fs
  | _, _, .nil, _ => ⟨.nil, le_rfl⟩
  | _, _, .cons (k := k) hne hkey hv hps, hsize => by
    simp only [Value.sizeFields] at hsize
    obtain ⟨hden, hlen⟩ := hv.encode (by omega)
    obtain ⟨hdens, hlens⟩ := hps.encode (by omega)
    have hk : k.length < 2 ^ 64 := by
      have := Value.length_lt_stringSize k.length
      omega
    have hklen := (Value.length_encodeString k hk).1
    refine ⟨?_, ?_⟩
    · rw [Value.encodeFields, Value.encodeString_of_ne_nil hne, List.append_assoc]
      exact .cons _ _ (LengthTag.lt_shortest hk) hden hdens
    · simp only [Value.encodeFields, Value.sizeFields, List.length_append]
      omega

end

end NymphRpc
