import NymphRpc.Types.Consumption

/-!
# Objects with nulls and empty keys

Beside what the constructors build for a value there are default-constructed objects, which
are null, and structs may have an empty key. `Builds` covers both, in any positions. A null
serialises to nothing and an empty key to a single byte, so an object with either is written
in fewer bytes than any encoding of its value has; without them the encoding is written.
-/

namespace NymphRpc

open LittleEndian Buffer NymphType

namespace Value

mutual

/-- A null or an empty key stands somewhere in the value. -/
def hasNullOrEmptyKey : Value → Bool
  | null => true
  | boolean _ | scalar _ _ | string _ => false
  | array vs => hasNullOrEmptyKeyAll vs
  | struct fs => hasNullOrEmptyKeyFields fs

/-- One of the values has a null or an empty key. -/
def hasNullOrEmptyKeyAll : List Value → Bool
  | [] => false
  | v :: vs => v.hasNullOrEmptyKey || hasNullOrEmptyKeyAll vs

/-- One of the pairs has an empty key, or a null or an empty key in its value. -/
def hasNullOrEmptyKeyFields : List (Bytes × Value) → Bool
  | [] => false
  | (k, v) :: fs => decide (k = []) || v.hasNullOrEmptyKey || hasNullOrEmptyKeyFields fs

end

/-- A longer string takes at least as many bytes. -/
theorem stringSize_le {m n : ℕ} (h : m ≤ n) : stringSize m ≤ stringSize n := by
  unfold stringSize
  split_ifs <;> omega

end Value

mutual

/-- The object the constructors build for a value, the default constructor included. -/
inductive Builds : Value → NymphType → Prop
  | null (u) : Builds .null (fresh u)
  | boolean (u b) : Builds (.boolean b) (ofBool u b)
  | scalar (u k bits) : Builds (.scalar k bits) (ofScalar u k bits)
  | chars (s own) (h : s.length < 2 ^ 32) : Builds (.string s) (ofChars s (.ofNat s.length) own)
  | string (s own) : Builds (.string s) (ofString s own)
  | array {vs ts} (u own) (h : BuildsAll vs ts) : Builds (.array vs) (ofVector u ts own)
  | struct {fs ps} (u own) (h : BuildsPairs fs ps)
      (hsorted : OrderedMap.Sorted (Prod.fst : Bytes × Value → Bytes) fs) :
      Builds (.struct fs) (ofMap u ps own)

/-- The objects built for consecutive values. -/
inductive BuildsAll : List Value → List NymphType → Prop
  | nil : BuildsAll [] []
  | cons {v t vs ts} (hv : Builds v t) (hvs : BuildsAll vs ts) : BuildsAll (v :: vs) (t :: ts)

/-- The map entries built for the pairs of a struct. -/
inductive BuildsPairs : List (Bytes × Value) → List NymphPair → Prop
  | nil : BuildsPairs [] []
  | cons {k v key t fs ps} (hkey : Builds (.string k) key) (hv : Builds v t)
      (hps : BuildsPairs fs ps) : BuildsPairs ((k, v) :: fs) (.mk k key t :: ps)

end

/-- One object for each value. -/
theorem BuildsAll.length_eq : ∀ {vs : List Value} {ts : List NymphType}, BuildsAll vs ts →
    ts.length = vs.length
  | _, _, .nil => rfl
  | _, _, .cons _ hvs => congrArg Nat.succ hvs.length_eq

/-! ### Too few bytes -/

/-- A string object over its characters is written in at most the shortest encoding. -/
theorem length_serializeString_le (s : Bytes) (m : Members) (hlen : m.strLength.toNat ≤ s.length)
    (hempty : m.emptyString = decide (m.strLength = 0)) :
    (serializeString m (.block s 0)).length ≤ (Value.string s).shortest := by
  have hpos := (Value.string s).shortest_pos
  have hread : (CharPtr.read m.strLength.toNat (.block s 0)).getD [] =
      s.take m.strLength.toNat := by
    have hslice := (Holds.self (s.take m.strLength.toNat) (s.drop m.strLength.toNat)).slice?
    rw [List.take_append_drop, List.length_take, Nat.min_eq_left hlen] at hslice
    exact congrArg (fun x => x.getD []) hslice
  rw [serializeString, hread, hempty]
  by_cases hzero : m.strLength = 0
  · simpa [hzero] using Nat.succ_le_of_lt hpos
  · have hne : s ≠ [] := by
      rintro rfl
      exact hzero (UInt32.toNat_inj.mp (Nat.le_zero.mp hlen))
    have hsize := Value.stringSize_le hlen
    rw [Value.shortest, if_neg hne]
    refine le_trans (le_of_eq ?_) hsize
    simp only [hzero, decide_false, Bool.false_eq_true, if_false, List.length_append,
      List.length_cons, toBytes_length, List.length_take, Nat.min_eq_left hlen]
    unfold LengthTag.shortest Value.stringSize
    split_ifs <;> simp only [LengthTag.width, LengthTag.scalar, Scalar.width]

/-- Whatever string constructor is used, at most the shortest encoding is written. -/
theorem Builds.length_string_le {s : Bytes} {t : NymphType} (h : Builds (.string s) t) :
    t.serialize.length ≤ (Value.string s).shortest := by
  cases h with
  | chars _ own h =>
    exact length_serializeString_le s _ (uint32_ofNat_toNat h).le rfl
  | string _ own =>
    refine length_serializeString_le s _ ?_ rfl
    rw [UInt32.toNat_ofNat']
    exact Nat.mod_le _ _

/-- A key is written in at most its tagged form, and less when it is empty. -/
theorem Builds.length_key {k : Bytes} {key : NymphType} (h : Builds (.string k) key) :
    key.serialize.length + (decide (k = [])).toNat ≤ Value.stringSize k.length := by
  have hle := h.length_string_le
  by_cases hk : k = []
  · subst hk
    have hone : (Value.string []).shortest = 1 := rfl
    have hthree : Value.stringSize ([] : Bytes).length = 3 := rfl
    simp only [decide_true, Bool.toNat_true]
    omega
  · have hsize := Value.shortest_string_le k
    simp only [hk, decide_false, Bool.toNat_false]
    omega

/-- A disjunction counts no more than its parts. -/
theorem toNat_or_le (a b : Bool) : (a || b).toNat ≤ a.toNat + b.toNat := by
  cases a <;> cases b <;> decide

mutual

/-- At most the shortest encoding is written, and less when there is a null or an empty key. -/
theorem Builds.length_serialize : ∀ {v : Value} {t : NymphType}, Builds v t →
    t.serialize.length + v.hasNullOrEmptyKey.toNat ≤ v.shortest
  | _, _, .null _ => le_rfl
  | _, _, .boolean _ b => by cases b <;> exact le_rfl
  | _, _, .scalar u k bits => by
    simp [ofScalar, NymphType.serialize, Value.hasNullOrEmptyKey, Value.shortest, Nat.add_comm]
  | _, _, .chars s own h => (Builds.chars s own h).length_string_le
  | _, _, .string s own => (Builds.string s own).length_string_le
  | _, _, .array u own h => by
    have hle := h.length_serialize
    simp only [ofVector, NymphType.serialize, Value.hasNullOrEmptyKey, Value.shortest,
      List.length_cons, List.length_append, toBytes_length, List.length_nil]
    omega
  | _, _, .struct u own h _ => by
    have hle := h.length_serialize
    simp only [ofMap, NymphType.serialize, Value.hasNullOrEmptyKey, Value.shortest,
      List.length_cons, List.length_append, List.length_nil]
    omega

/-- Consecutive values are written in at most their shortest encodings. -/
theorem BuildsAll.length_serialize : ∀ {vs : List Value} {ts : List NymphType}, BuildsAll vs ts →
    (serializeAll ts).length + (Value.hasNullOrEmptyKeyAll vs).toNat ≤ Value.shortestAll vs
  | _, _, .nil => le_rfl
  | _, _, @BuildsAll.cons v _ vs _ hv hvs => by
    have hle := hv.length_serialize
    have hles := hvs.length_serialize
    have hor := toNat_or_le v.hasNullOrEmptyKey (Value.hasNullOrEmptyKeyAll vs)
    simp only [serializeAll, Value.hasNullOrEmptyKeyAll, Value.shortestAll, List.length_append]
    omega

/-- The pairs of a struct are written in at most their shortest encodings. -/
theorem BuildsPairs.length_serialize : ∀ {fs : List (Bytes × Value)} {ps : List NymphPair},
    BuildsPairs fs ps →
      (serializePairs ps).length + (Value.hasNullOrEmptyKeyFields fs).toNat ≤
        Value.shortestFields fs
  | _, _, .nil => le_rfl
  | _, _, @BuildsPairs.cons k v _ _ fs _ hkey hv hps => by
    have hlek := hkey.length_key
    have hle := hv.length_serialize
    have hles := hps.length_serialize
    have hor := toNat_or_le (decide (k = [])) v.hasNullOrEmptyKey
    have hor' := toNat_or_le (decide (k = []) || v.hasNullOrEmptyKey)
      (Value.hasNullOrEmptyKeyFields fs)
    simp only [serializePairs, Value.hasNullOrEmptyKeyFields, Value.shortestFields,
      List.length_append]
    omega

end

/-! ### The encoding -/

/-- A string object whose length fits 32 bits is written as the encoding of its characters. -/
theorem Builds.serialize_string {s : Bytes} {t : NymphType} (h : Builds (.string s) t)
    (hs : s.length < 2 ^ 32) : t.serialize = Value.encodeString s := by
  cases h with
  | chars _ own _ =>
    exact serializeString_eq (uint32_ofNat_toNat hs) (decide_length_eq_zero hs)
  | string _ own =>
    exact serializeString_eq (uint32_ofNat_toNat hs) (decide_length_eq_zero hs)

mutual

/-- Without a null and an empty key the encoding of the value is written, which is one of its
byte strings. -/
theorem Builds.encode : ∀ {v : Value} {t : NymphType}, Builds v t →
    v.hasNullOrEmptyKey = false → v.encode.length < 2 ^ 32 →
      t.serialize = v.encode ∧ Denotes v.encode v
  | _, _, .null _, hplain, _ => by cases hplain
  | _, _, .boolean _ b, _, _ => by
    cases b
    · exact ⟨rfl, .booleanFalse⟩
    · exact ⟨rfl, .booleanTrue⟩
  | _, _, .scalar u k bits, _, _ => ⟨rfl, .scalar k bits⟩
  | _, _, .chars s own h, _, _ =>
    ⟨(Builds.chars s own h).serialize_string h, Value.denotes_encodeString (by omega)⟩
  | _, _, .string s own, _, hlen => by
    have hs : s.length < 2 ^ 32 := lt_trans (Value.length_lt_encodeString s) hlen
    exact ⟨(Builds.string s own).serialize_string hs, Value.denotes_encodeString (by omega)⟩
  | _, _, @Builds.array vs ts u own h, hplain, hlen => by
    simp only [Value.encode, List.length_cons, List.length_append, toBytes_length] at hlen
    obtain ⟨hser, hden⟩ := h.encode hplain (by omega)
    have hcount := hden.length_le
    refine ⟨?_, ?_⟩
    · simp only [ofVector, NymphType.serialize, Value.encode, hser, h.length_eq]
    · rw [Value.encode, List.append_assoc]
      exact .array hden (by omega)
  | _, _, @Builds.struct fs ps u own h hsorted, hplain, hlen => by
    simp only [Value.encode, List.length_cons, List.length_append] at hlen
    obtain ⟨hser, hden⟩ := h.encode hplain (by omega)
    have hstruct := Denotes.struct hden
    rw [collectPairs_of_sorted hsorted] at hstruct
    refine ⟨?_, hstruct⟩
    simp only [ofMap, NymphType.serialize, Value.encode, hser]

/-- The encodings of consecutive values without nulls and empty keys. -/
theorem BuildsAll.encode : ∀ {vs : List Value} {ts : List NymphType}, BuildsAll vs ts →
    Value.hasNullOrEmptyKeyAll vs = false → (Value.encodeAll vs).length < 2 ^ 32 →
      serializeAll ts = Value.encodeAll vs ∧ DenotesAll (Value.encodeAll vs) vs
  | _, _, .nil, _, _ => ⟨rfl, .nil⟩
  | _, _, .cons hv hvs, hplain, hlen => by
    obtain ⟨hplainv, hplains⟩ := (Bool.or_eq_false_iff).mp hplain
    simp only [Value.encodeAll, List.length_append] at hlen
    obtain ⟨hser, hden⟩ := hv.encode hplainv (by omega)
    obtain ⟨hsers, hdens⟩ := hvs.encode hplains (by omega)
    refine ⟨?_, .cons hden hdens⟩
    rw [serializeAll, Value.encodeAll, hser, hsers]

/-- The encodings of the pairs of a struct without nulls and empty keys. -/
theorem BuildsPairs.encode : ∀ {fs : List (Bytes × Value)} {ps : List NymphPair},
    BuildsPairs fs ps → Value.hasNullOrEmptyKeyFields fs = false →
      (Value.encodeFields fs).length < 2 ^ 32 →
        serializePairs ps = Value.encodeFields fs ∧ DenotesPairs (Value.encodeFields fs) fs
  | _, _, .nil, _, _ => ⟨rfl, .nil⟩
  | _, _, @BuildsPairs.cons k _ _ _ _ _ hkey hv hps, hplain, hlen => by
    obtain ⟨hplainkv, hplains⟩ := (Bool.or_eq_false_iff).mp hplain
    obtain ⟨hplaink, hplainv⟩ := (Bool.or_eq_false_iff).mp hplainkv
    have hne : k ≠ [] := of_decide_eq_false hplaink
    simp only [Value.encodeFields, List.length_append] at hlen
    have hk := Value.length_lt_encodeString k
    obtain ⟨hser, hden⟩ := hv.encode hplainv (by omega)
    obtain ⟨hsers, hdens⟩ := hps.encode hplains (by omega)
    refine ⟨?_, ?_⟩
    · rw [serializePairs, Value.encodeFields, hkey.serialize_string (by omega), hser, hsers]
    · rw [Value.encodeFields, Value.encodeString_of_ne_nil hne, List.append_assoc]
      exact .cons _ _ (LengthTag.lt_shortest (by omega)) hden hdens

end

namespace Value

/-- A string is encoded with its own typecode or with the shortest tag. -/
theorem length_encodeString_eq (s : Bytes) : (encodeString s).length = (string s).shortest := by
  by_cases hs : s = []
  · subst hs
    rfl
  · rw [encodeString_of_ne_nil hs, shortest, if_neg hs]
    simp only [taggedString, List.length_cons, List.length_append, toBytes_length]
    unfold LengthTag.shortest stringSize
    split_ifs <;> simp only [LengthTag.width, LengthTag.scalar, Scalar.width] <;> omega

mutual

/-- The encoding is no longer than the shortest one. -/
theorem length_encode_le : ∀ v : Value, v.encode.length ≤ v.shortest
  | null => le_rfl
  | boolean _ => le_rfl
  | scalar k bits => by simp [encode, shortest, Nat.add_comm]
  | string s => (length_encodeString_eq s).le
  | array vs => by
    have hle := length_encodeAll_le vs
    simp only [encode, shortest, List.length_cons, List.length_append, toBytes_length,
      List.length_nil]
    omega
  | struct fs => by
    have hle := length_encodeFields_le fs
    simp only [encode, shortest, List.length_cons, List.length_append, List.length_nil]
    omega

/-- The encodings of values are no longer than the shortest ones. -/
theorem length_encodeAll_le : ∀ vs : List Value, (encodeAll vs).length ≤ shortestAll vs
  | [] => le_rfl
  | v :: vs => by
    have hle := length_encode_le v
    have hles := length_encodeAll_le vs
    simp only [encodeAll, shortestAll, List.length_append]
    omega

/-- The encodings of pairs are no longer than the shortest ones. -/
theorem length_encodeFields_le :
    ∀ fs : List (Bytes × Value), (encodeFields fs).length ≤ shortestFields fs
  | [] => le_rfl
  | (k, v) :: fs => by
    have hlek := le_trans (length_encodeString_eq k).le (shortest_string_le k)
    have hle := length_encode_le v
    have hles := length_encodeFields_le fs
    simp only [encodeFields, shortestFields, List.length_append]
    omega

end

end Value

end NymphRpc
