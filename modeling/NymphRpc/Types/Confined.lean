import NymphRpc.Types.ParseAccepts

/-!
# What follows an encoding is not read

Bytes that come after a buffer do not change a parse that stayed inside it: the run over the
longer buffer logs the same events and returns the same, with every character pointer now
into the longer block. A read outside the buffer is a fault, so a parse that returns over the
bare encoding of a value has read nothing beyond it, and neither has the parse of that
encoding in front of any other bytes.
-/

namespace Buffer

/-- A byte inside the buffer stays where it is. -/
theorem get?_append {bs : List UInt8} {i : ℤ} {b : UInt8} (h : get? bs i = some b)
    (suffix : List UInt8) : get? (bs ++ suffix) i = some b := by
  have hin := bounds_of_get? h
  unfold get? at h ⊢
  rw [if_pos hin.1] at h ⊢
  rw [List.getElem?_append_left (by omega), h]

/-- A block inside the buffer stays where it is. -/
theorem slice?_append {bs seg : List UInt8} {i : ℤ} {n : ℕ} (h : slice? bs i n = some seg)
    (suffix : List UInt8) : slice? (bs ++ suffix) i n = some seg := by
  unfold slice? at h ⊢
  by_cases hn : n = 0
  · rwa [if_pos hn] at h ⊢
  · rw [if_neg hn] at h ⊢
    split_ifs at h with hin
    rw [if_pos ⟨hin.1, by rw [List.length_append]; omega⟩, List.drop_append_of_le_length (by omega),
      List.take_append_of_le_length (by rw [List.length_drop]; omega)]
    exact h

end Buffer

namespace NymphRpc

open LittleEndian Buffer NymphType Traced

/-- The same position once the block goes on with `suffix`. -/
def CharPtr.extend (suffix : Bytes) : CharPtr → CharPtr
  | .null => .null
  | .block bytes offset => .block (bytes ++ suffix) offset

namespace NymphType

mutual

/-- The same object over blocks that go on with `suffix`. -/
def extend (suffix : Bytes) : NymphType → NymphType
  | null m => null m
  | boolean m b => boolean m b
  | scalar m k bits => scalar m k bits
  | string m chars => string m (chars.extend suffix)
  | array m vector => array m (extendAll suffix vector)
  | struct m pairs => struct m (extendPairs suffix pairs)

/-- The same elements over longer blocks. -/
def extendAll (suffix : Bytes) : List NymphType → List NymphType
  | [] => []
  | v :: vs => v.extend suffix :: extendAll suffix vs

/-- The same entries over longer blocks. -/
def extendPairs (suffix : Bytes) : List NymphPair → List NymphPair
  | [] => []
  | .mk name key value :: ps =>
    .mk name (key.extend suffix) (value.extend suffix) :: extendPairs suffix ps

end

variable (suffix : Bytes)

@[simp] theorem members_extend (t : NymphType) : (t.extend suffix).members = t.members := by
  cases t <;> rfl

@[simp] theorem extend_fresh (u : Uninit) : (fresh u).extend suffix = fresh u := rfl

@[simp] theorem bytes_extend (t : NymphType) : (t.extend suffix).bytes = t.bytes := by
  rw [bytes, members_extend, bytes]

@[simp] theorem setMembers_extend (m : Members) (t : NymphType) :
    (t.setMembers m).extend suffix = (t.extend suffix).setMembers m := by
  cases t <;> rfl

@[simp] theorem sumBytes_extendAll (vs : List NymphType) :
    sumBytes (extendAll suffix vs) = sumBytes vs := by
  induction vs with
  | nil => rfl
  | cons v vs ih =>
    simp only [sumBytes, extendAll, List.map_cons, List.sum_cons, bytes_extend] at ih ⊢
    rw [ih]

/-- An entry is inserted at its place whatever its objects are. -/
theorem extendPairs_insertEntry (name : Bytes) (key value : NymphType) (ps : List NymphPair) :
    extendPairs suffix (OrderedMap.insertEntry NymphPair.name (.mk name key value) ps) =
      OrderedMap.insertEntry NymphPair.name (.mk name (key.extend suffix) (value.extend suffix))
        (extendPairs suffix ps) := by
  induction ps with
  | nil => rfl
  | cons p ps ih =>
    obtain ⟨name', key', value'⟩ := p
    simp only [OrderedMap.insertEntry, NymphPair.name, extendPairs] at ih ⊢
    cases compare name name' with
    | lt => rfl
    | eq => rfl
    | gt => simp only [extendPairs, ih]

end NymphType

/-- The same outcome over longer blocks. -/
def Parsed.extend (suffix : Bytes) (r : Parsed) : Parsed :=
  { r with value := r.value.extend suffix }

/-- The same outcome of the struct loop over longer blocks. -/
def ParsedPairs.extend (suffix : Bytes) (r : ParsedPairs) : ParsedPairs :=
  { r with pairs := extendPairs suffix r.pairs }

section

variable {binmsg : Bytes} (suffix : Bytes)

/-- A byte that is read is read in the longer buffer. -/
theorem transports_readByte (index : ℤ) :
    Transports id (readByte binmsg index) (readByte (binmsg ++ suffix) index) := by
  unfold readByte
  cases h : Buffer.get? binmsg index with
  | none => exact .fault
  | some b =>
    rw [get?_append h]
    exact .pure rfl

/-- A block that is copied is copied from the longer buffer. -/
theorem transports_memcpy (index : ℤ) (n : ℕ) :
    Transports id (memcpy binmsg index n) (memcpy (binmsg ++ suffix) index n) := by
  unfold memcpy
  cases h : Buffer.slice? binmsg index n with
  | none => exact .fault
  | some bs =>
    rw [slice?_append h]
    exact .pure rfl

/-- The characters of a key are read from the longer block. -/
theorem transports_readString (t : NymphType) :
    Transports id (readString t) (readString (t.extend suffix)) := by
  cases t with
  | string m chars =>
    cases chars with
    | null => exact fun _ h => ⟨h, rfl⟩
    | block bytes offset => exact transports_memcpy suffix offset m.strLength.toNat
  | _ => exact .pure rfl

/-- The string case over the longer buffer. -/
theorem transports_parseString (self : NymphType) (index : ℤ) :
    Transports (Parsed.extend suffix) (parseString self binmsg index)
      (parseString (self.extend suffix) (binmsg ++ suffix) index) := by
  unfold parseString
  apply (transports_readByte suffix index).bind
  intro tc
  simp only [id_eq]
  cases LengthTag.ofByte tc with
  | none => exact .pure rfl
  | some t =>
    apply (transports_memcpy suffix _ _).bind
    intro bs
    apply Transports.tell_bind
    apply Transports.pure
    simp only [id_eq, Parsed.extend, NymphType.extend, CharPtr.extend, members_extend]

end

section

variable {u : ℤ → Uninit} {binmsg suffix : Bytes}

/-- The three functions at some fuel do over the longer buffer what they do over the shorter. -/
structure ParseExtends (u : ℤ → Uninit) (binmsg suffix : Bytes) (fuel : ℕ) : Prop where
  value : ∀ self tc index, Transports (Parsed.extend suffix)
    (parseValue u fuel self tc binmsg index)
    (parseValue u fuel (self.extend suffix) tc (binmsg ++ suffix) index)
  elements : ∀ n index, Transports (Prod.map (extendAll suffix) id)
    (parseElements u fuel n binmsg index) (parseElements u fuel n (binmsg ++ suffix) index)
  pairs : ∀ index pairs length, Transports (ParsedPairs.extend suffix)
    (parsePairs u fuel binmsg index pairs length)
    (parsePairs u fuel (binmsg ++ suffix) index (extendPairs suffix pairs) length)

/-- A call of `parseValue` over the longer buffer, when the calls below it do the same. -/
theorem ParseExtends.value_succ {fuel : ℕ} (ih : ParseExtends u binmsg suffix fuel)
    (self : NymphType) (tc : UInt8) (index : ℤ) :
    Transports (Parsed.extend suffix) (parseValue u (fuel + 1) self tc binmsg index)
      (parseValue u (fuel + 1) (self.extend suffix) tc (binmsg ++ suffix) index) := by
  rw [parseValue, parseValue]
  cases NymphInternalTypes.ofByte tc with
  | none => exact .pure rfl
  | some c =>
    cases c with
    | string => exact transports_parseString suffix self index
    | scalar k =>
      apply (transports_memcpy suffix _ _).bind
      intro bs
      apply Transports.pure
      simp only [id_eq, Parsed.extend, NymphType.extend, members_extend]
    | array =>
      apply (transports_memcpy suffix _ _).bind
      intro count
      simp only [id_eq]
      split_ifs with hmax
      · exact .fault
      · apply (ih.elements _ _).bind
        rintro ⟨vec, stop⟩
        apply (transports_readByte suffix stop).bind
        intro _
        apply Transports.pure
        simp only [Prod.map, id_eq, Parsed.extend, NymphType.extend, members_extend,
          sumBytes_extendAll]
    | struct =>
      apply (ih.pairs index [] 0).bind
      intro r
      by_cases hok : r.ok = true
      · simp only [ParsedPairs.extend, hok, if_true]
        apply Transports.pure
        simp only [Parsed.extend, NymphType.extend, members_extend]
      · simp only [ParsedPairs.extend, hok]
        apply Transports.pure
        simp only [Parsed.extend, setMembers_extend, members_extend]
    | _ =>
      apply Transports.pure
      simp only [Parsed.extend, NymphType.extend, CharPtr.extend, members_extend]

/-- The array loop over the longer buffer. -/
theorem ParseExtends.elements_succ {fuel : ℕ} (ih : ParseExtends u binmsg suffix fuel) (n : ℕ)
    (index : ℤ) :
    Transports (Prod.map (extendAll suffix) id) (parseElements u (fuel + 1) n binmsg index)
      (parseElements u (fuel + 1) n (binmsg ++ suffix) index) := by
  cases n with
  | zero => exact .pure rfl
  | succ n =>
    rw [parseElements, parseElements]
    apply (transports_readByte suffix index).bind
    intro tc
    apply (ih.value (fresh (u index)) tc _).bind
    intro el
    apply Transports.tell_bind
    apply (ih.elements n el.index).bind
    rintro ⟨rest, stop⟩
    exact .pure rfl

/-- The struct loop over the longer buffer. -/
theorem ParseExtends.pairs_succ {fuel : ℕ} (ih : ParseExtends u binmsg suffix fuel) (index : ℤ)
    (pairs : List NymphPair) (length : UInt64) :
    Transports (ParsedPairs.extend suffix) (parsePairs u (fuel + 1) binmsg index pairs length)
      (parsePairs u (fuel + 1) (binmsg ++ suffix) index (extendPairs suffix pairs) length) := by
  rw [parsePairs, parsePairs]
  apply (transports_readByte suffix index).bind
  intro tc
  simp only [id_eq]
  split_ifs with hnone hstring
  · exact .pure rfl
  · exact .pure rfl
  · apply (ih.value (fresh (u index)) tc _).bind
    intro key
    apply Transports.tell_bind
    by_cases hok : key.ok = true
    · simp only [Parsed.extend, hok, if_true]
      apply (transports_readByte suffix key.index).bind
      intro tc'
      apply (ih.value (fresh (u key.index)) tc' _).bind
      intro val
      apply Transports.tell_bind
      by_cases hok' : val.ok = true
      · simp only [Parsed.extend, hok', if_true]
        apply (transports_readString suffix key.value).bind
        intro name
        have hnext := ih.pairs val.index
          (OrderedMap.insertEntry NymphPair.name (.mk name key.value val.value) pairs)
          (length + key.value.bytes + val.value.bytes)
        rw [extendPairs_insertEntry] at hnext
        simpa only [bytes_extend, id_eq] using hnext
      · simp only [Parsed.extend, hok']
        exact .pure rfl
    · simp only [Parsed.extend, hok]
      exact .pure rfl

/-- What follows the buffer changes nothing of a parse that stayed inside it. -/
theorem parse_extends (u : ℤ → Uninit) (binmsg suffix : Bytes) (fuel : ℕ) :
    ParseExtends u binmsg suffix fuel := by
  induction fuel with
  | zero =>
    constructor
    · intro self tc index
      exact .fault
    · intro n index
      exact .fault
    · intro index pairs length
      exact .fault
  | succ fuel ih => exact ⟨ih.value_succ, ih.elements_succ, ih.pairs_succ⟩

end

/-- The parser takes every encoding of the grammar for the value it denotes, whatever stands
before and behind it, and does there what it does over a buffer that ends with the encoding. -/
theorem parseValue_accepts {b : Bytes} {v : Value} (h : Denotes b v) (pre suffix : Bytes)
    (hlen : (pre ++ b ++ suffix).length < 2 ^ 31) (u : ℤ → Uninit) (u₀ : Uninit) (fuel : ℕ)
    (hfuel : b.length ≤ fuel) :
    ∃ tc rest t, b = tc :: rest ∧
      (parseValue u fuel (fresh u₀) tc (pre ++ b) (pre.length + 1 : ℕ)).result =
        .ok ⟨true, t, (pre.length + b.length : ℕ)⟩ ∧
      (parseValue u fuel (fresh u₀) tc (pre ++ b ++ suffix) (pre.length + 1 : ℕ)).result =
        .ok ⟨true, t.extend suffix, (pre.length + b.length : ℕ)⟩ ∧
      (parseValue u fuel (fresh u₀) tc (pre ++ b ++ suffix) (pre.length + 1 : ℕ)).log =
        (parseValue u fuel (fresh u₀) tc (pre ++ b) (pre.length + 1 : ℕ)).log ∧
      t.value = v ∧ (t.extend suffix).value = v := by
  simp only [List.length_append] at hlen
  have hpos := h.length_pos
  obtain ⟨tc, rest, rfl⟩ := List.exists_cons_of_length_pos hpos
  have hself : Holds (pre ++ (tc :: rest)) pre.length (tc :: rest) := by
    simpa using Holds.append pre (tc :: rest) []
  have hmore : Holds (pre ++ (tc :: rest) ++ suffix) pre.length (tc :: rest) := by
    simpa using Holds.append pre (tc :: rest) suffix
  obtain ⟨tc₁, htc₁, hparse⟩ := h.parsesAs (u := u) fuel hfuel hself (by omega)
  obtain rfl : tc = tc₁ := Option.some.inj (hself.get?.symm.trans htc₁)
  obtain ⟨t, ht, hvalue⟩ := hparse u₀
  obtain ⟨tc₂, htc₂, hparse'⟩ := h.parsesAs (u := u) fuel hfuel hmore (by omega)
  obtain rfl : tc = tc₂ := Option.some.inj (hmore.get?.symm.trans htc₂)
  obtain ⟨t', ht', hvalue'⟩ := hparse' u₀
  rw [int32_natCast_succ (by omega)] at ht ht'
  obtain ⟨hext, hlog⟩ := (parse_extends u _ suffix fuel).value _ _ _ _ ht
  rw [extend_fresh] at hext hlog
  obtain rfl : t' = t.extend suffix := by
    have heq := Except.ok.inj (ht'.symm.trans hext)
    exact congrArg Parsed.value heq
  exact ⟨tc, rest, t, rfl, ht, hext, hlog, hvalue, hvalue'⟩

/-- A struct whose keys come unsorted and one of them twice, with a longer tag than needed. -/
def repeatedKeys : Bytes :=
  NymphInternalTypes.struct.toByte ::
    ((taggedString .uint64 [0x62] ++ ([NymphInternalTypes.booleanTrue.toByte] ++
      (taggedString .uint8 [0x61] ++ ([NymphInternalTypes.null.toByte] ++
        (taggedString .uint8 [0x62] ++ ([NymphInternalTypes.booleanFalse.toByte] ++ [])))))) ++
      [NymphInternalTypes.none.toByte])

/-- The first pair of a repeated key counts. -/
theorem denotes_repeatedKeys :
    Denotes repeatedKeys (.struct [([0x61], .null), ([0x62], .boolean true)]) :=
  .struct (.cons .uint64 [0x62] (by decide) .booleanTrue
    (.cons .uint8 [0x61] (by decide) .null (.cons .uint8 [0x62] (by decide) .booleanFalse .nil)))

theorem parseValue_accepts_repeatedKeys :
    ∃ t, (parseValue (fun _ => ⟨7, 7⟩) 40 (fresh ⟨9, 9⟩) NymphInternalTypes.struct.toByte
        ([0xFF] ++ repeatedKeys ++ [0x10]) 2).result = .ok ⟨true, t, 25⟩ ∧
      t.value = .struct [([0x61], .null), ([0x62], .boolean true)] := by
  obtain ⟨tc, rest, t, hb, -, hparse, -, -, hvalue⟩ :=
    parseValue_accepts denotes_repeatedKeys [0xFF] [0x10] (by decide) (fun _ => ⟨7, 7⟩) ⟨9, 9⟩
      40 (by decide)
  obtain ⟨rfl, -⟩ := List.cons.inj hb
  exact ⟨_, hparse, hvalue⟩

end NymphRpc
