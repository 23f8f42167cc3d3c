import NymphRpc.Base.Traced
import NymphRpc.Types.NymphType

/-!
# Parsing a value

`NymphType::parseValue` over a buffer that is read byte by byte. Nothing passes the buffer's
length to the parser, so a read outside the buffer is a fault here and undefined behaviour
there; everything up to the first such read is as the code does it. The cursor is the code's
signed 32-bit `index`, wrapping included. Recursion and loops consume fuel, because the code
bounds neither.

The log records each call that a loop makes, with the index of the value's typecode and the
index after it, and each string that was given characters inside the buffer. Running out of
memory is not modelled; reserving more elements than a vector can ever hold is.
-/

namespace NymphRpc

open LittleEndian Buffer NymphType

/-- What ends a decode other than by returning. -/
inductive Fault
  | outOfBounds (position : ℤ)
  | lengthError
  | outOfFuel
  deriving DecidableEq, Repr

/-- What a decode records on its way. -/
inductive Event
  | call (start stop : ℤ)
  | string (chars : ℤ) (length : ℕ)
  deriving DecidableEq, Repr

/-- A computation of the decoder. -/
abbrev Decode := Traced Fault Event

/-- `*(binmsg + index)`. -/
def readByte (binmsg : Bytes) (index : ℤ) : Decode UInt8 :=
  match Buffer.get? binmsg index with
  | some b => pure b
  | none => Traced.fault (.outOfBounds index)

/-- `memcpy` of `n` bytes from `binmsg + index`. -/
def memcpy (binmsg : Bytes) (index : ℤ) (n : ℕ) : Decode Bytes :=
  match Buffer.slice? binmsg index n with
  | some bs => pure bs
  | none => Traced.fault (.outOfBounds (if 0 ≤ index then max index binmsg.length else index))

/-- `std::string(value.getChar(), value.string_length())` for a string value. -/
def readString : NymphType → Decode Bytes
  | .string m (.block bytes offset) => memcpy bytes offset m.strLength.toNat
  | .string m .null => memcpy [] 0 m.strLength.toNat
  | _ => pure []

/-- A byte inside the buffer is returned. -/
theorem readByte_eq {binmsg : Bytes} {i : ℤ} {b : UInt8} (h : Buffer.get? binmsg i = some b) :
    readByte binmsg i = pure b := by
  rw [readByte, h]

/-- A block inside the buffer is returned. -/
theorem memcpy_eq {binmsg bs : Bytes} {i : ℤ} {n : ℕ} (h : Buffer.slice? binmsg i n = some bs) :
    memcpy binmsg i n = pure bs := by
  rw [memcpy, h]

section

variable {β : Type} {assume logs : Event → Prop} {post : β → Prop} {stop : Fault → Prop}
  {binmsg : Bytes} {index : ℤ}

/-- What follows a byte that is read may rely on the byte being inside the buffer. -/
theorem ensures_readByte_bind {f : UInt8 → Decode β} (hstop : ∀ i, stop (.outOfBounds i))
    (h : ∀ b, Buffer.get? binmsg index = some b → Traced.Ensures assume (f b) post stop logs) :
    Traced.Ensures assume (readByte binmsg index >>= f) post stop logs := by
  unfold readByte
  cases hb : Buffer.get? binmsg index with
  | none => exact .fault (hstop _)
  | some b => exact h b hb

/-- What follows a block that is copied may rely on the block being inside the buffer. -/
theorem ensures_memcpy_bind {f : Bytes → Decode β} {n : ℕ} (hstop : ∀ i, stop (.outOfBounds i))
    (h : ∀ bs, Buffer.slice? binmsg index n = some bs →
      Traced.Ensures assume (f bs) post stop logs) :
    Traced.Ensures assume (memcpy binmsg index n >>= f) post stop logs := by
  unfold memcpy
  cases hbs : Buffer.slice? binmsg index n with
  | none => exact .fault (hstop _)
  | some bs => exact h bs hbs

/-- What follows the characters of a string may rely on nothing, but no event is logged. -/
theorem ensures_readString_bind {t : NymphType} {f : Bytes → Decode β}
    (hstop : ∀ i, stop (.outOfBounds i)) (h : ∀ s, Traced.Ensures assume (f s) post stop logs) :
    Traced.Ensures assume (readString t >>= f) post stop logs := by
  cases t with
  | string m chars =>
    cases chars with
    | null => exact ensures_memcpy_bind hstop fun s _ => h s
    | block bytes offset => exact ensures_memcpy_bind hstop fun s _ => h s
  | _ => exact h []

/-- A byte inside the buffer is read. -/
theorem returns_readByte_bind {f : UInt8 → Decode β} {tc : UInt8}
    (h : Buffer.get? binmsg index = some tc) (hf : Traced.Returns logs (f tc) post) :
    Traced.Returns logs (readByte binmsg index >>= f) post := by
  rw [readByte_eq h]
  exact hf

/-- A block inside the buffer is copied. -/
theorem returns_memcpy_bind {f : Bytes → Decode β} {n : ℕ} {bs : Bytes}
    (h : Buffer.slice? binmsg index n = some bs) (hf : Traced.Returns logs (f bs) post) :
    Traced.Returns logs (memcpy binmsg index n >>= f) post := by
  rw [memcpy_eq h]
  exact hf

end

/-- The largest element count `std::vector<NymphType*>::reserve` accepts. -/
def vectorMaxSize : ℕ := 2 ^ 60 - 1

/-- The outcome of a call: its return value, the object it filled in, and the index after it. -/
structure Parsed where
  ok : Bool
  value : NymphType
  index : ℤ

/-- The outcome of the struct loop: whether it reached the terminator, the map it built, the
sizes it added up, and the index after it. -/
structure ParsedPairs where
  ok : Bool
  pairs : List NymphPair
  length : UInt64
  index : ℤ

/-- The members after a tagged string of length `l` was parsed; `emptyString` is never reset. -/
def Members.setString (m : Members) (l : ℕ) : Members :=
  { m with
    length := binaryStringLength (.ofNat l)
    strLength := .ofNat l
    own := false
    emptyString := m.emptyString || decide (l = 0) }

/-- The string case: a length tag, the length, and then the characters, which are not copied. -/
def parseString (self : NymphType) (binmsg : Bytes) (index : ℤ) : Decode Parsed := do
  let tc ← readByte binmsg index
  match LengthTag.ofByte tc with
  | none => pure ⟨false, self, int32 (index + 1)⟩
  | some t =>
    let bs ← memcpy binmsg (int32 (index + 1)) t.width
    let l := ofBytes bs
    let chars := int32 (int32 (index + 1) + t.width)
    Traced.tell (.string chars l)
    -- `index += l` adds a 64-bit length to the 32-bit index.
    pure ⟨true, .string (self.members.setString l) (.block binmsg chars), int32 (chars + l)⟩

section

variable (u : ℤ → Uninit)

mutual

/-- `parseValue`, called on `self` with the index just past the typecode. -/
def parseValue : ℕ → NymphType → UInt8 → Bytes → ℤ → Decode Parsed
  | 0, _, _, _, _ => Traced.fault .outOfFuel
  | fuel + 1, self, typecode, binmsg, index =>
    match NymphInternalTypes.ofByte typecode with
    | some .null => pure ⟨true, self, index⟩
    | some .booleanFalse => pure ⟨true, .boolean { self.members with length := 1 } false, index⟩
    | some .booleanTrue => pure ⟨true, .boolean { self.members with length := 1 } true, index⟩
    | some (.scalar k) => do
      let bs ← memcpy binmsg index k.width
      pure ⟨true, .scalar { self.members with length := .ofNat (1 + k.width) } k
        (.ofNat _ (ofBytes bs)), int32 (index + k.width)⟩
    | some .emptyString =>
      let m := { self.members with
        length := binaryStringLength 0, strLength := 0, own := false, emptyString := true }
      pure ⟨true, .string m .null, index⟩
    | some .string => parseString self binmsg index
    | some .array => do
      let count ← memcpy binmsg index 8
      if vectorMaxSize < ofBytes count then
        Traced.fault .lengthError
      else
        let (vec, index) ← parseElements fuel (ofBytes count) binmsg (int32 (index + 8))
        -- A byte other than the terminator is only reported to the log.
        let _ ← readByte binmsg index
        let m := { self.members with
          own := true, length := self.members.length + sumBytes vec + 10 }
        pure ⟨true, .array m vec, int32 (index + 1)⟩
    | some .struct => do
      let r ← parsePairs fuel binmsg index [] 0
      if r.ok then
        let m := { self.members with
          own := true, length := self.members.length + r.length + 2 }
        pure ⟨true, .struct m r.pairs, r.index⟩
      else
        pure ⟨false, self.setMembers { self.members with
          length := self.members.length + r.length }, r.index⟩
    | some .none | some .void | none => pure ⟨true, self, index⟩

/-- The array loop for the remaining element count; it ignores what each call returns. -/
def parseElements : ℕ → ℕ → Bytes → ℤ → Decode (List NymphType × ℤ)
  | 0, _, _, _ => Traced.fault .outOfFuel
  | _ + 1, 0, _, index => pure ([], index)
  | fuel + 1, n + 1, binmsg, index => do
    let tc ← readByte binmsg index
    let el ← parseValue fuel (fresh (u index)) tc binmsg (int32 (index + 1))
    Traced.tell (.call index el.index)
    let (rest, stop) ← parseElements fuel n binmsg el.index
    pure (el.value :: rest, stop)

/-- The struct loop, with the map and the sizes collected so far. -/
def parsePairs : ℕ → Bytes → ℤ → List NymphPair → UInt64 → Decode ParsedPairs
  | 0, _, _, _, _ => Traced.fault .outOfFuel
  | fuel + 1, binmsg, index, pairs, length => do
    let tc ← readByte binmsg index
    if tc = NymphInternalTypes.none.toByte then
      pure ⟨true, pairs, length, int32 (index + 1)⟩
    else if tc ≠ NymphInternalTypes.string.toByte then
      pure ⟨false, pairs, length, index⟩
    else
      let key ← parseValue fuel (fresh (u index)) tc binmsg (int32 (index + 1))
      Traced.tell (.call index key.index)
      if key.ok then
        let tc ← readByte binmsg key.index
        let val ← parseValue fuel (fresh (u key.index)) tc binmsg (int32 (key.index + 1))
        Traced.tell (.call key.index val.index)
        if val.ok then
          let name ← readString key.value
          parsePairs fuel binmsg val.index
            (OrderedMap.insertEntry NymphPair.name (.mk name key.value val.value) pairs)
            (length + key.value.bytes + val.value.bytes)
        else
          pure ⟨false, pairs, length, val.index⟩
      else
        pure ⟨false, pairs, length, key.index⟩

end

end

end NymphRpc
