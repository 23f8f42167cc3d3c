import NymphRpc.Base.LittleEndian
import NymphRpc.Base.OrderedMap
import NymphRpc.Types.Typecodes

/-!
# Values and their documented encoding

A value is what a `NymphType` stands for once its pointers are followed: a tree of
booleans, fixed-width payloads, strings, arrays and structs. `Denotes` is the value grammar
of the protocol specification, as a relation between a byte string and the value it
encodes; it leaves the encoder free to choose any length tag that fits and to list the
pairs of a struct in any order. `Value.encode` picks one encoding: shortest length tag, the
empty-string typecode, and the pairs in the order the value holds them.
-/

namespace NymphRpc

open LittleEndian

/-- The content of a `NymphType`. -/
inductive Value
  | null
  | boolean (b : Bool)
  | scalar (k : Scalar) (bits : BitVec (8 * k.width))
  | string (s : Bytes)
  | array (vs : List Value)
  | struct (fs : List (Bytes × Value))

/-- The four integer types a string length can be written in. -/
inductive LengthTag
  | uint8 | uint16 | uint32 | uint64
  deriving DecidableEq, Repr

namespace LengthTag

/-- The fixed-width type of a length tag. -/
def scalar : LengthTag → Scalar
  | uint8 => .uint8
  | uint16 => .uint16
  | uint32 => .uint32
  | uint64 => .uint64

/-- The number of bytes of a tagged length. -/
def width (t : LengthTag) : ℕ := t.scalar.width

/-- The byte of a length tag. -/
def toByte (t : LengthTag) : UInt8 := (NymphInternalTypes.scalar t.scalar).toByte

/-- The length tag of a byte, if it is one. -/
def ofByte (b : UInt8) : Option LengthTag :=
  match NymphInternalTypes.ofByte b with
  | some (.scalar .uint8) => some uint8
  | some (.scalar .uint16) => some uint16
  | some (.scalar .uint32) => some uint32
  | some (.scalar .uint64) => some uint64
  | _ => none

/-- The shortest tag that holds a length. -/
def shortest (n : ℕ) : LengthTag :=
  if n ≤ 0xFF then uint8
  else if n ≤ 0xFFFF then uint16
  else if n ≤ 0xFFFFFFFF then uint32
  else uint64

/-- Reading a length tag back from its byte. -/
@[simp] theorem ofByte_toByte (t : LengthTag) : ofByte t.toByte = some t := by
  cases t <;> rfl

/-- A byte that reads as a length tag is that tag's byte. -/
theorem toByte_of_ofByte {b : UInt8} {t : LengthTag} (h : ofByte b = some t) : b = t.toByte := by
  unfold ofByte at h
  split at h <;>
    first | (cases h; rename_i hb; exact NymphInternalTypes.toByte_of_ofByte hb) | cases h

/-- A tagged length takes one to eight bytes. -/
theorem width_bounds (t : LengthTag) : 1 ≤ t.width ∧ t.width ≤ 8 := t.scalar.width_bounds

/-- The shortest tag of a 64-bit length holds it. -/
theorem lt_shortest {n : ℕ} (h : n < 2 ^ 64) : n < 256 ^ (shortest n).width := by
  unfold shortest
  split_ifs <;> simp only [width, scalar, Scalar.width] <;> omega

end LengthTag

namespace Value

/-- The type of a value. -/
def valuetype : Value → NymphTypes
  | null => .null
  | boolean _ => .bool
  | scalar k _ => .scalar k
  | string _ => .string
  | array _ => .array
  | struct _ => .struct

/-- The encoding of a string: its own typecode when empty, otherwise a tagged length. -/
def encodeString (s : Bytes) : Bytes :=
  if s = [] then [NymphInternalTypes.emptyString.toByte]
  else NymphInternalTypes.string.toByte :: (LengthTag.shortest s.length).toByte ::
    (toBytes (LengthTag.shortest s.length).width s.length ++ s)

mutual

/-- The encoding of a value with shortest length tags. -/
def encode : Value → Bytes
  | null => [NymphInternalTypes.null.toByte]
  | boolean b =>
    [if b then NymphInternalTypes.booleanTrue.toByte else NymphInternalTypes.booleanFalse.toByte]
  | scalar k bits => (NymphInternalTypes.scalar k).toByte :: toBytes k.width bits.toNat
  | string s => encodeString s
  | array vs =>
    NymphInternalTypes.array.toByte ::
      (toBytes 8 vs.length ++ encodeAll vs ++ [NymphInternalTypes.none.toByte])
  | struct fs =>
    NymphInternalTypes.struct.toByte :: (encodeFields fs ++ [NymphInternalTypes.none.toByte])

/-- The encodings of a list of values, one after the other. -/
def encodeAll : List Value → Bytes
  | [] => []
  | v :: vs => v.encode ++ encodeAll vs

/-- The encodings of the pairs of a struct, each key before its value. -/
def encodeFields : List (Bytes × Value) → Bytes
  | [] => []
  | (k, v) :: fs => encodeString k ++ v.encode ++ encodeFields fs

end

/-- The size `binaryStringLength` gives a string: typecode, length tag, length and characters. -/
def stringSize (n : ℕ) : ℕ :=
  if n ≤ 0xFF then 3 + n
  else if n ≤ 0xFFFF then 4 + n
  else if n ≤ 0xFFFFFFFF then 6 + n
  else 10 + n

mutual

/-- The size the library reserves for a value; an empty string counts as three bytes. -/
def size : Value → ℕ
  | null => 0
  | boolean _ => 1
  | scalar k _ => 1 + k.width
  | string s => stringSize s.length
  | array vs => sizeAll vs + 10
  | struct fs => sizeFields fs + 2

/-- The size reserved for a list of values. -/
def sizeAll : List Value → ℕ
  | [] => 0
  | v :: vs => v.size + sizeAll vs

/-- The size reserved for the pairs of a struct. -/
def sizeFields : List (Bytes × Value) → ℕ
  | [] => 0
  | (k, v) :: fs => stringSize k.length + v.size + sizeFields fs

end

end Value

end NymphRpc
