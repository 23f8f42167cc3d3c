import Mathlib.Data.UInt
import NymphRpc.Base.Buffer
import NymphRpc.Types.Value

/-!
# The value objects

`NymphType` as the library lays it out: a type tag with the union member that goes with it,
and the bookkeeping members that the constructors, `bytes()` and `serialize()` share. The tag
and the member are always written together, so they are one constructor here. A fresh object
leaves `length` and `strLength` uninitialised; `Uninit` holds whatever they contain.

A character pointer is the block it points into and an offset, which covers both strings
owned by the application and strings a decoder leaves inside the message buffer.
-/

namespace NymphRpc

open LittleEndian NymphInternalTypes

/-- `data.chars`: null, or a position in an allocated block. -/
inductive CharPtr
  | null
  | block (bytes : Bytes) (offset : ℤ)

/-- The `n` characters from a pointer on, if they all lie inside its block. -/
def CharPtr.read (n : ℕ) : CharPtr → Option Bytes
  | .null => if n = 0 then some [] else none
  | .block bytes offset => Buffer.slice? bytes offset n

/-- What the uninitialised members of a new `NymphType` happen to hold. -/
structure Uninit where
  length : UInt64
  strLength : UInt32

/-- The members of `NymphType` beside its type and union. -/
structure Members where
  length : UInt64
  strLength : UInt32
  emptyString : Bool
  own : Bool
  linkedMsg : Bool

mutual

/-- A value object: its type with the matching union member, and the other members. -/
inductive NymphType
  | null (m : Members)
  | boolean (m : Members) (b : Bool)
  | scalar (m : Members) (k : Scalar) (bits : BitVec (8 * k.width))
  | string (m : Members) (chars : CharPtr)
  | array (m : Members) (vector : List NymphType)
  | struct (m : Members) (pairs : List NymphPair)

/-- An entry of a struct's map: its map key, and the key and value objects. -/
inductive NymphPair
  | mk (name : Bytes) (key value : NymphType)

end

/-- The map key of an entry. -/
def NymphPair.name : NymphPair → Bytes
  | .mk name _ _ => name

/-- The key object of an entry. -/
def NymphPair.key : NymphPair → NymphType
  | .mk _ key _ => key

/-- The value object of an entry. -/
def NymphPair.value : NymphPair → NymphType
  | .mk _ _ value => value

namespace NymphType

/-- The members beside the type and union. -/
def members : NymphType → Members
  | null m | boolean m _ | scalar m _ _ | string m _ | array m _ | struct m _ => m

/-- Replace the members beside the type and union. -/
def setMembers (m : Members) : NymphType → NymphType
  | null _ => null m
  | boolean _ b => boolean m b
  | scalar _ k bits => scalar m k bits
  | string _ chars => string m chars
  | array _ vector => array m vector
  | struct _ pairs => struct m pairs

@[simp] theorem members_setMembers (m : Members) (t : NymphType) :
    (t.setMembers m).members = m := by
  cases t <;> rfl

/-- `valuetype()`. -/
def valuetype : NymphType → NymphTypes
  | null _ => .null
  | boolean _ _ => .bool
  | scalar _ k _ => .scalar k
  | string _ _ => .string
  | array _ _ => .array
  | struct _ _ => .struct

@[simp] theorem valuetype_setMembers (m : Members) (t : NymphType) :
    (t.setMembers m).valuetype = t.valuetype := by
  cases t <;> rfl

/-- `bytes()`: the recorded size. -/
def bytes (t : NymphType) : UInt64 := t.members.length

/-- `string_length()`. -/
def stringLength (t : NymphType) : UInt32 := t.members.strLength

/-- `std::string(getChar(), string_length())`, when those characters exist. -/
def getString : NymphType → Option Bytes
  | string m chars => chars.read m.strLength.toNat
  | _ => none

/-- `binaryStringLength`. -/
def binaryStringLength (len : UInt64) : UInt64 :=
  if len ≤ 0xFF then 3 + len
  else if len ≤ 0xFFFF then 4 + len
  else if len ≤ 0xFFFFFFFF then 6 + len
  else 10 + len

/-! ### Constructors -/

/-- A default-constructed object. -/
def fresh (u : Uninit) : NymphType :=
  null ⟨u.length, u.strLength, false, false, false⟩

/-- `NymphType(bool)`. -/
def ofBool (u : Uninit) (b : Bool) : NymphType :=
  boolean ⟨1, u.strLength, false, false, false⟩ b

/-- The constructors from a fixed-width integer or float. -/
def ofScalar (u : Uninit) (k : Scalar) (bits : BitVec (8 * k.width)) : NymphType :=
  scalar ⟨.ofNat (1 + k.width), u.strLength, false, false, false⟩ k bits

/-- `NymphType(char*, uint32_t, bool)`. -/
def ofChars (v : Bytes) (length : UInt32) (own : Bool) : NymphType :=
  string ⟨binaryStringLength length.toUInt64, length, decide (length = 0), own, false⟩ (.block v 0)

/-- `NymphType(std::string*, bool)`; `strLength` keeps the low 32 bits of the length. -/
def ofString (v : Bytes) (own : Bool) : NymphType :=
  string ⟨binaryStringLength (.ofNat v.length), .ofNat v.length,
    decide (UInt32.ofNat v.length = 0), own, false⟩ (.block v 0)

/-- The sum of the recorded sizes of a vector of values. -/
def sumBytes (vs : List NymphType) : UInt64 := (vs.map bytes).sum

/-- The sum of the recorded sizes of the keys and values of a map. -/
def sumPairBytes (ps : List NymphPair) : UInt64 := (ps.map fun p => p.key.bytes + p.value.bytes).sum

/-- `NymphType(std::vector<NymphType*>*, bool)`. -/
def ofVector (u : Uninit) (vs : List NymphType) (own : Bool) : NymphType :=
  array ⟨sumBytes vs + 10, u.strLength, false, own, false⟩ vs

/-- `NymphType(std::map<std::string, NymphPair>*, bool)`. -/
def ofMap (u : Uninit) (ps : List NymphPair) (own : Bool) : NymphType :=
  struct ⟨sumPairBytes ps + 2, u.strLength, false, own, false⟩ ps

/-! ### Serialisation -/

/-- The bytes `serialize()` writes for a string object.

Characters outside the block of `data.chars` are undefined behaviour and contribute nothing
here; no constructor builds such a string. -/
def serializeString (m : Members) (chars : CharPtr) : Bytes :=
  (if m.emptyString then [emptyString.toByte]
    else NymphInternalTypes.string.toByte ::
      (LengthTag.shortest m.strLength.toNat).toByte ::
        toBytes (LengthTag.shortest m.strLength.toNat).width m.strLength.toNat) ++
    (chars.read m.strLength.toNat).getD []

mutual

/-- The bytes `serialize()` writes. -/
def serialize : NymphType → Bytes
  | null _ => []
  | boolean _ b => [if b then booleanTrue.toByte else booleanFalse.toByte]
  | scalar _ k bits => (NymphInternalTypes.scalar k).toByte :: toBytes k.width bits.toNat
  | string m chars => serializeString m chars
  | array _ vector =>
    NymphInternalTypes.array.toByte ::
      (toBytes 8 vector.length ++ serializeAll vector ++ [NymphInternalTypes.none.toByte])
  | struct _ pairs =>
    NymphInternalTypes.struct.toByte :: (serializePairs pairs ++ [NymphInternalTypes.none.toByte])

/-- The bytes written for consecutive values. -/
def serializeAll : List NymphType → Bytes
  | [] => []
  | v :: vs => v.serialize ++ serializeAll vs

/-- The bytes written for the entries of a map, in key order. -/
def serializePairs : List NymphPair → Bytes
  | [] => []
  | .mk _ key value :: ps => key.serialize ++ value.serialize ++ serializePairs ps

end

/-! ### Content -/

mutual

/-- The value an object stands for. -/
def value : NymphType → Value
  | null _ => .null
  | boolean _ b => .boolean b
  | scalar _ k bits => .scalar k bits
  | string m chars => .string ((chars.read m.strLength.toNat).getD [])
  | array _ vector => .array (valueAll vector)
  | struct _ pairs => .struct (valuePairs pairs)

/-- The values of consecutive objects. -/
def valueAll : List NymphType → List Value
  | [] => []
  | v :: vs => v.value :: valueAll vs

/-- The pairs a map stands for. -/
def valuePairs : List NymphPair → List (Bytes × Value)
  | [] => []
  | .mk name _ value :: ps => (name, value.value) :: valuePairs ps

end

/-- The values of consecutive objects are those of each. -/
theorem valueAll_eq_map (vs : List NymphType) : valueAll vs = vs.map value := by
  induction vs with
  | nil => rfl
  | cons v vs ih => rw [valueAll, ih, List.map_cons]

@[simp] theorem value_setMembers_linked (t : NymphType) (b : Bool) :
    (t.setMembers { t.members with linkedMsg := b }).value = t.value := by
  cases t <;> simp [setMembers, members, value]

end NymphType

end NymphRpc
