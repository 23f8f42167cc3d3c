import Mathlib.Data.Nat.Notation

/-!
# Typecodes

The wire typecodes (`NymphInternalTypes`) and the types an application sees (`NymphTypes`).
The ten fixed-width types share one constructor of each enumeration, since the encoder and
the decoder treat them alike: a typecode and then as many bytes as the type is wide. Floats
are kept as bit patterns.
-/

namespace NymphRpc

/-- A byte buffer. -/
abbrev Bytes := List UInt8

/-- The fixed-width types. -/
inductive Scalar
  | uint8 | sint8 | uint16 | sint16 | uint32 | sint32 | uint64 | sint64 | float | double
  deriving DecidableEq, Repr

/-- The number of payload bytes of a fixed-width type. -/
def Scalar.width : Scalar → ℕ
  | .uint8 | .sint8 => 1
  | .uint16 | .sint16 => 2
  | .uint32 | .sint32 | .float => 4
  | .uint64 | .sint64 | .double => 8

/-- A fixed-width value has a payload of one to eight bytes. -/
theorem Scalar.width_bounds (k : Scalar) : 1 ≤ k.width ∧ k.width ≤ 8 := by
  cases k <;> decide

/-- The typecodes of the wire format. -/
inductive NymphInternalTypes
  | null | none | booleanFalse | booleanTrue
  | scalar (k : Scalar)
  | array | emptyString | string | struct | void
  deriving DecidableEq, Repr

namespace NymphInternalTypes

/-- The byte of a typecode. -/
def toByte : NymphInternalTypes → UInt8
  | null => 0x00
  | none => 0x01
  | booleanFalse => 0x02
  | booleanTrue => 0x03
  | scalar .uint8 => 0x04
  | scalar .sint8 => 0x05
  | scalar .uint16 => 0x06
  | scalar .sint16 => 0x07
  | scalar .uint32 => 0x08
  | scalar .sint32 => 0x09
  | scalar .uint64 => 0x0a
  | scalar .sint64 => 0x0b
  | scalar .float => 0x0c
  | scalar .double => 0x0d
  | array => 0x0e
  | emptyString => 0x0f
  | string => 0x10
  | struct => 0x11
  | void => 0x12

/-- The typecode of a byte, if it is one. -/
def ofByte : UInt8 → Option NymphInternalTypes
  | 0x00 => some null
  | 0x01 => some none
  | 0x02 => some booleanFalse
  | 0x03 => some booleanTrue
  | 0x04 => some (scalar .uint8)
  | 0x05 => some (scalar .sint8)
  | 0x06 => some (scalar .uint16)
  | 0x07 => some (scalar .sint16)
  | 0x08 => some (scalar .uint32)
  | 0x09 => some (scalar .sint32)
  | 0x0a => some (scalar .uint64)
  | 0x0b => some (scalar .sint64)
  | 0x0c => some (scalar .float)
  | 0x0d => some (scalar .double)
  | 0x0e => some array
  | 0x0f => some emptyString
  | 0x10 => some string
  | 0x11 => some struct
  | 0x12 => some void
  | _ => Option.none

/-- Reading a typecode back from its byte. -/
@[simp] theorem ofByte_toByte (c : NymphInternalTypes) : ofByte c.toByte = some c := by
  cases c with
  | scalar k => cases k <;> rfl
  | _ => rfl

/-- A byte that reads as a typecode is that typecode's byte. -/
theorem toByte_of_ofByte {b : UInt8} {c : NymphInternalTypes} (h : ofByte b = some c) :
    b = c.toByte := by
  unfold ofByte at h
  split at h <;> first | cases h; rfl | cases h

/-- Distinct typecodes have distinct bytes. -/
theorem toByte_injective {c d : NymphInternalTypes} (h : c.toByte = d.toByte) : c = d := by
  have hc := ofByte_toByte c
  rw [h, ofByte_toByte] at hc
  exact (Option.some.inj hc).symm

end NymphInternalTypes

/-- The types seen by an application.

A cast from a received byte can leave the declared enumerators; `other` keeps that byte. -/
inductive NymphTypes
  | null | array | bool
  | scalar (k : Scalar)
  | string | struct | any
  | other (code : UInt8)
  deriving DecidableEq, Repr

namespace NymphTypes

/-- The byte a type is cast to. -/
def toByte : NymphTypes → UInt8
  | null => 0
  | array => 1
  | bool => 2
  | scalar .uint8 => 3
  | scalar .sint8 => 4
  | scalar .uint16 => 5
  | scalar .sint16 => 6
  | scalar .uint32 => 7
  | scalar .sint32 => 8
  | scalar .uint64 => 9
  | scalar .sint64 => 10
  | scalar .float => 11
  | scalar .double => 12
  | string => 13
  | struct => 14
  | any => 15
  | other code => code

/-- The type a byte is cast to. -/
def ofByte : UInt8 → NymphTypes
  | 0 => null
  | 1 => array
  | 2 => bool
  | 3 => scalar .uint8
  | 4 => scalar .sint8
  | 5 => scalar .uint16
  | 6 => scalar .sint16
  | 7 => scalar .uint32
  | 8 => scalar .sint32
  | 9 => scalar .uint64
  | 10 => scalar .sint64
  | 11 => scalar .float
  | 12 => scalar .double
  | 13 => string
  | 14 => struct
  | 15 => any
  | code => other code

end NymphTypes

end NymphRpc
