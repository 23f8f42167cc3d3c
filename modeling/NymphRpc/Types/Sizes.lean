import NymphRpc.Types.Constructs

/-!
# Recorded sizes and written bytes

The constructors add up the recorded sizes bottom up in 64 bits, and `serialize()` walks the
finished tree. The two agree node by node, except that an empty string counts as three bytes
and takes one: the bytes written and twice the empty strings make up the size, as long as no
sum leaves its 64 bits.
-/

namespace NymphRpc

open LittleEndian

/-- Characters are read from the start of a block that holds as many. -/
theorem CharPtr.read_isSome {v : Bytes} {n : ℕ} (h : n ≤ v.length) :
    (CharPtr.read n (.block v 0)).isSome := by
  have hv : v = v.take n ++ v.drop n := (List.take_append_drop _ v).symm
  have hlen : (v.take n).length = n := List.length_take_of_le h
  have hself := (Buffer.Holds.self (v.take n) (v.drop n)).slice?
  rw [hlen, ← hv] at hself
  exact Option.isSome_iff_exists.mpr ⟨_, hself⟩

namespace NymphType

mutual

/-- The recorded size of a value, if the sums of the constructors were not cut to 64 bits. -/
def reserved : NymphType → ℕ
  | null m | boolean m _ | scalar m _ _ | string m _ => m.length.toNat
  | array _ vector => reservedAll vector + 10
  | struct _ pairs => reservedPairs pairs + 2

/-- The sizes of consecutive values. -/
def reservedAll : List NymphType → ℕ
  | [] => 0
  | v :: vs => v.reserved + reservedAll vs

/-- The sizes of the entries of a map. -/
def reservedPairs : List NymphPair → ℕ
  | [] => 0
  | .mk _ key value :: ps => key.reserved + value.reserved + reservedPairs ps

end

mutual

/-- The number of empty strings in a value. -/
def emptyStrings : NymphType → ℕ
  | null _ | boolean _ _ | scalar _ _ _ => 0
  | string m _ => if m.strLength = 0 then 1 else 0
  | array _ vector => emptyStringsAll vector
  | struct _ pairs => emptyStringsPairs pairs

/-- The number of empty strings in consecutive values. -/
def emptyStringsAll : List NymphType → ℕ
  | [] => 0
  | v :: vs => v.emptyStrings + emptyStringsAll vs

/-- The number of empty strings in the entries of a map. -/
def emptyStringsPairs : List NymphPair → ℕ
  | [] => 0
  | .mk _ key value :: ps => key.emptyStrings + value.emptyStrings + emptyStringsPairs ps

end

/-- What is written for a value falls short of its recorded size by two bytes for each of its
empty strings. -/
structure Measured (t : NymphType) : Prop where
  bytes : t.bytes.toNat = t.reserved
  length : t.serialize.length + 2 * t.emptyStrings = t.reserved

/-- A string that is recorded with the size of its characters is written in that size. -/
theorem Measured.string {m : Members} {chars : CharPtr}
    (hread : (chars.read m.strLength.toNat).isSome)
    (hempty : m.emptyString = decide (m.strLength = 0))
    (hlength : m.length.toNat = Value.stringSize m.strLength.toNat) :
    Measured (.string m chars) where
  bytes := rfl
  length := by
    obtain ⟨s, hs⟩ := Option.isSome_iff_exists.mp hread
    have hlen : s.length = m.strLength.toNat := by
      cases chars with
      | null =>
        simp only [CharPtr.read, Option.ite_none_right_eq_some, Option.some.injEq] at hs
        rw [← hs.2, List.length_nil, hs.1]
      | block bytes offset => exact Buffer.length_of_slice? hs
    simp only [serialize, serializeString, hs, hempty, emptyStrings, reserved, hlength,
      Option.getD_some, List.length_append, hlen]
    by_cases hzero : m.strLength = 0
    · simp [hzero, Value.stringSize]
    · simp only [hzero, decide_false, Bool.false_eq_true, if_false, List.length_cons,
        toBytes_length]
      unfold LengthTag.shortest Value.stringSize
      split_ifs <;> simp only [LengthTag.width, LengthTag.scalar, Scalar.width] <;> omega

/-- The recorded size of a string with a 32-bit length. -/
theorem binaryStringLength_toUInt64 (length : UInt32) :
    (binaryStringLength length.toUInt64).toNat = Value.stringSize length.toNat := by
  have hlt := length.toNat_lt
  have hconv : length.toUInt64 = .ofNat length.toNat := by
    apply UInt64.toNat_inj.mp
    rw [UInt32.toNat_toUInt64, UInt64.toNat_ofNat']
    omega
  rw [hconv, binaryStringLength_toNat hlt]

end NymphType

end NymphRpc
