import Mathlib.Data.Nat.Notation
import Mathlib.Tactic.Ring

/-!
# Little-endian byte strings

A number is laid out in a fixed count of bytes, least significant byte first, and read
back by Horner evaluation. The two directions are inverse once the count is fixed: a
number below `256 ^ n` survives `n` bytes, and every byte string is the layout of the
number it spells.
-/

namespace LittleEndian

/-- The `n` low-order bytes of `v`, least significant first. -/
def toBytes : ℕ → ℕ → List UInt8
  | 0, _ => []
  | n + 1, v => UInt8.ofNat v :: toBytes n (v / 256)

/-- The number spelled by a byte string, least significant byte first. -/
def ofBytes : List UInt8 → ℕ
  | [] => 0
  | b :: rest => b.toNat + 256 * ofBytes rest

/-- The layout has exactly the requested number of bytes. -/
@[simp] theorem toBytes_length (n v : ℕ) : (toBytes n v).length = n := by
  induction n generalizing v with
  | zero => rfl
  | succ n ih => simp [toBytes, ih]

/-- Reading the layout back keeps the value modulo the capacity of the bytes. -/
theorem ofBytes_toBytes_mod (n v : ℕ) : ofBytes (toBytes n v) = v % 256 ^ n := by
  induction n generalizing v with
  | zero => simp [toBytes, ofBytes, Nat.mod_one]
  | succ n ih =>
    have hbyte : (UInt8.ofNat v).toNat = v % 256 := by simp
    rw [toBytes, ofBytes, ih, hbyte, Nat.pow_succ', Nat.mod_mul]

/-- A value that fits its bytes survives the round trip. -/
theorem ofBytes_toBytes {n v : ℕ} (h : v < 256 ^ n) : ofBytes (toBytes n v) = v := by
  rw [ofBytes_toBytes_mod, Nat.mod_eq_of_lt h]

/-- A byte string spells a number below its capacity. -/
theorem ofBytes_lt (bs : List UInt8) : ofBytes bs < 256 ^ bs.length := by
  induction bs with
  | nil => simp [ofBytes]
  | cons b rest ih =>
    have hb := b.toNat_lt
    rw [ofBytes, List.length_cons, Nat.pow_succ']
    omega

/-- Every byte string is the layout of the number it spells. -/
theorem toBytes_ofBytes (bs : List UInt8) : toBytes bs.length (ofBytes bs) = bs := by
  induction bs with
  | nil => rfl
  | cons b rest ih =>
    have hb := b.toNat_lt
    have hlow : UInt8.ofNat (b.toNat + 256 * ofBytes rest) = b := by
      apply UInt8.toNat_inj.mp
      rw [UInt8.toNat_ofNat']
      omega
    have hhigh : (b.toNat + 256 * ofBytes rest) / 256 = ofBytes rest := by omega
    rw [List.length_cons, ofBytes, toBytes, hlow, hhigh, ih]

end LittleEndian
