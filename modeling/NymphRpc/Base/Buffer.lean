import Mathlib.Data.List.Basic
import Mathlib.Data.List.Infix
import Mathlib.Algebra.Ring.Int.Defs
import Mathlib.Algebra.Ring.Nat

/-!
# Byte buffers read at signed positions

A cursor is a signed 32-bit integer that wraps around, and a read succeeds exactly when all
of its positions lie inside the buffer. `Holds bs p seg` locates a segment at a natural
position; it turns the layout of a message into the reads that walk over it.
-/

namespace Buffer

/-- The value a signed 32-bit variable keeps of an integer. -/
def int32 (x : ℤ) : ℤ := (x + 2 ^ 31) % 2 ^ 32 - 2 ^ 31

/-- Values in the signed range are kept. -/
theorem int32_eq {x : ℤ} (hlow : -2 ^ 31 ≤ x) (hhigh : x < 2 ^ 31) : int32 x = x := by
  unfold int32
  omega

/-- Advancing a natural position below the signed bound. -/
theorem int32_natCast_add {p n : ℕ} (h : p + n < 2 ^ 31) :
    int32 ((p : ℤ) + (n : ℤ)) = ((p + n : ℕ) : ℤ) := by
  rw [int32_eq] <;> omega

/-- The byte at a position, if the position is inside the buffer. -/
def get? (bs : List UInt8) (i : ℤ) : Option UInt8 :=
  if 0 ≤ i then bs[i.toNat]? else none

/-- The `n` bytes from a position on, if all of them are inside the buffer. -/
def slice? (bs : List UInt8) (i : ℤ) (n : ℕ) : Option (List UInt8) :=
  if n = 0 then some []
  else if 0 ≤ i ∧ i + n ≤ bs.length then some ((bs.drop i.toNat).take n)
  else none

/-- A byte is read exactly inside the buffer. -/
theorem get?_isSome_iff {bs : List UInt8} {i : ℤ} :
    (get? bs i).isSome ↔ 0 ≤ i ∧ i < bs.length := by
  unfold get?
  split_ifs with h
  · simp only [isSome_getElem?]
    omega
  · simp [h]

/-- A read byte lies inside the buffer. -/
theorem bounds_of_get? {bs : List UInt8} {i : ℤ} {b : UInt8} (h : get? bs i = some b) :
    0 ≤ i ∧ i < bs.length :=
  get?_isSome_iff.mp (Option.isSome_iff_exists.mpr ⟨b, h⟩)

/-- A block that was read lies inside the buffer. -/
theorem bounds_of_slice? {bs seg : List UInt8} {i : ℤ} {n : ℕ} (h : slice? bs i n = some seg)
    (hn : n ≠ 0) : 0 ≤ i ∧ i + n ≤ bs.length := by
  unfold slice? at h
  rw [if_neg hn] at h
  split_ifs at h with hin
  exact hin

/-- A block has the requested length. -/
theorem length_of_slice? {bs seg : List UInt8} {i : ℤ} {n : ℕ} (h : slice? bs i n = some seg) :
    seg.length = n := by
  unfold slice? at h
  split_ifs at h with h0 hin
  · simp [← Option.some.inj h, h0]
  · rw [← Option.some.inj h, List.length_take, List.length_drop]
    omega

/-- A segment stands in the buffer at a position. -/
def Holds (bs : List UInt8) (p : ℕ) (seg : List UInt8) : Prop := seg <+: bs.drop p

namespace Holds

variable {bs seg seg' : List UInt8} {p : ℕ} {b : UInt8}

/-- A segment stands where it was appended. -/
theorem append (pre seg post : List UInt8) : Holds (pre ++ (seg ++ post)) pre.length seg := by
  unfold Holds
  rw [List.drop_left]
  exact List.prefix_append seg post

/-- A buffer holds itself at its start. -/
theorem self (seg post : List UInt8) : Holds (seg ++ post) 0 seg := List.prefix_append seg post

/-- The parts of a segment stand one after the other. -/
theorem append_iff :
    Holds bs p (seg ++ seg') ↔ Holds bs p seg ∧ Holds bs (p + seg.length) seg' := by
  unfold Holds
  rw [← List.drop_drop]
  constructor
  · rintro ⟨t, ht⟩
    rw [List.append_assoc] at ht
    refine ⟨⟨seg' ++ t, ht⟩, ⟨t, ?_⟩⟩
    rw [← ht, List.drop_left]
  · rintro ⟨⟨t, ht⟩, ⟨t', ht'⟩⟩
    rw [← ht, List.drop_left] at ht'
    exact ⟨t', by rw [List.append_assoc, ht', ht]⟩

/-- The first byte of a segment stands at its position, the others after it. -/
theorem cons_iff : Holds bs p (b :: seg) ↔ bs[p]? = some b ∧ Holds bs (p + 1) seg := by
  rw [← List.singleton_append, append_iff]
  have hhead : Holds bs p [b] ↔ bs[p]? = some b := by
    have hdrop : bs[p]? = (bs.drop p)[0]? := by rw [List.getElem?_drop, Nat.add_zero]
    rw [hdrop, Holds]
    cases bs.drop p <;> simp [eq_comm]
  rw [hhead, List.length_singleton]

/-- The first byte of a segment is read at its position. -/
theorem get? (h : Holds bs p (b :: seg)) : Buffer.get? bs p = some b := by
  simpa [Buffer.get?] using (cons_iff.mp h).1

/-- A non-empty segment ends inside the buffer. -/
theorem add_length_le (h : Holds bs p seg) (hne : seg ≠ []) : p + seg.length ≤ bs.length := by
  have hle := h.length_le
  have hpos := List.length_pos_iff.mpr hne
  rw [List.length_drop] at hle
  omega

/-- A segment is read as one block. -/
theorem slice? (h : Holds bs p seg) : Buffer.slice? bs p seg.length = some seg := by
  unfold Buffer.slice?
  split_ifs with h0 hin
  · rw [List.length_eq_zero_iff.mp h0]
  · rw [Int.toNat_natCast, ← List.prefix_iff_eq_take.mp h]
  · have hle := h.add_length_le (by rintro rfl; exact h0 rfl)
    exact absurd ⟨by omega, by exact_mod_cast hle⟩ hin

end Holds

/-- A block that was read stands at its position. -/
theorem holds_of_slice? {bs seg : List UInt8} {p n : ℕ} (h : slice? bs p n = some seg) :
    Holds bs p seg := by
  unfold slice? at h
  split_ifs at h with h0 hin
  · rw [← Option.some.inj h]
    exact List.nil_prefix
  · rw [← Option.some.inj h, Int.toNat_natCast]
    exact List.take_prefix _ _

end Buffer
