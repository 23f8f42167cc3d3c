import NymphRpc.Message.DecodeFuel
import NymphRpc.Types.ParseAdvances

/-!
# When a decode ends

The loops of the decoder rest on the cursor growing. Below 2^31 bytes it grows with every
call, and the decode ends, exactly if it grows with every string that a loop calls for. A
string whose length is large enough to wrap the 32-bit sum around moves it back instead.
-/

namespace NymphRpc

open LittleEndian Buffer NymphType Traced

namespace NymphMessage

section

variable {u : ℤ → Uninit} {um : MessageUninit} {binmsg : Bytes} {assume logs : Event → Prop}

/-- A position that is not past the end is inside the buffer. -/
theorem bounds_of_pastEnd {index : ℤ} (h : ¬pastEnd binmsg index = true) :
    0 ≤ index ∧ index < binmsg.length := by
  simp only [pastEnd, decide_eq_true_eq, not_or, not_lt, not_le] at h
  exact h

/-- The parameter loop does not run out of two units of fuel for each byte left. -/
theorem ensures_parseParameters (hlen : binmsg.length < 2 ^ 31)
    (rule : LoopRule binmsg assume logs) (fuel : ℕ) (index : ℤ) (m : NymphMessage) :
    Ensures assume (parseParameters u fuel binmsg index m) (fun _ => True)
      (FuelSuffices (2 * bytesLeft binmsg index + 1) fuel) logs := by
  induction fuel generalizing index m with
  | zero => exact .fault fun hfuel => by omega
  | succ fuel ih =>
    rw [parseParameters]
    split_ifs with hend
    · exact .pure trivial
    · have hin := bounds_of_pastEnd hend
      apply ensures_readByte_bind fuelSuffices_outOfBounds
      intro tc htc
      split_ifs
      · exact .pure trivial
      · refine (parse_advances hlen rule fuel).call hlen rule htc
          (FuelSuffices.weaken (by unfold bytesLeft; omega)) fun val hval => ?_
        split_ifs
        · exact .pure trivial
        · refine (ih val.index _).mono (fun _ _ => trivial)
            (FuelSuffices.weaken (by unfold bytesLeft; omega))

/-- A call outside the loops may leave the cursor anywhere. -/
theorem ensures_value_bind {β : Type} {f : Parsed → Decode β} {post : β → Prop} {fuel : ℕ}
    {p : ℤ} {tc : UInt8} {self : NymphType} (hlen : binmsg.length < 2 ^ 31)
    (rule : LoopRule binmsg assume logs) (htc : Buffer.get? binmsg p = some tc)
    (hf : ∀ r, Ensures assume (f r) post (FuelSuffices (2 * binmsg.length + 1) fuel) logs) :
    Ensures assume (parseValue u fuel self tc binmsg (int32 (p + 1)) >>= f) post
      (FuelSuffices (2 * binmsg.length + 1) fuel) logs := by
  have hin := bounds_of_get? htc
  have hcursor : int32 (p + 1) = p + 1 := by
    rw [int32_eq] <;> omega
  rw [hcursor]
  refine (((parse_advances hlen rule fuel).value self tc p hin.1 htc).mono (fun _ _ => trivial)
    (FuelSuffices.weaken (by unfold bytesLeft; omega))).bind fun r (_ : True) => hf r

/-- The parameter loop from any cursor, with fuel for the whole buffer. -/
theorem ensures_parameters (hlen : binmsg.length < 2 ^ 31) (rule : LoopRule binmsg assume logs)
    (fuel : ℕ) (index : ℤ) (m : NymphMessage) :
    Ensures assume (parseParameters u fuel binmsg index m) (fun _ => True)
      (FuelSuffices (2 * binmsg.length + 1) fuel) logs := by
  by_cases hindex : 0 ≤ index
  · exact (ensures_parseParameters hlen rule fuel index m).mono (fun _ h => h)
      (FuelSuffices.weaken (by unfold bytesLeft; omega))
  · cases fuel with
    | zero => exact .fault fun hfuel => by omega
    | succ fuel =>
      have hend : pastEnd binmsg index = true := by
        simp only [pastEnd, decide_eq_true_eq]
        omega
      rw [parseParameters, if_pos hend]
      exact .pure trivial

/-- Under a rule for the loops a decode ends with the fuel for its whole buffer. -/
theorem ensures_decode (hlen : binmsg.length < 2 ^ 31) (rule : LoopRule binmsg assume logs)
    (fuel : ℕ) :
    Ensures assume (decode u um fuel binmsg) (fun _ => True)
      (FuelSuffices (2 * binmsg.length + 1) fuel) logs := by
  refine ensures_readByte_bind fuelSuffices_outOfBounds fun version _ =>
    ensures_memcpy_bind fuelSuffices_outOfBounds fun methodId _ => ?_
  dsimp only
  split_ifs
  · exact .pure trivial
  · refine ensures_memcpy_bind fuelSuffices_outOfBounds fun flags _ =>
      ensures_memcpy_bind fuelSuffices_outOfBounds fun messageId _ => ?_
    split_ifs
    · refine ensures_memcpy_bind fuelSuffices_outOfBounds fun responseId _ =>
        ensures_readByte_bind fuelSuffices_outOfBounds fun tc htc =>
          ensures_value_bind (p := 25) hlen rule htc fun val => ?_
      dsimp only
      split_ifs
      · exact .pure trivial
      · apply ensures_readByte_bind fuelSuffices_outOfBounds
        intro terminator _
        split_ifs <;> exact .pure trivial
    · refine ensures_memcpy_bind fuelSuffices_outOfBounds fun responseId _ =>
        ensures_readByte_bind fuelSuffices_outOfBounds fun tc htc =>
          ensures_value_bind (p := 17) hlen rule htc fun val => ?_
      refine ensures_readByte_bind fuelSuffices_outOfBounds fun tc' htc' =>
        ensures_value_bind hlen rule htc' fun text => ?_
      unfold stringOr
      split_ifs
      · exact ensures_readString_bind fuelSuffices_outOfBounds fun _ => .pure trivial
      · exact .pure trivial
    · refine ensures_readByte_bind fuelSuffices_outOfBounds fun tc htc =>
        ensures_value_bind (p := 17) hlen rule htc fun val => ?_
      unfold stringOr
      split_ifs
      · exact ensures_readString_bind fuelSuffices_outOfBounds fun _ =>
          ensures_parameters hlen rule fuel _ _
      · exact ensures_parameters hlen rule fuel _ _
    · rw [decodeRegular]
      split_ifs
      · exact .pure trivial
      · exact ensures_parameters hlen rule fuel _ _

end

/-- A decode of the buffer ends, and every call of a loop leaves the cursor behind the
typecode it started from. -/
structure Terminates (u : ℤ → Uninit) (um : MessageUninit) (binmsg : Bytes) : Prop where
  advances : ∀ fuel, ∀ e ∈ (decode u um fuel binmsg).log, CallAdvances e
  ends : ∃ fuel, (decode u um fuel binmsg).result ≠ .error .outOfFuel

/-- A decode of fewer than 2^31 bytes terminates exactly if every string that a loop calls for
has a length that moves the 32-bit cursor forward. -/
theorem terminates_iff_stringAdvances (u : ℤ → Uninit) (um : MessageUninit) {binmsg : Bytes}
    (hlen : binmsg.length < 2 ^ 31) :
    Terminates u um binmsg ↔
      ∀ fuel, ∀ e ∈ (decode u um fuel binmsg).log, StringAdvances binmsg e := by
  constructor
  · intro h fuel
    exact (ensures_decode hlen (.strings binmsg) fuel (h.advances fuel)).2.2
  · intro h
    refine ⟨fun fuel => (ensures_decode hlen (.advances binmsg) fuel (h fuel)).2.2, ?_⟩
    refine ⟨2 * binmsg.length + 1, fun hstuck => ?_⟩
    exact (ensures_decode hlen (.advances binmsg) _ (h _)).2.1 _ hstuck le_rfl rfl

/-- A regular message with a string of one character decodes to the end. -/
theorem terminates_string :
    Terminates (fun _ => ⟨0, 0⟩) ⟨0, 0⟩
      (List.replicate 17 0x00 ++ [0x10, 0x04, 0x01, 0x61, 0x01]) := by
  apply (terminates_iff_stringAdvances _ _ (by decide)).mpr
  intro fuel e he
  have hends : (decode (fun _ => ⟨0, 0⟩) ⟨0, 0⟩ 3
      (List.replicate 17 0x00 ++ [0x10, 0x04, 0x01, 0x61, 0x01])).result ≠ .error .outOfFuel := by
    intro h
    cases h
  have hall : ∀ e ∈ (decode (fun _ => ⟨0, 0⟩) ⟨0, 0⟩ 3
      (List.replicate 17 0x00 ++ [0x10, 0x04, 0x01, 0x61, 0x01])).log,
      StringAdvances (List.replicate 17 0x00 ++ [0x10, 0x04, 0x01, 0x61, 0x01]) e := by
    decide +kernel
  exact hall e (mem_log_of_ends hends he)

/-- A regular message whose only parameter is a string of length 2^32 - 6, so that the cursor
goes back from its characters at 23 to its typecode at 17. -/
def wrappingString : Bytes :=
  List.replicate 17 0x00 ++ [0x10, 0x08, 0xfa, 0xff, 0xff, 0xff]

/-- The parameter loop calls for the same string again and again. -/
theorem wrappingString_not_terminates :
    wrappingString.length < 2 ^ 31 ∧
      ¬Terminates (fun _ => ⟨0, 0⟩) ⟨0, 0⟩ wrappingString := by
  refine ⟨by decide, fun h => ?_⟩
  have hcall : Event.call 17 17 ∈ (decode (fun _ => ⟨0, 0⟩) ⟨0, 0⟩ 3 wrappingString).log := by
    decide +kernel
  have hlt : (17 : ℤ) < 17 := h.advances 3 _ hcall
  omega

end NymphMessage

end NymphRpc
