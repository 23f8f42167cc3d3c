import NymphRpc.Message.Decode
import NymphRpc.Types.ParseFuel

/-!
# More fuel continues a decode

The constructor inherits from the parser that fuel only bounds how far it gets. A result it
reaches with some fuel is therefore the only result it reaches with any.
-/

namespace NymphRpc

namespace NymphMessage

open LittleEndian Buffer NymphType

variable {u : ℤ → Uninit} {um : MessageUninit} {binmsg : Bytes}

open Traced.Refines in
/-- One more unit of fuel continues the parameter loop. -/
theorem parseParameters_continues (fuel : ℕ) (index : ℤ) (m : NymphMessage) :
    Continues (parseParameters u fuel binmsg index m)
      (parseParameters u (fuel + 1) binmsg index m) := by
  induction fuel generalizing index m with
  | zero => exact of_fault _
  | succ fuel ih =>
    rw [parseParameters, parseParameters]
    split_ifs
    · exact refl _
    · apply bind (refl _)
      intro typecode
      split_ifs
      · exact refl _
      · refine bind ((parse_continues u fuel).value _ _ _ _) fun val => bind (refl _) fun _ => ?_
        split_ifs
        · exact refl _
        · exact ih _ _

open Traced.Refines in
/-- One more unit of fuel continues the reply branch. -/
theorem decodeReply_continues (fuel : ℕ) (m : NymphMessage) :
    Continues (decodeReply u fuel binmsg m) (decodeReply u (fuel + 1) binmsg m) :=
  bind (refl _) fun _ => bind (refl _) fun _ =>
    bind ((parse_continues u fuel).value _ _ _ _) fun _ => refl _

open Traced.Refines in
/-- One more unit of fuel continues the exception branch. -/
theorem decodeException_continues (fuel : ℕ) (m : NymphMessage) :
    Continues (decodeException u fuel binmsg m) (decodeException u (fuel + 1) binmsg m) :=
  bind (refl _) fun _ => bind (refl _) fun _ =>
    bind ((parse_continues u fuel).value _ _ _ _) fun _ => bind (refl _) fun _ =>
      bind ((parse_continues u fuel).value _ _ _ _) fun _ => refl _

open Traced.Refines in
/-- One more unit of fuel continues the callback branch. -/
theorem decodeCallback_continues (fuel : ℕ) (m : NymphMessage) :
    Continues (decodeCallback u fuel binmsg m) (decodeCallback u (fuel + 1) binmsg m) :=
  bind (refl _) fun _ => bind ((parse_continues u fuel).value _ _ _ _) fun _ =>
    bind (refl _) fun _ => parseParameters_continues fuel _ _

/-- One more unit of fuel continues the branch of a regular message. -/
theorem decodeRegular_continues (fuel : ℕ) (m : NymphMessage) :
    Continues (decodeRegular u fuel binmsg m) (decodeRegular u (fuel + 1) binmsg m) := by
  rw [decodeRegular, decodeRegular]
  split_ifs
  · exact .refl _
  · exact parseParameters_continues fuel _ _

open Traced.Refines in
/-- One more unit of fuel continues a decode. -/
theorem decode_continues_succ (fuel : ℕ) :
    Continues (decode u um fuel binmsg) (decode u um (fuel + 1) binmsg) := by
  refine bind (refl _) fun version => bind (refl _) fun methodId => ?_
  dsimp only
  split_ifs
  · exact refl _
  · refine bind (refl _) fun flags => bind (refl _) fun messageId => ?_
    split_ifs
    · exact decodeReply_continues fuel _
    · exact decodeException_continues fuel _
    · exact decodeCallback_continues fuel _
    · exact decodeRegular_continues fuel _

/-- More fuel continues a decode. -/
theorem decode_continues {fuel fuel' : ℕ} (h : fuel ≤ fuel') :
    Continues (decode u um fuel binmsg) (decode u um fuel' binmsg) := by
  induction fuel', h using Nat.le_induction with
  | base => exact .refl _
  | succ fuel' _ ih => exact ih.trans (decode_continues_succ fuel')

/-- Two decodes of one buffer that do not run out of fuel have the same result. -/
theorem decode_result_unique {fuel fuel' : ℕ}
    (h : (decode u um fuel binmsg).result ≠ .error .outOfFuel)
    (h' : (decode u um fuel' binmsg).result ≠ .error .outOfFuel) :
    (decode u um fuel binmsg).result = (decode u um fuel' binmsg).result := by
  rcases Nat.le_total fuel fuel' with hle | hle
  · exact ((decode_continues hle).result_eq h).symm
  · exact (decode_continues hle).result_eq h'

/-- A decode that ends has logged all events that a decode of its buffer ever logs. -/
theorem mem_log_of_ends {fuel fuel' : ℕ} {e : Event}
    (h : (decode u um fuel binmsg).result ≠ .error .outOfFuel)
    (he : e ∈ (decode u um fuel' binmsg).log) : e ∈ (decode u um fuel binmsg).log := by
  rcases decode_continues (Nat.le_max_left fuel fuel')
    with heq | ⟨hstuck, -⟩
  · rw [heq]
    exact (decode_continues (Nat.le_max_right fuel fuel')).mem_log he
  · exact absurd hstuck h

end NymphMessage

end NymphRpc
