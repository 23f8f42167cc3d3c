import NymphRpc.Message.Decode
import NymphRpc.Types.Unlinked

/-!
# What a decoded message holds

A decoded message owns linked parameters or a response, never both, and its reference count is
the number of linked strings, arrays and structs among them, modulo 2^32. The response of a
corrupt reply is the only object it may hold that is not linked.
-/

namespace NymphRpc

open NymphType Traced

namespace NymphMessage

/-- The message owns these parameters, all linked, and no response. -/
structure HoldsParameters (m : NymphMessage) (ts : List NymphType) : Prop where
  deleted : m.deleted = false
  owned : m.responseOwned = true
  unlinked : ∀ t ∈ ts, t.Unlinked
  values : m.values = ts.map linked
  response : m.response = none
  refCount : m.refCount = .ofNat (ts.countP counted)

/-- The message owns this response, linked unless the message is corrupt, and no parameters. -/
structure HoldsResponse (m : NymphMessage) (t : NymphType) : Prop where
  deleted : m.deleted = false
  owned : m.responseOwned = true
  unlinked : t.Unlinked
  values : m.values = []
  response : m.response = some (if m.corrupt then t else linked t)
  refCount : m.corrupt = false → m.refCount = if counted t then 1 else 0

/-- What a decoded message holds. -/
def Holding (m : NymphMessage) : Prop :=
  (∃ ts, HoldsParameters m ts) ∨ ∃ t, HoldsResponse m t

/-- Linking one more parameter counts it. -/
theorem HoldsParameters.pushLinked {m : NymphMessage} {ts : List NymphType}
    (h : HoldsParameters m ts) {t : NymphType} (ht : t.Unlinked) :
    HoldsParameters (m.pushLinked t) (ts ++ [t]) where
  deleted := h.deleted
  owned := h.owned
  unlinked := by
    intro t' ht'
    rcases List.mem_append.mp ht' with hmem | hmem
    · exact h.unlinked t' hmem
    · rw [List.mem_singleton.mp hmem]
      exact ht
  values := by simp [NymphMessage.pushLinked, h.values]
  response := h.response
  refCount := by
    change m.refCount + (if counted t then 1 else 0) = _
    rw [h.refCount, List.countP_append, List.countP_singleton, UInt32.ofNat_add]
    split_ifs <;> rfl

/-- Members that own nothing may change. -/
theorem HoldsParameters.setCorrupt {m : NymphMessage} {ts : List NymphType}
    (h : HoldsParameters m ts) : HoldsParameters m.setCorrupt ts :=
  ⟨h.deleted, h.owned, h.unlinked, h.values, h.response, h.refCount⟩

section

variable {u : ℤ → Uninit} {um : MessageUninit} {binmsg : Bytes}

/-- The parameter loop adds linked parameters. -/
theorem onReturn_parseParameters (fuel : ℕ) (index : ℤ) {m : NymphMessage} {ts : List NymphType}
    (h : HoldsParameters m ts) :
    OnReturn (parseParameters u fuel binmsg index m) Holding := by
  induction fuel generalizing index m ts with
  | zero => exact .fault trivial
  | succ fuel ih =>
    rw [parseParameters]
    split_ifs
    · exact .pure (.inl ⟨ts, h⟩)
    · apply ensures_readByte_bind (fun _ => trivial)
      intro tc _
      split_ifs
      · exact .pure (.inl ⟨ts, h⟩)
      · apply ((parse_unlinked u fuel).value (fresh (u index)) _ _ _ rfl).bind
        intro val hval
        refine .tell_bind fun _ => ⟨trivial, ?_⟩
        split_ifs
        · exact .pure (.inl ⟨_, (h.pushLinked hval).setCorrupt⟩)
        · exact ih _ (h.pushLinked hval)

/-- The reply branch leaves a response, linked unless the message is corrupt. -/
theorem onReturn_decodeReply (fuel : ℕ) {m : NymphMessage} (h : HoldsParameters m [])
    (hcorrupt : m.corrupt = false) : OnReturn (decodeReply u fuel binmsg m) Holding := by
  refine ensures_memcpy_bind (fun _ => trivial) fun responseId _ =>
    ensures_readByte_bind (fun _ => trivial) fun tc _ => ?_
  apply ((parse_unlinked u fuel).value (fresh (u 25)) _ _ _ rfl).bind
  intro val hval
  have hcor : Holding (setCorrupt { m with
      responseId := .ofNat (LittleEndian.ofBytes responseId), response := some val.value }) :=
    .inr ⟨val.value, h.deleted, h.owned, hval, h.values, rfl, fun hfalse => by cases hfalse⟩
  split_ifs
  · exact .pure hcor
  · apply ensures_readByte_bind (fun _ => trivial)
    intro terminator _
    split_ifs
    · exact .pure hcor
    · refine .pure (.inr ⟨val.value, h.deleted, h.owned, hval, h.values, ?_, fun _ => ?_⟩)
      · simp [addReference, hcorrupt]
      · change m.refCount + (if counted val.value then 1 else 0) = _
        rw [h.refCount]
        split_ifs <;> rfl

/-- A decoded message owns linked parameters or a response. -/
theorem onReturn_decode (fuel : ℕ) : OnReturn (decode u um fuel binmsg) Holding := by
  have hparams : ∀ {index : ℤ} {m : NymphMessage}, HoldsParameters m [] →
      OnReturn (parseParameters u fuel binmsg index m) Holding :=
    fun h => onReturn_parseParameters fuel _ h
  refine ensures_readByte_bind (fun _ => trivial) fun version _ =>
    ensures_memcpy_bind (fun _ => trivial) fun methodId _ => ?_
  dsimp only
  split_ifs
  · exact .pure (.inl ⟨[], rfl, rfl, by simp, rfl, rfl, rfl⟩)
  · refine ensures_memcpy_bind (fun _ => trivial) fun flags _ =>
      ensures_memcpy_bind (fun _ => trivial) fun messageId _ => ?_
    split_ifs
    · exact onReturn_decodeReply fuel ⟨rfl, rfl, by simp, rfl, rfl, rfl⟩ rfl
    · refine ensures_memcpy_bind (fun _ => trivial) fun responseId _ =>
        ensures_readByte_bind (fun _ => trivial) fun tc _ => ?_
      apply ((parse_unlinked u fuel).value (fresh (u 17)) _ _ _ rfl).bind
      intro val hval
      apply ensures_readByte_bind (fun _ => trivial)
      intro tc' _
      apply ((parse_unlinked u fuel).value _ _ _ _ hval).bind
      intro text _
      unfold stringOr
      split_ifs
      · exact ensures_readString_bind (fun _ => trivial) fun _ =>
          .pure (.inl ⟨[], rfl, rfl, by simp, rfl, rfl, rfl⟩)
      · exact .pure (.inl ⟨[], rfl, rfl, by simp, rfl, rfl, rfl⟩)
    · apply ensures_readByte_bind (fun _ => trivial)
      intro tc _
      apply ((parse_unlinked u fuel).value (fresh (u 17)) _ _ _ rfl).bind
      intro val _
      unfold stringOr
      split_ifs
      · exact ensures_readString_bind (fun _ => trivial) fun _ =>
          hparams ⟨rfl, rfl, by simp, rfl, rfl, rfl⟩
      · exact hparams ⟨rfl, rfl, by simp, rfl, rfl, rfl⟩
    · rw [decodeRegular]
      split_ifs
      · exact .pure (.inl ⟨[], rfl, rfl, by simp, rfl, rfl, rfl⟩)
      · exact hparams ⟨rfl, rfl, by simp, rfl, rfl, rfl⟩

/-- A message that a decode returned owns linked parameters or a response. -/
theorem holding_of_decode {fuel : ℕ} {m : NymphMessage}
    (h : (decode u um fuel binmsg).result = .ok m) : Holding m :=
  (onReturn_decode fuel (fun _ _ => trivial)).1 m h

/-- What is known of an uncorrupted message: its state is good, only a reply has a response, and
only replies and exceptions have a response ID. -/
structure Routed (m : NymphMessage) : Prop where
  state : m.corrupt = false → m.state = 0
  response : m.corrupt = false → (m.isReply = true ↔ m.response ≠ none)
  responseId : m.corrupt = false → m.isReply = false → m.isException = false → m.responseId = 0

/-- A corrupt message promises nothing. -/
theorem Routed.of_corrupt {m : NymphMessage} (h : m.corrupt = true) : Routed m :=
  have hany : ∀ {P : Prop}, m.corrupt = false → P := fun h' => Bool.noConfusion (h.symm.trans h')
  ⟨hany, hany, hany⟩

/-- The parameter loop leaves the members alone that tell where a message belongs. -/
theorem onReturn_parseParameters_routed (fuel : ℕ) (index : ℤ) {m : NymphMessage}
    (hstate : m.state = 0) (hreply : m.isReply = false) (hresponse : m.response = none)
    (hid : m.responseId = 0) : OnReturn (parseParameters u fuel binmsg index m) Routed := by
  have hrouted : ∀ {m : NymphMessage}, m.state = 0 → m.isReply = false → m.response = none →
      m.responseId = 0 → Routed m := by
    intro m hstate hreply hresponse hid
    exact ⟨fun _ => hstate, fun _ => by simp [hreply, hresponse], fun _ _ _ => hid⟩
  induction fuel generalizing index m with
  | zero => exact .fault trivial
  | succ fuel ih =>
    rw [parseParameters]
    split_ifs
    · exact .pure (hrouted hstate hreply hresponse hid)
    · apply ensures_readByte_bind (fun _ => trivial)
      intro tc _
      split_ifs
      · exact .pure (hrouted hstate hreply hresponse hid)
      · apply ((parse_unlinked u fuel).value (fresh (u index)) _ _ _ rfl).bind
        intro val _
        refine .tell_bind fun _ => ⟨trivial, ?_⟩
        split_ifs
        · exact .pure (hrouted hstate hreply hresponse hid)
        · exact ih _ hstate hreply hresponse hid

/-- The flags of a decoded message keep their promise. -/
theorem onReturn_decode_routed (fuel : ℕ) : OnReturn (decode u um fuel binmsg) Routed := by
  refine ensures_readByte_bind (fun _ => trivial) fun version _ =>
    ensures_memcpy_bind (fun _ => trivial) fun methodId _ => ?_
  dsimp only
  split_ifs
  · exact .pure (.of_corrupt rfl)
  · refine ensures_memcpy_bind (fun _ => trivial) fun flags _ =>
      ensures_memcpy_bind (fun _ => trivial) fun messageId _ => ?_
    split_ifs with hreply hexception
    · refine ensures_memcpy_bind (fun _ => trivial) fun responseId _ =>
        ensures_readByte_bind (fun _ => trivial) fun tc _ => ?_
      apply ((parse_unlinked u fuel).value (fresh (u 25)) _ _ _ rfl).bind
      intro val _
      split_ifs
      · exact .pure (.of_corrupt rfl)
      · apply ensures_readByte_bind (fun _ => trivial)
        intro terminator _
        split_ifs
        · exact .pure (.of_corrupt rfl)
        · exact .pure ⟨fun _ => rfl, fun _ => iff_of_true hreply (by simp),
            fun _ h => Bool.noConfusion (hreply.symm.trans h)⟩
    · refine ensures_memcpy_bind (fun _ => trivial) fun responseId _ =>
        ensures_readByte_bind (fun _ => trivial) fun tc _ => ?_
      apply ((parse_unlinked u fuel).value (fresh (u 17)) _ _ _ rfl).bind
      intro val hval
      apply ensures_readByte_bind (fun _ => trivial)
      intro tc' _
      apply ((parse_unlinked u fuel).value _ _ _ _ hval).bind
      intro text _
      unfold stringOr
      split_ifs
      · exact ensures_readString_bind (fun _ => trivial) fun _ => .pure ⟨fun _ => rfl,
          fun _ => iff_of_false hreply (not_not.mpr rfl),
          fun _ _ h => Bool.noConfusion (hexception.symm.trans h)⟩
      · exact .pure ⟨fun _ => rfl, fun _ => iff_of_false hreply (not_not.mpr rfl),
          fun _ _ h => Bool.noConfusion (hexception.symm.trans h)⟩
    · apply ensures_readByte_bind (fun _ => trivial)
      intro tc _
      apply ((parse_unlinked u fuel).value (fresh (u 17)) _ _ _ rfl).bind
      intro val _
      unfold stringOr
      split_ifs
      · exact ensures_readString_bind (fun _ => trivial) fun _ =>
          onReturn_parseParameters_routed fuel _ rfl (Bool.not_eq_true _ ▸ hreply) rfl rfl
      · exact onReturn_parseParameters_routed fuel _ rfl (Bool.not_eq_true _ ▸ hreply) rfl rfl
    · rw [decodeRegular]
      split_ifs
      · exact .pure (.of_corrupt rfl)
      · exact onReturn_parseParameters_routed fuel _ rfl (Bool.not_eq_true _ ▸ hreply) rfl rfl

/-- A message that a decode returned keeps the promise of its flags. -/
theorem routed_of_decode {fuel : ℕ} {m : NymphMessage}
    (h : (decode u um fuel binmsg).result = .ok m) : Routed m :=
  (onReturn_decode_routed fuel (fun _ _ => trivial)).1 m h

end

end NymphMessage

end NymphRpc
