import NymphRpc.Message.NymphMessage

/-!
# Serialising again

`buffer_length` is the size of the values before `serialize()` and the size of the buffer after
it, so every further call adds the header, the terminator and what else the flags ask for once
more. A call that writes more than its buffer has room for does not come back here. The buffer is
the same as that of a single call if every call has room, these sizes add up to 0 in 32 bits, and
nothing of it is uninitialised; in a regular message whose values are written in their recorded
sizes they never do, unless there was no call before.
-/

namespace NymphRpc

open LittleEndian

/-- A call on a message that is prepared. -/
inductive PreparingCall
  | addValue (v : NymphType)
  | serialize (freshId : UInt64) (heap : ℕ → UInt8)

/-- The values that calls add. -/
def addedValues : List PreparingCall → List NymphType
  | [] => []
  | .addValue v :: calls => v :: addedValues calls
  | .serialize _ _ :: calls => addedValues calls

/-- How often calls serialise. -/
def serializations : List PreparingCall → ℕ
  | [] => 0
  | .addValue _ :: calls => serializations calls
  | .serialize _ _ :: calls => serializations calls + 1

/-- Two buffers are equal, apart from the message ID at 17 to 24 unless they are those of a
reply. -/
def SameBuffer (reply : Bool) (a b : Bytes) : Prop :=
  a.length = b.length ∧ ∀ i : ℕ, reply = true ∨ i < 17 ∨ 25 ≤ i → a[i]? = b[i]?

namespace NymphMessage

/-- `serialize()`, which comes back if it writes no further than its buffer goes. -/
def serializeInside (m : NymphMessage) (freshId : UInt64) (heap : ℕ → UInt8) :
    Option NymphMessage :=
  m.payload.bind fun payload =>
    if (m.written payload).length ≤ (m.messageLength + 8).toNat then m.serialize freshId heap
    else none

/-- Make a call. -/
def apply (m : NymphMessage) : PreparingCall → Option NymphMessage
  | .addValue v => some (m.addValue v)
  | .serialize freshId heap => m.serializeInside freshId heap

/-- Make calls in order. -/
def applyAll (m : NymphMessage) (calls : List PreparingCall) : Option NymphMessage :=
  calls.foldlM apply m

/-- The values of some calls are added first. -/
def withValues (m : NymphMessage) (calls : List PreparingCall) : NymphMessage :=
  (addedValues calls).foldl addValue m

/-- Serialising after some calls comes back, and gives the buffer of adding the values first and
serialising once. -/
def SerializesAsOnce (m : NymphMessage) (calls : List PreparingCall) : Prop :=
  ∀ freshId heap freshId' heap', ∃ s s' t, m.applyAll calls = some s ∧
    s.serializeInside freshId heap = some s' ∧
    (m.withValues calls).serializeInside freshId' heap' = some t ∧
    SameBuffer m.isReply s'.frame t.frame

/-- What `serialize()` adds to `buffer_length`. -/
def growth (m : NymphMessage) : UInt32 :=
  26 + (if m.isReply then 8 else 0) +
    (if m.isException then 8
      else if m.isCallback then (NymphType.ofString m.callbackName false).bytes.toUInt32
      else 0)

/-- The buffer of a call of `serialize()` before which there were these calls: its size is that of
a first call and the growth for each call of `serialize()` among them. -/
def sizeAfter (m : NymphMessage) (calls : List PreparingCall) : UInt32 :=
  (m.withValues calls).messageLength + 8 + UInt32.ofNat (serializations calls) * m.growth

/-- A call of `serialize()` after these calls has something to write, and room for it. -/
def RoomAfter (m : NymphMessage) (calls : List PreparingCall) : Prop :=
  ∃ payload, (m.withValues calls).payload = some payload ∧
    payload.length + 26 ≤ (m.sizeAfter calls).toNat

/-- Each call of `serialize()` among the calls has room. -/
def RoomAlong (m : NymphMessage) (calls : List PreparingCall) : Prop :=
  ∀ before freshId heap after, calls = before ++ .serialize freshId heap :: after →
    m.RoomAfter before

/-- What `serialize()` writes first is the whole buffer. -/
def Fills (m : NymphMessage) : Prop :=
  ∃ payload, m.payload = some payload ∧ payload.length + 26 = (m.messageLength + 8).toNat

/-! ### What calls leave as it is -/

/-- Two messages that differ at most in their message IDs, their buffers and the sizes of these,
and have the same message ID if they are replies. -/
structure Alike (m m' : NymphMessage) : Prop where
  values : m'.values = m.values
  flags : m'.flags = m.flags
  methodId : m'.methodId = m.methodId
  responseId : m'.responseId = m.responseId
  exception : m'.exception = m.exception
  callbackName : m'.callbackName = m.callbackName
  response : m'.response = m.response
  messageId : m.isReply = true → m'.messageId = m.messageId

variable {m m' s t : NymphMessage} {calls : List PreparingCall}

/-- `serialize()` comes back if there is room for what it writes. -/
theorem serializeInside_eq_some {freshId : UInt64} {heap : ℕ → UInt8} :
    m.serializeInside freshId heap = some s ↔ (∃ payload, m.payload = some payload ∧
      payload.length + 26 ≤ (m.messageLength + 8).toNat) ∧ m.serialize freshId heap = some s := by
  rw [serializeInside]
  cases hpayload : m.payload with
  | none => simp
  | some payload => simp [written_length]

/-- A message is like itself. -/
theorem Alike.refl (m : NymphMessage) : Alike m m :=
  ⟨rfl, rfl, rfl, rfl, rfl, rfl, rfl, fun _ => rfl⟩

/-- Messages that are alike have the same kind. -/
theorem Alike.isReply (h : Alike m m') : m'.isReply = m.isReply := by
  rw [NymphMessage.isReply, h.flags]
  rfl

/-- A message is like another that is like a third. -/
theorem Alike.trans (h : Alike m m') (h' : Alike m' s) : Alike m s where
  values := h'.values.trans h.values
  flags := h'.flags.trans h.flags
  methodId := h'.methodId.trans h.methodId
  responseId := h'.responseId.trans h.responseId
  exception := h'.exception.trans h.exception
  callbackName := h'.callbackName.trans h.callbackName
  response := h'.response.trans h.response
  messageId := fun hreply =>
    (h'.messageId (h.isReply.trans hreply)).trans (h.messageId hreply)

/-- Messages that are alike have the same payload. -/
theorem Alike.payload (h : Alike m m') : m'.payload = m.payload := by
  rw [NymphMessage.payload, NymphMessage.payload, h.isReply, NymphMessage.isException,
    NymphMessage.isCallback, serializedValues, h.values, h.flags, h.responseId, h.exception,
    h.callbackName, h.response]
  rfl

/-- Messages that are alike grow by the same size. -/
theorem Alike.growth (h : Alike m m') : m'.growth = m.growth := by
  rw [NymphMessage.growth, NymphMessage.growth, h.isReply, NymphMessage.isException,
    NymphMessage.isCallback, h.flags, h.callbackName]
  rfl

/-- Adding a value to messages that are alike. -/
theorem Alike.addValue (h : Alike m m') (v : NymphType) : Alike (m.addValue v) (m'.addValue v) where
  values := congrArg (· ++ [v]) h.values
  flags := h.flags
  methodId := h.methodId
  responseId := h.responseId
  exception := h.exception
  callbackName := h.callbackName
  response := h.response
  messageId := h.messageId

/-- Serialising a message leaves one that is alike. -/
theorem Alike.serialize (h : Alike m m') {freshId : UInt64} {heap : ℕ → UInt8}
    (hs : m'.serialize freshId heap = some s) : Alike m s := by
  obtain ⟨payload, -, rfl⟩ := Option.map_eq_some_iff.mp hs
  refine ⟨h.values, h.flags, h.methodId, h.responseId, h.exception, h.callbackName, h.response, ?_⟩
  intro hreply
  change (if m'.isReply then m'.messageId else freshId) = _
  rw [h.isReply, if_pos hreply]
  exact h.messageId hreply

/-- The length field and the growth. -/
theorem messageLength_add (m : NymphMessage) : m.messageLength + 8 = m.bufferLength + m.growth := by
  rw [messageLength, growth]
  grind

/-- Serialising adds the growth to `buffer_length`. -/
theorem bufferLength_serialize {freshId : UInt64} {heap : ℕ → UInt8}
    (hs : m.serialize freshId heap = some s) : s.bufferLength = m.bufferLength + m.growth := by
  obtain ⟨payload, -, rfl⟩ := Option.map_eq_some_iff.mp hs
  exact m.messageLength_add

/-- Adding values to a message changes only the values and their size. -/
theorem Alike.foldl_addValue (h : Alike m m') (vs : List NymphType) :
    Alike (vs.foldl NymphMessage.addValue m) (vs.foldl NymphMessage.addValue m') := by
  induction vs generalizing m m' with
  | nil => exact h
  | cons v vs ih => exact ih (h.addValue v)

/-- The growth of a message does not depend on its values, nor does its being a reply. -/
theorem growth_foldl_addValue (m : NymphMessage) (vs : List NymphType) :
    (vs.foldl addValue m).growth = m.growth ∧ (vs.foldl addValue m).isReply = m.isReply := by
  induction vs generalizing m with
  | nil => exact ⟨rfl, rfl⟩
  | cons v vs ih => exact ih (m.addValue v)

/-- The sizes of messages that values are added to stay as far apart as they were. -/
theorem bufferLength_foldl_addValue (vs : List NymphType) (x : UInt32)
    (h : m'.bufferLength = m.bufferLength + x) :
    (vs.foldl addValue m').bufferLength = (vs.foldl addValue m).bufferLength + x := by
  induction vs generalizing m m' with
  | nil => exact h
  | cons v vs ih =>
    apply ih
    change m'.bufferLength + _ = m.bufferLength + _ + x
    rw [h]
    grind

/-- What some calls leave: the values are added, and the size grows with each call of
`serialize()`. -/
theorem applyAll_spec (h : m.applyAll calls = some s) :
    Alike (m.withValues calls) s ∧ s.messageLength + 8 = m.sizeAfter calls := by
  suffices hsize : Alike (m.withValues calls) s ∧ s.bufferLength =
      (m.withValues calls).bufferLength + UInt32.ofNat (serializations calls) * m.growth by
    obtain ⟨halike, hlength⟩ := hsize
    refine ⟨halike, ?_⟩
    rw [sizeAfter, messageLength_add, messageLength_add, hlength, halike.growth]
    grind
  induction calls generalizing m with
  | nil =>
    obtain rfl : m = s := Option.some.inj h
    refine ⟨.refl m, ?_⟩
    simp [withValues, addedValues, serializations]
  | cons call calls ih =>
    obtain ⟨m', hm', hs⟩ := Option.bind_eq_some_iff.mp h
    obtain ⟨halike, hlength⟩ := ih hs
    cases call with
    | addValue v =>
      cases hm'
      exact ⟨halike, hlength⟩
    | serialize freshId heap =>
      obtain ⟨-, hserialize⟩ := serializeInside_eq_some.mp hm'
      have hfirst : Alike m m' := (Alike.refl m).serialize hserialize
      refine ⟨(hfirst.foldl_addValue _).trans halike, ?_⟩
      rw [hlength, withValues, withValues, bufferLength_foldl_addValue (addedValues calls) m.growth
        (bufferLength_serialize hserialize), hfirst.growth, addedValues, serializations,
        UInt32.ofNat_add]
      have hone : UInt32.ofNat 1 = 1 := rfl
      rw [hone]
      grind

/-! ### Calls that come back -/

/-- After calls that came back, `serialize()` has room if it has room after these calls. -/
theorem roomAfter_iff (h : m.applyAll calls = some s) : m.RoomAfter calls ↔
    ∃ payload, s.payload = some payload ∧ payload.length + 26 ≤ (s.messageLength + 8).toNat := by
  obtain ⟨halike, hsize⟩ := applyAll_spec h
  rw [RoomAfter, halike.payload, hsize]

/-- With one more call at the end, that call has room too. -/
theorem roomAlong_concat (m : NymphMessage) (calls : List PreparingCall) (call : PreparingCall) :
    m.RoomAlong (calls ++ [call]) ↔ m.RoomAlong calls ∧
      ∀ freshId heap, call = .serialize freshId heap → m.RoomAfter calls := by
  constructor
  · intro h
    refine ⟨fun before freshId heap after heq => ?_, fun freshId heap heq => ?_⟩
    · exact h before freshId heap (after ++ [call]) (by rw [heq, List.append_assoc]; rfl)
    · exact h calls freshId heap [] (by rw [heq])
  · rintro ⟨hbefore, hlast⟩ before freshId heap after heq
    rcases List.eq_nil_or_concat after with rfl | ⟨after, last, rfl⟩
    · obtain ⟨rfl, hcall⟩ := List.append_inj' heq rfl
      exact hlast freshId heap (List.singleton_inj.mp hcall)
    · have hsplit : calls ++ [call] = (before ++ .serialize freshId heap :: after) ++ [last] := by
        rw [heq, List.concat_eq_append, List.append_assoc]
        rfl
      exact hbefore before freshId heap after (List.append_inj' hsplit rfl).1

/-- Calls come back exactly if each call of `serialize()` among them has room. -/
theorem exists_applyAll_iff (m : NymphMessage) (calls : List PreparingCall) :
    (∃ s, m.applyAll calls = some s) ↔ m.RoomAlong calls := by
  induction calls using List.reverseRecOn with
  | nil => exact iff_of_true ⟨m, rfl⟩ fun before freshId heap after heq => by simp at heq
  | append_singleton calls call ih =>
    have hconcat : m.applyAll (calls ++ [call]) =
        (m.applyAll calls).bind fun s => s.apply call := by
      rw [applyAll, List.foldlM_append]
      simp only [List.foldlM_cons, List.foldlM_nil, bind_pure]
      rfl
    rw [roomAlong_concat, ← ih, hconcat]
    constructor
    · rintro ⟨s', hs'⟩
      obtain ⟨s, hs, hcall⟩ := Option.bind_eq_some_iff.mp hs'
      refine ⟨⟨s, hs⟩, ?_⟩
      rintro freshId heap rfl
      exact (roomAfter_iff hs).mpr (serializeInside_eq_some.mp hcall).1
    · rintro ⟨⟨s, hs⟩, hroom⟩
      rw [hs]
      cases call with
      | addValue v => exact ⟨_, rfl⟩
      | serialize freshId heap =>
        obtain ⟨payload, hpayload, hfits⟩ := (roomAfter_iff hs).mp (hroom freshId heap rfl)
        exact ⟨_, serializeInside_eq_some.mpr
          ⟨⟨payload, hpayload, hfits⟩, congrArg (Option.map _) hpayload⟩⟩

/-! ### Buffers -/

/-- The bytes written for messages that are alike differ in their message IDs. -/
theorem Alike.written (h : Alike m m') (hlength : m'.messageLength = m.messageLength)
    (freshId freshId' : UInt64) (payload : Bytes) :
    ∃ front back id id', front.length = 17 ∧ (m.isReply = true → id = id') ∧
      (m.assignId freshId).written payload = front ++ (toBytes 8 id ++ back) ∧
      (m'.assignId freshId').written payload = front ++ (toBytes 8 id' ++ back) := by
  refine ⟨toBytes 4 signature ++ (toBytes 4 m.messageLength.toNat ++
    (0x00 :: (toBytes 4 m.methodId.toNat ++ toBytes 4 m.flags.toNat))),
    payload ++ [NymphInternalTypes.none.toByte], (m.assignId freshId).messageId.toNat,
    (m'.assignId freshId').messageId.toNat, ?_, ?_, ?_, ?_⟩
  · simp only [List.length_append, List.length_cons, toBytes_length]
  · intro hreply
    change (if m.isReply then m.messageId else freshId).toNat =
      (if m'.isReply then m'.messageId else freshId').toNat
    rw [h.isReply, if_pos hreply, if_pos hreply, h.messageId hreply]
  · have hsame : (m.assignId freshId).messageLength = m.messageLength := rfl
    rw [NymphMessage.written, header, hsame]
    simp only [List.append_assoc, List.cons_append]
    rfl
  · have hsame : (m'.assignId freshId').messageLength = m.messageLength := hlength
    have hid : (m'.assignId freshId').methodId = m.methodId := h.methodId
    have hflags : (m'.assignId freshId').flags = m.flags := h.flags
    rw [NymphMessage.written, header, hsame, hid, hflags]
    simp only [List.append_assoc, List.cons_append]

/-- Buffers that are written whole, with bytes that differ in a message ID at most. -/
theorem sameBuffer_take {reply : Bool} {front back : Bytes} {id id' : ℕ} (n : ℕ)
    (hfront : front.length = 17) (hid : reply = true → id = id') :
    SameBuffer reply ((front ++ (toBytes 8 id ++ back)).take n)
      ((front ++ (toBytes 8 id' ++ back)).take n) := by
  constructor
  · simp only [List.length_take, List.length_append, toBytes_length]
  · intro i hi
    rw [List.getElem?_take, List.getElem?_take]
    split_ifs
    · rcases hi with hreply | hlow | hhigh
      · rw [hid hreply]
      · rw [List.getElem?_append_left (by omega), List.getElem?_append_left (by omega)]
      · have hback : ∀ x, (toBytes 8 x).length ≤ i - front.length := by
          intro x
          rw [toBytes_length]
          omega
        have hbehind : front.length ≤ i := by omega
        rw [List.getElem?_append_right hbehind, List.getElem?_append_right hbehind,
          List.getElem?_append_right (hback id), List.getElem?_append_right (hback id'),
          toBytes_length, toBytes_length]
    · rfl

/-- The buffer of a message that is serialised. -/
theorem frame_serialize {payload : Bytes} (hpayload : m.payload = some payload)
    (freshId : UInt64) (heap : ℕ → UInt8) :
    ∃ s, m.serialize freshId heap = some s ∧ s.frame =
      allocated heap (m.messageLength + 8).toNat ((m.assignId freshId).written payload) := by
  rw [serialize, hpayload]
  exact ⟨_, rfl, rfl⟩

/-- Messages that are alike, of the same size and written whole, have the same buffer. -/
theorem Alike.sameBuffer (h : Alike m m') (hlength : m'.messageLength = m.messageLength)
    {payload : Bytes} (hfills : (m.messageLength + 8).toNat ≤ (m.written payload).length)
    (freshId freshId' : UInt64) (heap heap' : ℕ → UInt8) :
    SameBuffer m.isReply
      (allocated heap (m'.messageLength + 8).toNat ((m'.assignId freshId).written payload))
      (allocated heap' (m.messageLength + 8).toNat ((m.assignId freshId').written payload)) := by
  obtain ⟨front, back, id, id', hfront, hid, hwritten, hwritten'⟩ :=
    h.written hlength freshId' freshId payload
  have hwhole : ∀ heap (w : Bytes), w.length = (m.written payload).length →
      allocated heap (m.messageLength + 8).toNat w = w.take (m.messageLength + 8).toNat := by
    intro heap w hw
    have hrest : (List.range (m.messageLength + 8).toNat).drop w.length = [] := by
      apply List.drop_of_length_le
      rw [List.length_range, hw]
      exact hfills
    rw [allocated, hrest, List.map_nil, List.append_nil]
  rw [hlength, hwhole heap _ (by rw [written_length, written_length]),
    hwhole heap' _ (by rw [written_length, written_length]), hwritten, hwritten']
  exact sameBuffer_take _ hfront fun hreply => (hid hreply).symm

/-- Behind what was written stands what was in memory. -/
theorem allocated_getElem?_end {heap : ℕ → UInt8} {n : ℕ} {w : Bytes} (h : w.length < n) :
    (allocated heap n w)[w.length]? = some (heap w.length) := by
  rw [allocated_eq_append h.le, List.getElem?_append_right le_rfl, Nat.sub_self,
    List.getElem?_map, List.getElem?_drop, Nat.add_zero, List.getElem?_range h]
  rfl

/-- If serialising after some calls gives the buffer of serialising once, then every call has room,
the buffers have the same size, and the one of serialising once is written whole. -/
theorem SerializesAsOnce.fills (h : m.SerializesAsOnce calls) : m.RoomAlong calls ∧
    UInt32.ofNat (serializations calls) * m.growth = 0 ∧ (m.withValues calls).Fills := by
  obtain ⟨s, s', t, hs, hs', ht, hsame, hbytes⟩ := h 0 (fun _ => 0) 0 fun _ => 1
  obtain ⟨halike, hsize⟩ := applyAll_spec hs
  obtain ⟨-, hserialize⟩ := serializeInside_eq_some.mp hs'
  obtain ⟨⟨payload, hpayload, hroom⟩, hserialize'⟩ := serializeInside_eq_some.mp ht
  obtain ⟨_, hagain, hframe⟩ := frame_serialize (halike.payload.trans hpayload) 0 fun _ => 0
  obtain ⟨_, hagain', htframe⟩ := frame_serialize hpayload 0 fun _ => 1
  cases hserialize.symm.trans hagain
  cases hserialize'.symm.trans hagain'
  rw [hframe, htframe] at hsame hbytes
  rw [allocated_length, allocated_length, UInt32.toNat_inj, hsize, sizeAfter] at hsame
  refine ⟨(m.exists_applyAll_iff calls).mp ⟨s, hs⟩, by grind, payload, hpayload, ?_⟩
  refine Nat.le_antisymm hroom ?_
  by_contra hshort
  have hlength : s.messageLength + 8 = (m.withValues calls).messageLength + 8 := by
    rw [hsize, sizeAfter, hsame]
  -- what is behind the bytes that are written is not the same memory
  have hend := hbytes (payload.length + 26) (.inr (.inr (by omega)))
  rw [hlength, ← written_length (s.assignId 0) payload, allocated_getElem?_end
    (by rw [written_length]; omega), written_length,
    ← written_length ((m.withValues calls).assignId 0) payload,
    allocated_getElem?_end (by rw [written_length]; omega)] at hend
  cases hend

/-- Serialising after calls that all have room gives the buffer of serialising once, if that has the
same size and is written whole. -/
theorem RoomAlong.serializesAsOnce (halong : m.RoomAlong calls)
    (hzero : UInt32.ofNat (serializations calls) * m.growth = 0)
    (hfills : (m.withValues calls).Fills) : m.SerializesAsOnce calls := by
  intro freshId heap freshId' heap'
  have hreply : (m.withValues calls).isReply = m.isReply := (m.growth_foldl_addValue _).2
  obtain ⟨payload, hpayload, hfills⟩ := hfills
  obtain ⟨s, hs⟩ := (m.exists_applyAll_iff calls).mpr halong
  obtain ⟨halike, hsize⟩ := applyAll_spec hs
  have hlength : s.messageLength + 8 = (m.withValues calls).messageLength + 8 := by
    rw [hsize, sizeAfter, hzero]
    grind
  have hsame : s.messageLength = (m.withValues calls).messageLength := by
    grind
  have hspayload : s.payload = some payload := halike.payload.trans hpayload
  obtain ⟨s', hs', hframe⟩ := frame_serialize hspayload freshId heap
  obtain ⟨t, ht, htframe⟩ := frame_serialize hpayload freshId' heap'
  refine ⟨s, s', t, hs, serializeInside_eq_some.mpr ⟨⟨payload, hspayload, ?_⟩, hs'⟩,
    serializeInside_eq_some.mpr ⟨⟨payload, hpayload, hfills.le⟩, ht⟩, ?_⟩
  · rw [hlength]
    exact hfills.le
  · rw [hframe, htframe, ← hreply]
    refine halike.sameBuffer hsame ?_ freshId freshId' heap heap'
    rw [written_length]
    exact hfills.ge

/-- Serialising after some calls comes back and gives the buffer of adding the values first and
serialising once exactly if every call has room, the sizes that the calls add up to are 0 in 32
bits, and the buffer of serialising once is written whole. -/
theorem serializesAsOnce_iff (m : NymphMessage) (calls : List PreparingCall) :
    m.SerializesAsOnce calls ↔ m.RoomAlong calls ∧
      UInt32.ofNat (serializations calls) * m.growth = 0 ∧ (m.withValues calls).Fills := by
  constructor
  · exact SerializesAsOnce.fills
  · rintro ⟨halong, hzero, hfills⟩
    exact halong.serializesAsOnce hzero hfills

/-- A message that is serialised twice gets a larger buffer, and so does one that a value is added
to between. -/
theorem not_serializesAsOnce_again :
    ¬(ofMethodId ⟨0, 0⟩ 3).SerializesAsOnce [.serialize 1 fun _ => 0] ∧
    ¬(ofMethodId ⟨0, 0⟩ 3).SerializesAsOnce
      [.serialize 1 (fun _ => 0), .addValue (.ofBool ⟨0, 0⟩ true)] := by
  constructor
  · intro h
    have hgrowth := h.fills.2.1
    revert hgrowth
    decide
  · intro h
    have hgrowth := h.fills.2.1
    revert hgrowth
    decide

/-! ### Regular messages -/

/-- What the buffer of a regular message has beside what is written. -/
def spare (m : NymphMessage) : UInt32 :=
  m.messageLength + 8 - UInt32.ofNat ((NymphType.serializeAll m.values).length + 26)

/-- One more value is written last. -/
theorem length_serializeAll_concat (vs : List NymphType) (v : NymphType) :
    (NymphType.serializeAll (vs ++ [v])).length =
      (NymphType.serializeAll vs).length + v.serialize.length := by
  induction vs with
  | nil => simp [NymphType.serializeAll]
  | cons w vs ih =>
    rw [List.cons_append, NymphType.serializeAll, NymphType.serializeAll, List.length_append,
      List.length_append, ih, Nat.add_assoc]

/-- A value that is written in its recorded size leaves it as it is. -/
theorem spare_addValue (m : NymphMessage) {v : NymphType}
    (hv : UInt32.ofNat v.serialize.length = v.bytes.toUInt32) : (m.addValue v).spare = m.spare := by
  have hlength : (m.addValue v).bufferLength = m.bufferLength + v.bytes.toUInt32 := rfl
  have hgrowth : (m.addValue v).growth = m.growth := rfl
  have hvalues : (m.addValue v).values = m.values ++ [v] := rfl
  rw [spare, spare, messageLength_add, messageLength_add, hlength, hgrowth, hvalues,
    length_serializeAll_concat, Nat.add_right_comm, UInt32.ofNat_add, hv]
  grind

/-- So do all values that are. -/
theorem spare_foldl_addValue (m : NymphMessage) {vs : List NymphType}
    (hsizes : ∀ v ∈ vs, UInt32.ofNat v.serialize.length = v.bytes.toUInt32) :
    (vs.foldl addValue m).spare = m.spare := by
  induction vs generalizing m with
  | nil => rfl
  | cons v vs ih =>
    rw [List.foldl_cons, ih (m.addValue v) fun w hw => hsizes w (List.mem_cons_of_mem _ hw),
      m.spare_addValue (hsizes v List.mem_cons_self)]

/-- The kind and the values of a message that values are added to. -/
theorem kind_foldl_addValue (m : NymphMessage) (vs : List NymphType) :
    (vs.foldl addValue m).flags = m.flags ∧ (vs.foldl addValue m).values = m.values ++ vs := by
  induction vs generalizing m with
  | nil => exact ⟨rfl, (List.append_nil _).symm⟩
  | cons v vs ih =>
    obtain ⟨hflags, hvalues⟩ := ih (m.addValue v)
    refine ⟨hflags, ?_⟩
    rw [List.foldl_cons, hvalues]
    exact List.append_assoc _ [v] vs

/-- A message without flags, to which values are added that are written in their recorded sizes. -/
structure RegularSized (m : NymphMessage) (calls : List PreparingCall) : Prop where
  isReply : m.isReply = false
  isException : m.isException = false
  isCallback : m.isCallback = false
  count : m.values.length + (addedValues calls).length < 2 ^ 32
  sizes : ∀ v ∈ addedValues calls, UInt32.ofNat v.serialize.length = v.bytes.toUInt32

/-- The values and the calls of `serialize()` of calls one after the other. -/
theorem calls_append (before after : List PreparingCall) :
    addedValues (before ++ after) = addedValues before ++ addedValues after ∧
      serializations (before ++ after) = serializations before + serializations after := by
  induction before with
  | nil => exact ⟨rfl, (Nat.zero_add _).symm⟩
  | cons call before ih =>
    cases call with
    | addValue v => exact ⟨congrArg (v :: ·) ih.1, ih.2⟩
    | serialize freshId heap => exact ⟨ih.1, by simp [serializations, ih.2]; omega⟩

/-- So it is with the first of the calls. -/
theorem RegularSized.of_append {before after : List PreparingCall}
    (h : m.RegularSized (before ++ after)) : m.RegularSized before := by
  obtain ⟨hreply, hexception, hcallback, hcount, hsizes⟩ := h
  rw [(calls_append before after).1] at hcount hsizes
  rw [List.length_append] at hcount
  exact ⟨hreply, hexception, hcallback, by omega, fun v hv => hsizes v (List.mem_append_left _ hv)⟩

/-- Such a message grows by what is around its values. -/
theorem RegularSized.growth (h : m.RegularSized calls) : m.growth = 26 := by
  rw [NymphMessage.growth, h.isReply, h.isException, h.isCallback]
  rfl

/-- A call of `serialize()` writes all values, and its buffer is larger by 26 bytes for each call
before it. -/
theorem RegularSized.roomAfter_iff (h : m.RegularSized calls) : ∃ w, 26 ≤ w ∧ (m.RoomAfter calls ↔
    w ≤ (m.spare + UInt32.ofNat w + UInt32.ofNat (serializations calls) * 26).toNat) := by
  obtain ⟨hflags, hvalues⟩ := m.kind_foldl_addValue (addedValues calls)
  have hall : (m.withValues calls).serializedValues = (m.withValues calls).values := by
    apply serializedValues_eq
    rw [withValues, hvalues, List.length_append]
    exact h.count
  have hpayload : (m.withValues calls).payload =
      some (NymphType.serializeAll (m.withValues calls).values) := by
    have hreply : (m.withValues calls).isReply = false := by
      rw [NymphMessage.isReply, withValues, hflags]
      exact h.isReply
    have hexception : (m.withValues calls).isException = false := by
      rw [NymphMessage.isException, withValues, hflags]
      exact h.isException
    have hcallback : (m.withValues calls).isCallback = false := by
      rw [NymphMessage.isCallback, withValues, hflags]
      exact h.isCallback
    rw [payload, hall, hreply, hexception, hcallback]
    rfl
  have hsize : m.sizeAfter calls = m.spare +
      UInt32.ofNat ((NymphType.serializeAll (m.withValues calls).values).length + 26) +
        UInt32.ofNat (serializations calls) * 26 := by
    have hspare := m.spare_foldl_addValue h.sizes
    rw [sizeAfter, h.growth, ← hspare, spare, withValues]
    grind
  refine ⟨(NymphType.serializeAll (m.withValues calls).values).length + 26,
    Nat.le_add_left _ _, ?_⟩
  rw [RoomAfter, hpayload, hsize]
  simp

/-- As long as every call has room, what the calls add up to stays below 2^32. -/
theorem RegularSized.spare_lt (h : m.RegularSized calls) (halong : m.RoomAlong calls) :
    m.spare.toNat + serializations calls * 26 < 2 ^ 32 := by
  induction calls using List.reverseRecOn with
  | nil => simpa [serializations] using m.spare.toNat_lt
  | append_singleton calls call ih =>
    obtain ⟨hbefore, hlast⟩ := (m.roomAlong_concat calls call).mp halong
    have hlt := ih h.of_append hbefore
    rw [(calls_append calls [call]).2]
    cases call with
    | addValue v => simpa [serializations] using hlt
    | serialize freshId heap =>
      obtain ⟨w, hw, hroom⟩ := h.of_append.roomAfter_iff
      have hfits := hroom.mp (hlast freshId heap rfl)
      -- a sum beyond 2^32 would leave less than what is written
      have htwentySix : (26 : UInt32).toNat = 26 := rfl
      simp only [UInt32.toNat_add, UInt32.toNat_mul, UInt32.toNat_ofNat', htwentySix] at hfits
      simp only [serializations]
      omega

/-- In a regular message whose values are written in their recorded sizes, serialising after some
calls gives the buffer of serialising once exactly if `serialize()` was not called before, and that
buffer is written whole. -/
theorem serializesAsOnce_of_regular (h : m.RegularSized calls) :
    m.SerializesAsOnce calls ↔ serializations calls = 0 ∧ (m.withValues calls).Fills := by
  have hnone : ∀ n, n * 26 < 2 ^ 32 → UInt32.ofNat n * 26 = 0 → n = 0 := by
    intro n hlt hzero
    have htwentySix : (26 : UInt32).toNat = 26 := rfl
    have hmod := congrArg UInt32.toNat hzero
    rw [UInt32.toNat_mul, UInt32.toNat_ofNat_of_lt' (show n < 2 ^ 32 by omega), htwentySix,
      Nat.mod_eq_of_lt hlt, UInt32.toNat_zero] at hmod
    omega
  constructor
  · intro honce
    obtain ⟨halong, hzero, hfills⟩ := honce.fills
    rw [h.growth] at hzero
    have hlt := h.spare_lt halong
    exact ⟨hnone _ (by omega) hzero, hfills⟩
  · rintro ⟨hnone, hfills⟩
    refine RoomAlong.serializesAsOnce ?_ (by rw [hnone]; exact UInt32.zero_mul) hfills
    rintro before freshId heap after rfl
    rw [(calls_append before _).2, serializations] at hnone
    omega

end NymphMessage

end NymphRpc
