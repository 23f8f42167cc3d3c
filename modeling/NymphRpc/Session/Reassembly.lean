import NymphRpc.Base.Buffer
import NymphRpc.Session.Framing

/-!
# Reassembling a body

The loop that receives a body, with its counters as they are in the source: the length is a
`uint32_t`, and what was received, the index and the rest are `int`s. A poll may time out, and a
read gets any number of bytes from one to what it asks for. At every iteration the index and the
rest add up to the length, and the bytes in front of the index are those of the stream.
-/

namespace NymphRpc

open Buffer

/-- Write bytes at a position of a buffer; nothing can be written outside. -/
def writeAt (buff : Bytes) (p : ℤ) (bs : Bytes) : Option Bytes :=
  if 0 ≤ p ∧ p + bs.length ≤ buff.length then
    some (buff.take p.toNat ++ (bs ++ buff.drop (p.toNat + bs.length)))
  else none

/-- The variables of the loop that waits for the rest of a body, and the unread stream. -/
structure BodyLoop where
  buff : Bytes
  buffIdx : ℤ
  unread : ℤ
  stream : Bytes

/-- How far a body was received. -/
inductive BodyState
  | waiting (l : BodyLoop)
  | complete (buff stream : Bytes)
  | disconnected (stream : Bytes)
  | outside

/-- How a poll ends; the read that follows gets the bytes that arrived. -/
inductive Poll
  | timedOut
  | arrived (n : ℕ)

/-- The first read of a body, which gets `n` bytes. -/
def BodyState.first (length : UInt32) (heap : ℕ → UInt8) (stream : Bytes) (n : ℕ) : BodyState :=
  match writeAt ((List.range length.toNat).map heap) 0 (stream.take n) with
  | none => .outside
  | some buff =>
    let received : ℤ := n
    if UInt32.ofInt received ≠ length then
      .waiting ⟨buff, received, int32 (length - UInt32.ofInt received).toNat, stream.drop n⟩
    else .complete buff (stream.drop n)

/-- One iteration of the loop. -/
def BodyLoop.next (l : BodyLoop) : Poll → BodyState
  | .timedOut => .waiting l
  | .arrived n =>
    match writeAt l.buff l.buffIdx (l.stream.take n) with
    | none => .outside
    | some buff =>
      let received : ℤ := n
      if received = 0 then .disconnected (l.stream.drop n)
      else if received ≠ l.unread then
        .waiting ⟨buff, int32 (l.buffIdx + received), int32 (l.unread - received),
          l.stream.drop n⟩
      else .complete buff (l.stream.drop n)

/-- The states that reads lead to which each get at least one byte and no more than they ask for,
with the number of bytes that were received. -/
inductive ReceivesBody (length : UInt32) (heap : ℕ → UInt8) (stream : Bytes) :
    ℕ → BodyState → Prop
  | first (n : ℕ) (hpos : 1 ≤ n) (hle : (n : ℤ) ≤ int32 length.toNat) :
      ReceivesBody length heap stream n (.first length heap stream n)
  | timedOut {total l} (h : ReceivesBody length heap stream total (.waiting l)) :
      ReceivesBody length heap stream total (l.next .timedOut)
  | arrived {total l} (h : ReceivesBody length heap stream total (.waiting l)) (n : ℕ)
      (hpos : 1 ≤ n) (hle : (n : ℤ) ≤ l.unread) :
      ReceivesBody length heap stream (total + n) (l.next (.arrived n))

/-- The states of the loop in `NymphSession::run`. -/
def NymphSession.ReceivesBody : UInt32 → (ℕ → UInt8) → Bytes → ℕ → BodyState → Prop :=
  NymphRpc.ReceivesBody

/-- The states of the loop in `NymphSocketListener::run`. -/
def NymphSocketListener.ReceivesBody : UInt32 → (ℕ → UInt8) → Bytes → ℕ → BodyState → Prop :=
  NymphRpc.ReceivesBody

/-- While the loop waits, the index counts the received bytes, the index and the rest add up to
the length, something is left, and the bytes in front of the index are the first of the stream. It
ends when all bytes of the length were received; then they are in the buffer, and nothing behind
them was consumed. Nothing is written outside. -/
def BodyState.Exact (length : UInt32) (stream : Bytes) (total : ℕ) : BodyState → Prop
  | .waiting l => l.buffIdx = total ∧ l.buffIdx + l.unread = length.toNat ∧ 0 < l.unread ∧
      l.buff.length = length.toNat ∧ l.buff.take l.buffIdx.toNat = stream.take l.buffIdx.toNat ∧
      l.stream = stream.drop total
  | .complete buff rest => total = length.toNat ∧ buff = stream.take length.toNat ∧
      rest = stream.drop length.toNat
  | .disconnected _ | .outside => False

section

variable {length : UInt32} {heap : ℕ → UInt8} {stream : Bytes}

/-- Writing inside a buffer. -/
theorem writeAt_eq {buff bs : Bytes} {k : ℕ} (h : k + bs.length ≤ buff.length) :
    writeAt buff k bs = some (buff.take k ++ (bs ++ buff.drop (k + bs.length))) := by
  rw [writeAt, if_pos (by omega), Int.toNat_natCast]

/-- What is written behind the first `k` bytes of a buffer follows them. -/
theorem take_written {buff bs : Bytes} {k : ℕ} (h : k + bs.length ≤ buff.length) :
    (buff.take k ++ (bs ++ buff.drop (k + bs.length))).length = buff.length ∧
      (buff.take k ++ (bs ++ buff.drop (k + bs.length))).take (k + bs.length) =
        buff.take k ++ bs := by
  have hk : (buff.take k).length = k := by
    rw [List.length_take]
    omega
  constructor
  · rw [List.length_append, List.length_append, List.length_drop, hk]
    omega
  · rw [← List.append_assoc]
    exact List.take_left' (by rw [List.length_append, hk])

/-- A `uint32_t` made of a small `int`. -/
theorem toNat_ofInt {n : ℕ} (hn : n < 2 ^ 32) : (UInt32.ofInt n).toNat = n := by
  rw [UInt32.ofInt, UInt32.toNat_ofNat']
  omega

/-- The first read is exact. -/
theorem exact_first (hlt : length.toNat < 2 ^ 31) (hstream : length.toNat ≤ stream.length) {n : ℕ}
    (hpos : 1 ≤ n) (hle : (n : ℤ) ≤ int32 length.toNat) :
    (BodyState.first length heap stream n).Exact length stream n := by
  have hn : n ≤ length.toNat := by
    rw [int32_eq (by omega) (by omega)] at hle
    omega
  have hbytes : (stream.take n).length = n := by
    rw [List.length_take]
    omega
  have hsize : ((List.range length.toNat).map heap).length = length.toNat := by
    rw [List.length_map, List.length_range]
  have hfits : 0 + (stream.take n).length ≤ ((List.range length.toNat).map heap).length := by
    rw [hbytes, hsize]
    omega
  obtain ⟨hlength, htake⟩ := take_written hfits
  have hreceived : (UInt32.ofInt n).toNat = n := toNat_ofInt (by omega)
  have hwrite := writeAt_eq hfits
  rw [Nat.cast_zero] at hwrite
  rw [BodyState.first, hwrite]
  dsimp only
  rw [List.take_zero, List.nil_append, hbytes, Nat.zero_add] at htake hlength ⊢
  by_cases hall : UInt32.ofInt n = length
  · rw [if_neg (not_not.mpr hall)]
    have htotal : n = length.toNat := by
      rw [← hall]
      exact hreceived.symm
    refine ⟨htotal, ?_, by rw [htotal]⟩
    rw [List.drop_of_length_le (by omega), List.append_nil, htotal]
  · rw [if_pos hall]
    have hne : n ≠ length.toNat := by
      intro heq
      exact hall (UInt32.toNat_inj.mp (hreceived.trans heq))
    have hrest : int32 (length - UInt32.ofInt n).toNat = (length.toNat - n : ℕ) := by
      rw [UInt32.toNat_sub_of_le _ _ (UInt32.le_iff_toNat_le.mpr (by omega)), hreceived,
        int32_eq (by omega) (by omega)]
    refine ⟨rfl, ?_, ?_, ?_, ?_, rfl⟩
    · rw [hrest]
      dsimp only
      omega
    · rw [hrest]
      dsimp only
      omega
    · exact hlength.trans hsize
    · rw [Int.toNat_natCast]
      exact htake

/-- An iteration that reads is exact if the loop was. -/
theorem exact_next (hlt : length.toNat < 2 ^ 31) (hstream : length.toNat ≤ stream.length)
    {total : ℕ} {l : BodyLoop} (h : (BodyState.waiting l).Exact length stream total) {n : ℕ}
    (hpos : 1 ≤ n) (hle : (n : ℤ) ≤ l.unread) :
    (l.next (.arrived n)).Exact length stream (total + n) := by
  obtain ⟨hidx, hsum, hunread, hsize, hfront, hrest⟩ := h
  rw [hidx, Int.toNat_natCast] at hfront
  have hbytes : (l.stream.take n).length = n := by
    rw [hrest, List.length_take, List.length_drop]
    omega
  have hfits : total + (l.stream.take n).length ≤ l.buff.length := by
    rw [hbytes, hsize]
    omega
  obtain ⟨hlength, htake⟩ := take_written hfits
  -- the bytes in front of the index, and those that arrived behind them
  have hstored : l.buff.take total ++ l.stream.take n = stream.take (total + n) := by
    rw [hfront, hrest, List.take_add]
  have hunreadStream : l.stream.drop n = stream.drop (total + n) := by
    rw [hrest, List.drop_drop]
  have hwrite := writeAt_eq hfits
  rw [← hidx] at hwrite
  rw [BodyLoop.next, hwrite]
  dsimp only
  rw [hbytes] at hlength htake ⊢
  rw [if_neg (by omega)]
  by_cases hall : (n : ℤ) = l.unread
  · rw [if_neg (not_not.mpr hall)]
    have htotal : total + n = length.toNat := by omega
    refine ⟨htotal, ?_, by rw [hunreadStream, htotal]⟩
    rw [List.drop_of_length_le (by omega), List.append_nil, hstored, htotal]
  · rw [if_pos hall]
    have hnext : int32 (l.buffIdx + n) = (total + n : ℕ) := by
      rw [int32_eq (by omega) (by omega)]
      omega
    have hleft : int32 (l.unread - n) = l.unread - n := int32_eq (by omega) (by omega)
    refine ⟨hnext, ?_, ?_, ?_, ?_, hunreadStream⟩
    · rw [hnext, hleft]
      dsimp only
      omega
    · rw [hleft]
      dsimp only
      omega
    · exact hlength.trans hsize
    · rw [hnext, Int.toNat_natCast]
      exact htake.trans hstored

/-- Every state that reads lead to is exact. -/
theorem ReceivesBody.exact (hlt : length.toNat < 2 ^ 31) (hstream : length.toNat ≤ stream.length)
    {total : ℕ} {state : BodyState} (h : ReceivesBody length heap stream total state) :
    state.Exact length stream total := by
  induction h with
  | first n hpos hle => exact exact_first hlt hstream hpos hle
  | timedOut h ih => exact ih
  | arrived h n hpos hle ih => exact exact_next hlt hstream ih hpos hle

/-- A body is complete exactly if all bytes of its length were received. -/
theorem BodyState.Exact.complete_iff {total : ℕ} {state : BodyState}
    (h : state.Exact length stream total) :
    (∃ buff rest, state = .complete buff rest) ↔ total = length.toNat := by
  cases state with
  | waiting l =>
    obtain ⟨hidx, hsum, hunread, -⟩ := h
    refine iff_of_false ?_ (by omega)
    rintro ⟨_, _, hwaiting⟩
    cases hwaiting
  | complete buff rest => exact iff_of_true ⟨buff, rest, rfl⟩ h.1
  | disconnected rest => exact h.elim
  | outside => exact h.elim

/-- A loop that waits ends with a read that gets the rest. -/
theorem ReceivesBody.finish (hlt : length.toNat < 2 ^ 31) (hstream : length.toNat ≤ stream.length)
    {total : ℕ} {l : BodyLoop} (h : ReceivesBody length heap stream total (.waiting l)) :
    ∃ n buff rest, ReceivesBody length heap stream (total + n) (.complete buff rest) := by
  obtain ⟨hidx, hsum, hunread, -⟩ := h.exact hlt hstream
  have hread := h.arrived l.unread.toNat (by omega) (by omega)
  obtain ⟨buff, rest, hcomplete⟩ := (hread.exact hlt hstream).complete_iff.mpr (by omega)
  rw [hcomplete] at hread
  exact ⟨_, buff, rest, hread⟩

/-- However the reads are cut, a complete body and the stream behind it are those that the receive
loop goes on with. -/
theorem ReceivesBody.receiveBody_eq {arrived : ℕ → ℕ} {fuel : ℕ} (hfuel : length.toNat < fuel)
    (hlt : length.toNat < 2 ^ 31) (hstream : length.toNat ≤ stream.length) {total : ℕ}
    {buff rest : Bytes} (h : ReceivesBody length heap stream total (.complete buff rest)) :
    receiveBody arrived fuel stream length.toNat = pure (some buff, rest) := by
  obtain ⟨-, rfl, rfl⟩ := h.exact hlt hstream
  exact NymphRpc.receiveBody_eq hfuel hstream

/-- Both loops are exact in every state, and end exactly when all bytes of the length were
received. -/
theorem reassembly_exact (hlt : length.toNat < 2 ^ 31) (hstream : length.toNat ≤ stream.length)
    (heap : ℕ → UInt8) (total : ℕ) (state : BodyState) :
    (NymphSession.ReceivesBody length heap stream total state →
      state.Exact length stream total ∧
        ((∃ buff rest, state = .complete buff rest) ↔ total = length.toNat)) ∧
    (NymphSocketListener.ReceivesBody length heap stream total state →
      state.Exact length stream total ∧
        ((∃ buff rest, state = .complete buff rest) ↔ total = length.toNat)) := by
  have hexact : NymphRpc.ReceivesBody length heap stream total state →
      state.Exact length stream total ∧
        ((∃ buff rest, state = .complete buff rest) ↔ total = length.toNat) := by
    intro h
    exact ⟨h.exact hlt hstream, (h.exact hlt hstream).complete_iff⟩
  exact ⟨hexact, hexact⟩

/-- Three bytes of five, of which the first read gets one, and after a poll that times out the
second read gets two. -/
theorem reassembly_exact_three : ∃ rest, NymphSession.ReceivesBody 3 (fun _ => 0) [1, 2, 3, 4, 5] 3
      (.complete [1, 2, 3] rest) ∧
    (BodyState.complete [1, 2, 3] rest).Exact 3 [1, 2, 3, 4, 5] 3 := by
  have hthree : int32 (3 : UInt32).toNat = (3 : ℕ) := int32_eq (by decide) (by decide)
  have hfirst : NymphRpc.ReceivesBody 3 (fun _ => 0) [1, 2, 3, 4, 5] 1
      (.waiting ⟨[1, 0, 0], 1, int32 (2 : ℕ), [2, 3, 4, 5]⟩) :=
    ReceivesBody.first 1 le_rfl (by rw [hthree]; decide)
  have hcomplete : NymphSession.ReceivesBody 3 (fun _ => 0) [1, 2, 3, 4, 5] 3
      (.complete [1, 2, 3] [4, 5]) :=
    hfirst.timedOut.arrived 2 (by decide) (by rw [int32_eq] <;> decide)
  exact ⟨_, hcomplete, ((reassembly_exact (by decide) (by decide) _ _ _).1 hcomplete).1⟩

end

end NymphRpc
