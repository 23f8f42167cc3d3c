import NymphRpc.Session.Framing

/-!
# Connections that close inside a message

The peer closes the connection behind a part of a body. The loop that waits for the rest sees
it, deletes the buffer and leaves, but only the inner loop ends: the constructor is given the
deleted buffer and a message is made of it, in both copies of the receive loop, for every
announced length, wherever the body is cut and however it arrives.
-/

namespace NymphRpc

open LittleEndian Segments

/-- The start of a frame: the signature, the announced length, and what was sent of the body. -/
def cutFrame (length : ℕ) (sent : Bytes) : Bytes :=
  toBytes 4 signature ++ (toBytes 4 length ++ sent)

/-- The loop ends, and no message is made but those of the frames. -/
def EndsQuietly (x : Receive Unit) (frames : List Bytes) : Prop :=
  x.result = .ok () ∧ x.log = frames.map fun f => .body (f.drop 8)

section

variable {arrived : ℕ → ℕ}

/-- The rest of a body does not come when the stream is too short, however it is cut. -/
theorem receiveRest_short {fuel missing : ℕ} {stream : Bytes} (buff : Bytes)
    (hfuel : stream.length < fuel) (hstream : stream.length < missing) :
    receiveRest arrived fuel stream missing buff = pure (none, []) := by
  induction fuel generalizing stream missing buff with
  | zero => omega
  | succ fuel ih =>
    have hlength := unread_length arrived stream missing
    rw [receiveRest]
    by_cases hnil : stream = []
    · subst hnil
      simp [receive, unread]
    · have hpos : 0 < (receive arrived stream missing).length :=
        receive_length_pos (by omega) hnil
      rw [if_neg (by omega), if_pos (by omega)]
      exact ih _ (by omega) (by omega)

/-- A body does not come when the stream is too short, however it is cut. -/
theorem receiveBody_short {fuel length : ℕ} {stream : Bytes} (hfuel : stream.length < fuel)
    (hstream : stream.length < length) :
    receiveBody arrived fuel stream length = pure (none, []) := by
  have hlength := unread_length arrived stream length
  rw [receiveBody, if_pos (by omega)]
  exact receiveRest_short _ (by omega) (by omega)

/-- A frame that is cut short hands the deleted buffer over, and the loop ends. -/
theorem receiveLoop_cutFrame {fuel length : ℕ} {sent : Bytes} (hsent : sent.length < length)
    (hlong : length < 2 ^ 31) (hfuel : sent.length + 1 < fuel)
    (harrived : 8 ≤ arrived (cutFrame length sent).length) :
    receiveLoop arrived fuel (cutFrame length sent) =
      Traced.tell (.deleted length) >>= fun _ => pure () := by
  obtain ⟨fuel, rfl⟩ := Nat.exists_eq_add_one_of_ne_zero (show fuel ≠ 0 by omega)
  obtain ⟨fuel, rfl⟩ := Nat.exists_eq_add_one_of_ne_zero (show fuel ≠ 0 by omega)
  rw [cutFrame, receiveLoop_announced (by omega) harrived, if_neg (by omega),
    receiveBody_short (by omega) hsent, Traced.pure_bind]
  dsimp only
  rw [receiveLoop_nil]
  rfl

/-- Complete frames before one that is cut short, all headers arriving whole. -/
structure CutShort (arrived : ℕ → ℕ) (frames : List Bytes) (length : ℕ) (sent : Bytes) :
    Prop where
  framed : ∀ f ∈ frames, Frame f (f.drop 8)
  lengths : ∀ f ∈ frames, f.length < 2 ^ 31 + 8
  cut : sent.length < length
  announced : length < 2 ^ 32
  headers : ∀ f rest, f :: rest <:+ frames ++ [cutFrame length sent] →
    8 ≤ arrived (f :: rest).flatten.length

/-- What is sent before the peer closes. -/
def cutStream (frames : List Bytes) (length : ℕ) (sent : Bytes) : Bytes :=
  (frames ++ [cutFrame length sent]).flatten

/-- What holds of the frames holds without the first one. -/
theorem CutShort.tail {f : Bytes} {frames : List Bytes} {length : ℕ} {sent : Bytes}
    (h : CutShort arrived (f :: frames) length sent) : CutShort arrived frames length sent where
  framed g hg := h.framed g (List.mem_cons_of_mem _ hg)
  lengths g hg := h.lengths g (List.mem_cons_of_mem _ hg)
  cut := h.cut
  announced := h.announced
  headers g rest hsuffix := h.headers g rest (hsuffix.trans (List.suffix_cons _ _))

/-- The loop makes messages of the complete frames, and then one of the deleted buffer; the
length that is negative as an `int` is not received at all. -/
theorem receiveLoop_cutStream {frames : List Bytes} {length : ℕ} {sent : Bytes}
    (h : CutShort arrived frames length sent) {fuel : ℕ}
    (hfuel : (cutStream frames length sent).length < fuel) :
    (length < 2 ^ 31 →
      (receiveLoop arrived fuel (cutStream frames length sent)).log =
        frames.map (fun f => .body (f.drop 8)) ++ [.deleted length] ∧
      (receiveLoop arrived fuel (cutStream frames length sent)).result = .ok ()) ∧
    (2 ^ 31 ≤ length →
      (receiveLoop arrived fuel (cutStream frames length sent)).result =
        .error .negativeLength) := by
  induction frames generalizing fuel with
  | nil =>
    have hstream : cutStream [] length sent = cutFrame length sent := by
      simp [cutStream]
    have hlength : (cutFrame length sent).length = 8 + sent.length := by
      rw [cutFrame, List.length_append, List.length_append, toBytes_length, toBytes_length]
      omega
    have harrived := h.headers (cutFrame length sent) [] List.suffix_rfl
    rw [List.flatten_singleton] at harrived
    rw [hstream] at hfuel ⊢
    apply And.intro
    · intro hlong
      rw [receiveLoop_cutFrame h.cut hlong (by omega) harrived]
      exact ⟨rfl, rfl⟩
    · intro hlong
      obtain ⟨fuel, rfl⟩ := Nat.exists_eq_add_one_of_ne_zero (show fuel ≠ 0 by omega)
      rw [cutFrame, receiveLoop_announced h.announced harrived, if_pos hlong]
      rfl
  | cons f frames ih =>
    obtain ⟨fuel, rfl⟩ := Nat.exists_eq_add_one_of_ne_zero (show fuel ≠ 0 by omega)
    have hstream : cutStream (f :: frames) length sent = f ++ cutStream frames length sent := rfl
    have hframe := h.framed f List.mem_cons_self
    have hlong := h.lengths f List.mem_cons_self
    have hbody := List.length_drop (i := 8) (l := f)
    have harrived : 8 ≤ arrived (f ++ cutStream frames length sent).length :=
      h.headers f _ List.suffix_rfl
    rw [hstream, List.length_append] at hfuel
    have hheader := congrArg List.length hframe.eq
    rw [List.length_append, List.length_append, toBytes_length, toBytes_length] at hheader
    obtain ⟨hquiet, hnegative⟩ := ih h.tail (show _ < fuel by omega)
    rw [hstream, receiveLoop_frame hframe (by omega) (by omega) harrived,
      Traced.log_bind_of_ok rfl, Traced.result_bind_of_ok rfl]
    apply And.intro
    · intro hshort
      obtain ⟨hlog, hresult⟩ := hquiet hshort
      rw [hlog, hresult]
      exact ⟨rfl, rfl⟩
    · exact hnegative

/-- A loop that hands a deleted buffer over does not end quietly, nor one that fails. -/
theorem not_endsQuietly_cutStream {frames : List Bytes} {length : ℕ} {sent : Bytes}
    (h : CutShort arrived frames length sent) {fuel : ℕ}
    (hfuel : (cutStream frames length sent).length < fuel) :
    ¬EndsQuietly (receiveLoop arrived fuel (cutStream frames length sent)) frames := by
  rintro ⟨hresult, hlog⟩
  obtain ⟨hcut, hnegative⟩ := receiveLoop_cutStream h hfuel
  by_cases hlong : 2 ^ 31 ≤ length
  · rw [hnegative hlong] at hresult
    cases hresult
  · have hlengths := congrArg List.length hlog
    rw [(hcut (by omega)).1, List.length_append, List.length_singleton] at hlengths
    omega

end

/-- Whatever length is announced, wherever its body is cut and however it arrives: both receive
loops make a message of the deleted buffer, or fail to receive the body. -/
theorem receive_cutShort (arrived : ℕ → ℕ) {frames : List Bytes} {length : ℕ} {sent : Bytes}
    (h : CutShort arrived frames length sent) {fuel : ℕ}
    (hfuel : (cutStream frames length sent).length < fuel) :
    ¬EndsQuietly (NymphSession.receive arrived fuel (cutStream frames length sent)) frames ∧
      ¬EndsQuietly (NymphSocketListener.receive arrived fuel (cutStream frames length sent))
        frames :=
  ⟨not_endsQuietly_cutStream h hfuel, not_endsQuietly_cutStream h hfuel⟩

/-- A peer that sends an empty body, and closes after one of two announced bytes. -/
theorem receive_cutShort_one :
    ¬EndsQuietly (NymphSession.receive (fun _ => 8) 18
        (cutStream [toBytes 4 signature ++ toBytes 4 0] 2 [0x00]))
        [toBytes 4 signature ++ toBytes 4 0] ∧
      ¬EndsQuietly (NymphSocketListener.receive (fun _ => 8) 18
        (cutStream [toBytes 4 signature ++ toBytes 4 0] 2 [0x00]))
        [toBytes 4 signature ++ toBytes 4 0] := by
  apply receive_cutShort (fun _ => 8)
  · refine ⟨?_, by decide, by decide, by decide, fun _ _ _ => le_rfl⟩
    intro f hf
    rw [List.mem_singleton.mp hf]
    exact ⟨by decide, by decide⟩
  · decide

/-- One byte arrives of the two announced ones, and a message is made of the deleted buffer. -/
theorem not_endsQuietly_one :
    ¬EndsQuietly (NymphSession.receive (fun _ => 9) 10 (cutStream [] 2 [0x00])) [] ∧
      ¬EndsQuietly (NymphSocketListener.receive (fun _ => 9) 10 (cutStream [] 2 [0x00])) [] := by
  have hlog : (receiveLoop (fun _ => 9) 10 (cutStream [] 2 [0x00])).log = [.deleted 2] := by
    decide +kernel
  exact ⟨fun h => List.cons_ne_nil _ _ (hlog.symm.trans h.2),
    fun h => List.cons_ne_nil _ _ (hlog.symm.trans h.2)⟩

end NymphRpc
