import NymphRpc.Base.Segments
import NymphRpc.Base.Traced
import NymphRpc.Message.NymphMessage

/-!
# Cutting the stream into messages

`NymphSession::run` and `NymphSocketListener::run` receive in the same way: eight bytes with the
signature and a length, and then a body of that length, for which they wait in a loop. Fewer than
eight bytes are dropped, and so are eight bytes without the signature. When the peer closes the
connection inside a body, the loop deletes the buffer and leaves, and the constructor is given
the deleted buffer.
-/

namespace NymphRpc

open LittleEndian Segments

/-- What is handed to the constructor of a message. -/
inductive Handed
  | body (bytes : Bytes)
  | deleted (length : ℕ)
  deriving DecidableEq

/-- Why receiving stops before the end of the stream. -/
inductive ReceiveFault
  | outOfFuel
  | negativeLength

/-- A computation that receives, and logs what it hands over. -/
abbrev Receive := Traced ReceiveFault Handed

/-- What is handed over after a body was received, or not. -/
def Handed.ofBody (length : ℕ) : Option Bytes → Handed
  | some bytes => .body bytes
  | none => .deleted length

section

variable (arrived : ℕ → ℕ)

/-- The loop that waits for the rest of a body; it gives the body and the unread stream. -/
def receiveRest : ℕ → Bytes → ℕ → Bytes → Receive (Option Bytes × Bytes)
  | 0, _, _, _ => Traced.fault .outOfFuel
  | fuel + 1, stream, missing, buff =>
    let received := receive arrived stream missing
    let stream := unread arrived stream missing
    if received.length = 0 then pure (none, stream)
    else if received.length ≠ missing then
      receiveRest fuel stream (missing - received.length) (buff ++ received)
    else pure (some (buff ++ received), stream)

/-- Receive a body. -/
def receiveBody (fuel : ℕ) (stream : Bytes) (length : ℕ) : Receive (Option Bytes × Bytes) :=
  let buff := receive arrived stream length
  let stream := unread arrived stream length
  if buff.length ≠ length then receiveRest arrived fuel stream (length - buff.length) buff
  else pure (some buff, stream)

/-- The receive loop. The length is an `int` where the body is received. -/
def receiveLoop : ℕ → Bytes → Receive Unit
  | 0, _ => Traced.fault .outOfFuel
  | fuel + 1, stream =>
    let headerBuff := receive arrived stream 8
    let stream := unread arrived stream 8
    if headerBuff.length = 0 then pure ()
    else if headerBuff.length < 8 then receiveLoop fuel stream
    else if ofBytes (headerBuff.take 4) ≠ signature then receiveLoop fuel stream
    else
      let length := ofBytes (headerBuff.drop 4)
      if 2 ^ 31 ≤ length then Traced.fault .negativeLength
      else do
        let (body, stream) ← receiveBody arrived fuel stream length
        Traced.tell (.ofBody length body)
        receiveLoop fuel stream

/-- The receive loop of `NymphSession::run`. -/
def NymphSession.receive : ℕ → Bytes → Receive Unit := receiveLoop arrived

/-- The receive loop of `NymphSocketListener::run`. -/
def NymphSocketListener.receive : ℕ → Bytes → Receive Unit := receiveLoop arrived

end

/-! ### Bodies -/

section

variable {arrived : ℕ → ℕ}

/-- The rest of a body is received if the stream has it, however it is cut. -/
theorem receiveRest_eq {fuel missing : ℕ} {stream buff : Bytes} (hfuel : missing < fuel)
    (hmissing : 0 < missing) (hstream : missing ≤ stream.length) :
    receiveRest arrived fuel stream missing buff =
      pure (some (buff ++ stream.take missing), stream.drop missing) := by
  induction fuel generalizing stream missing buff with
  | zero => omega
  | succ fuel ih =>
    have hne : stream ≠ [] := List.ne_nil_of_length_pos (by omega)
    have hpos : 0 < (receive arrived stream missing).length := receive_length_pos hmissing hne
    have hle := receive_length_le arrived stream missing
    have hlength := unread_length arrived stream missing
    rw [receiveRest, if_neg (by omega)]
    split_ifs with hall
    · rw [ih (by omega) (by omega) (by omega), List.append_assoc, receive_append_take, unread_drop]
    · rw [not_not] at hall
      rw [receive_eq_take, unread_eq_drop, hall]

/-- A body is received if the stream has it, however it is cut. -/
theorem receiveBody_eq {fuel length : ℕ} {stream : Bytes} (hfuel : length < fuel)
    (hstream : length ≤ stream.length) :
    receiveBody arrived fuel stream length =
      pure (some (stream.take length), stream.drop length) := by
  have hle := receive_length_le arrived stream length
  have hlength := unread_length arrived stream length
  rw [receiveBody]
  split_ifs with hall
  · rw [receiveRest_eq (by omega) (by omega) (by omega), receive_append_take, unread_drop]
  · rw [not_not] at hall
    rw [receive_eq_take, unread_eq_drop, hall]

/-- Nothing is handed over while a body is received. -/
theorem log_receiveRest (fuel missing : ℕ) (stream buff : Bytes) :
    (receiveRest arrived fuel stream missing buff).log = [] := by
  induction fuel generalizing stream missing buff with
  | zero => rfl
  | succ fuel ih =>
    rw [receiveRest]
    split_ifs
    · rfl
    · exact ih _ _ _
    · rfl

/-- A received body is as long as announced, and no longer unread. -/
theorem result_receiveRest {fuel missing : ℕ} {stream stream' buff body : Bytes}
    (h : (receiveRest arrived fuel stream missing buff).result = .ok (some body, stream')) :
    body.length = buff.length + missing ∧ missing + stream'.length = stream.length := by
  induction fuel generalizing stream missing buff with
  | zero => cases h
  | succ fuel ih =>
    have hle := receive_length_le arrived stream missing
    have hlength := unread_length arrived stream missing
    rw [receiveRest] at h
    split_ifs at h with hnone hall
    · cases h
    · obtain ⟨hbody, hstream⟩ := ih h
      rw [List.length_append] at hbody
      omega
    · cases h
      rw [List.length_append]
      omega

/-- Nothing is handed over while a body is received. -/
theorem log_receiveBody (fuel length : ℕ) (stream : Bytes) :
    (receiveBody arrived fuel stream length).log = [] := by
  rw [receiveBody]
  split_ifs
  · exact log_receiveRest _ _ _ _
  · rfl

/-- A received body is as long as announced, and no longer unread. -/
theorem result_receiveBody {fuel length : ℕ} {stream stream' body : Bytes}
    (h : (receiveBody arrived fuel stream length).result = .ok (some body, stream')) :
    body.length = length ∧ length + stream'.length = stream.length := by
  have hle := receive_length_le arrived stream length
  have hlength := unread_length arrived stream length
  rw [receiveBody] at h
  split_ifs at h with hall
  · obtain ⟨hbody, hstream⟩ := result_receiveRest h
    omega
  · cases h
    omega

/-! ### Streams of messages -/

/-- The bytes that bodies take of a stream. -/
def framedLength (bodies : List Bytes) : ℕ := (bodies.map fun b => 8 + b.length).sum

/-- The bodies that are handed over, if all are complete, fit in the stream. -/
theorem framedLength_le {fuel : ℕ} {stream : Bytes} {bodies : List Bytes}
    (h : (receiveLoop arrived fuel stream).log = bodies.map .body) :
    framedLength bodies ≤ stream.length := by
  have hnil : ∀ {bodies : List Bytes} {n : ℕ}, [] = bodies.map Handed.body →
      framedLength bodies ≤ n := by
    intro bodies n hbodies
    rw [List.map_eq_nil_iff.mp hbodies.symm]
    exact Nat.zero_le _
  induction fuel generalizing stream bodies with
  | zero => exact hnil h
  | succ fuel ih =>
    have hlength := unread_length arrived stream 8
    rw [receiveLoop] at h
    dsimp only at h
    split_ifs at h with hnone hshort hsignature
    · exact hnil h
    · exact (ih h).trans (by omega)
    · exact (ih h).trans (by omega)
    · exact hnil h
    · cases hresult : (receiveBody arrived fuel (unread arrived stream 8)
          (ofBytes ((receive arrived stream 8).drop 4))).result with
      | error e =>
        rw [Traced.log_bind_of_error hresult, log_receiveBody] at h
        exact hnil h
      | ok out =>
        obtain ⟨body, stream'⟩ := out
        rw [Traced.log_bind_of_ok hresult, log_receiveBody, Traced.log_bind_of_ok rfl,
          Traced.log_tell, List.nil_append, List.singleton_append] at h
        cases bodies with
        | nil => cases h
        | cons b bodies =>
          obtain ⟨hbody, hrest⟩ := List.cons.inj h
          cases body with
          | none => cases hbody
          | some body =>
            cases hbody
            obtain ⟨hbodyLength, hstream⟩ := result_receiveBody hresult
            have hle := ih hrest
            simp only [framedLength, List.map_cons, List.sum_cons] at hle ⊢
            omega

/-- A buffer is the frame of a body: the signature, the length of the body, and the body. -/
structure Frame (frame body : Bytes) : Prop where
  eq : frame = toBytes 4 signature ++ (toBytes 4 body.length ++ body)
  length : body.length < 2 ^ 32

/-- A header that arrives whole announces a length, whatever follows it. -/
theorem receiveLoop_announced {fuel length : ℕ} {rest : Bytes} (hlength : length < 2 ^ 32)
    (harrived : 8 ≤ arrived (toBytes 4 signature ++ (toBytes 4 length ++ rest)).length) :
    receiveLoop arrived (fuel + 1) (toBytes 4 signature ++ (toBytes 4 length ++ rest)) =
      if 2 ^ 31 ≤ length then Traced.fault .negativeLength
      else (do
        let (received, stream) ← receiveBody arrived fuel rest length
        Traced.tell (.ofBody length received)
        receiveLoop arrived fuel stream) := by
  rw [← List.append_assoc] at harrived ⊢
  have hheader : (receive arrived (toBytes 4 signature ++ toBytes 4 length ++ rest) 8).length =
      8 := by
    apply receive_length_of_arrived harrived
    rw [List.length_append, List.length_append, toBytes_length, toBytes_length]
    omega
  have hreceive : receive arrived (toBytes 4 signature ++ toBytes 4 length ++ rest) 8 =
      toBytes 4 signature ++ toBytes 4 length := by
    rw [receive_eq_take, hheader]
    exact List.take_left' (by simp)
  have hunread : unread arrived (toBytes 4 signature ++ toBytes 4 length ++ rest) 8 = rest := by
    rw [unread_eq_drop, hheader]
    exact List.drop_left' (by simp)
  have hsignature : ofBytes ((toBytes 4 signature ++ toBytes 4 length).take 4) = signature := by
    rw [List.take_left' (by simp), ofBytes_toBytes (by decide)]
  have hannounced : ofBytes ((toBytes 4 signature ++ toBytes 4 length).drop 4) = length := by
    rw [List.drop_left' (by simp), ofBytes_toBytes (by omega)]
  rw [receiveLoop]
  dsimp only
  rw [hheader, hreceive, hunread, hsignature, hannounced, if_neg (by omega), if_neg (by omega),
    if_neg (by simp)]

/-- A header that arrives whole announces the body. -/
theorem receiveLoop_header {fuel : ℕ} {frame body stream : Bytes} (h : Frame frame body)
    (harrived : 8 ≤ arrived (frame ++ stream).length) :
    receiveLoop arrived (fuel + 1) (frame ++ stream) =
      if 2 ^ 31 ≤ body.length then Traced.fault .negativeLength
      else (do
        let (received, stream) ← receiveBody arrived fuel (body ++ stream) body.length
        Traced.tell (.ofBody body.length received)
        receiveLoop arrived fuel stream) := by
  have hframe : frame ++ stream =
      toBytes 4 signature ++ (toBytes 4 body.length ++ (body ++ stream)) := by
    rw [h.eq, List.append_assoc, List.append_assoc]
  rw [hframe] at harrived ⊢
  exact receiveLoop_announced h.length harrived

/-- A frame whose header arrives whole hands its body over, and leaves what follows it. -/
theorem receiveLoop_frame {fuel : ℕ} {frame body stream : Bytes} (h : Frame frame body)
    (hlong : body.length < 2 ^ 31) (hfuel : body.length < fuel)
    (harrived : 8 ≤ arrived (frame ++ stream).length) :
    receiveLoop arrived (fuel + 1) (frame ++ stream) =
      Traced.tell (.body body) >>= fun _ => receiveLoop arrived fuel stream := by
  rw [receiveLoop_header h harrived, if_neg (by omega), receiveBody_eq hfuel (by simp),
    Traced.pure_bind, List.take_left, List.drop_left]
  rfl

/-- A short header is dropped. -/
theorem receiveLoop_short {fuel : ℕ} {stream : Bytes} (hstream : stream ≠ [])
    (harrived : arrived stream.length < 8) :
    receiveLoop arrived (fuel + 1) stream = receiveLoop arrived fuel (unread arrived stream 8) := by
  have hpos : 0 < (receive arrived stream 8).length := receive_length_pos (by decide) hstream
  rw [receiveLoop]
  dsimp only
  rw [if_neg (by omega), if_pos (receive_length_lt harrived (by decide))]

/-- Nothing is received behind the end of the stream. -/
theorem receiveLoop_nil (fuel : ℕ) : receiveLoop arrived (fuel + 1) [] = pure () := by
  simp [receiveLoop, receive]

/-- Sizes of frames, and headers that arrive whole: with so much still unread when the header
of a frame is received, at least its eight bytes have arrived. -/
def ArriveWhole (arrived : ℕ → ℕ) (frames : List Bytes) : Prop :=
  (∀ f ∈ frames, 8 ≤ f.length ∧ f.length < 2 ^ 31 + 8) ∧
    ∀ f rest, f :: rest <:+ frames → 8 ≤ arrived (f :: rest).flatten.length

/-- What holds of a list of frames holds of its tail. -/
theorem ArriveWhole.tail {f : Bytes} {frames : List Bytes} (h : ArriveWhole arrived (f :: frames)) :
    ArriveWhole arrived frames :=
  ⟨fun g hg => h.1 g (List.mem_cons_of_mem _ hg),
    fun g rest hsuffix => h.2 g rest (hsuffix.trans (List.suffix_cons _ _))⟩

/-- A buffer that is sent is a frame, unless it is too short for one. -/
def Framed (f : Bytes) : Prop := f.length < 8 ∨ Frame f (f.drop 8)

/-- Frames whose headers arrive whole hand all their bodies over. -/
theorem receiveLoop_frames {frames : List Bytes} (h : ∀ f ∈ frames, Framed f)
    (harrive : ArriveWhole arrived frames) {fuel : ℕ} (hfuel : frames.flatten.length < fuel) :
    (receiveLoop arrived fuel frames.flatten).log = frames.map (fun f => .body (f.drop 8)) ∧
      (receiveLoop arrived fuel frames.flatten).result = .ok () := by
  induction frames generalizing fuel with
  | nil =>
    obtain ⟨fuel, rfl⟩ := Nat.exists_eq_add_one_of_ne_zero (show fuel ≠ 0 by omega)
    rw [List.flatten_nil, receiveLoop_nil]
    exact ⟨rfl, rfl⟩
  | cons f frames ih =>
    obtain ⟨fuel, rfl⟩ := Nat.exists_eq_add_one_of_ne_zero (show fuel ≠ 0 by omega)
    obtain ⟨hlength, hlong⟩ := harrive.1 f List.mem_cons_self
    rw [List.flatten_cons, List.length_append] at hfuel
    obtain ⟨hlog, hresult⟩ := ih (fun g hg => h g (List.mem_cons_of_mem _ hg)) harrive.tail
      (show frames.flatten.length < fuel by omega)
    have harrived := harrive.2 f frames List.suffix_rfl
    rw [List.flatten_cons] at harrived ⊢
    have hframe := (h f List.mem_cons_self).resolve_left (by omega)
    have hbody := List.length_drop (i := 8) (l := f)
    rw [receiveLoop_frame hframe (by omega) (by omega) harrived, Traced.log_bind_of_ok rfl,
      Traced.result_bind_of_ok rfl, hlog, hresult]
    exact ⟨rfl, rfl⟩

/-- The bodies of buffers take as much of a stream as the buffers, or more if one is too short. -/
theorem flatten_length_le (frames : List Bytes) :
    frames.flatten.length ≤ framedLength (frames.map fun f => f.drop 8) ∧
      (framedLength (frames.map fun f => f.drop 8) ≤ frames.flatten.length →
        ∀ f ∈ frames, 8 ≤ f.length) := by
  induction frames with
  | nil => simp [framedLength]
  | cons f frames ih =>
    obtain ⟨hle, hall⟩ := ih
    simp only [framedLength, List.map_cons, List.sum_cons, List.flatten_cons, List.length_append,
      List.length_drop, List.forall_mem_cons] at hle hall ⊢
    exact ⟨by omega, fun h => ⟨by omega, hall (by omega)⟩⟩

/-- If all bodies are handed over then the headers have arrived whole. -/
theorem arriveWhole_of_receiveLoop {frames : List Bytes} (h : ∀ f ∈ frames, Framed f) {fuel : ℕ}
    (hfuel : frames.flatten.length < fuel)
    (hlog : (receiveLoop arrived fuel frames.flatten).log =
      frames.map (fun f => .body (f.drop 8))) : ArriveWhole arrived frames := by
  induction frames generalizing fuel with
  | nil => exact ⟨by simp, by simp⟩
  | cons f frames ih =>
    obtain ⟨fuel, rfl⟩ := Nat.exists_eq_add_one_of_ne_zero (show fuel ≠ 0 by omega)
    have hmap : (f :: frames).map (fun f => Handed.body (f.drop 8)) =
        ((f :: frames).map fun f => f.drop 8).map .body := by simp
    obtain ⟨hge, hlengths⟩ := flatten_length_le (f :: frames)
    have hlength := hlengths (framedLength_le (hlog.trans hmap)) f List.mem_cons_self
    have hstream : (f :: frames).flatten ≠ [] := by
      apply List.ne_nil_of_length_pos
      rw [List.flatten_cons, List.length_append]
      omega
    have harrived : 8 ≤ arrived (f :: frames).flatten.length := by
      by_contra hnot
      have hpos : 0 < (receive arrived (f :: frames).flatten 8).length :=
        receive_length_pos (by decide) hstream
      have hunread := unread_length arrived (f :: frames).flatten 8
      rw [receiveLoop_short hstream (by omega), hmap] at hlog
      have hle := framedLength_le hlog
      omega
    have hframe := (h f List.mem_cons_self).resolve_left (by omega)
    have hbody := List.length_drop (i := 8) (l := f)
    have hlong : (f.drop 8).length < 2 ^ 31 := by
      by_contra hnot
      rw [List.flatten_cons] at hlog harrived
      rw [receiveLoop_header hframe harrived, if_pos (by omega)] at hlog
      cases hlog
    have hrest : ArriveWhole arrived frames := by
      rw [List.flatten_cons] at hlog harrived
      rw [List.flatten_cons, List.length_append] at hfuel
      rw [receiveLoop_frame hframe hlong (by omega) harrived, Traced.log_bind_of_ok rfl] at hlog
      exact ih (fun g hg => h g (List.mem_cons_of_mem _ hg)) (show _ < fuel by omega)
        (List.cons.inj hlog).2
    refine ⟨?_, ?_⟩
    · rw [List.forall_mem_cons]
      exact ⟨by omega, hrest.1⟩
    · intro g rest hsuffix
      rcases List.suffix_cons_iff.mp hsuffix with heq | hsuffix
      · rw [heq]
        exact harrived
      · exact hrest.2 g rest hsuffix

/-- A loop that waits for the rest of a body ends with the stream. -/
theorem receiveRest_ends {fuel : ℕ} {stream : Bytes} (missing : ℕ) (buff : Bytes)
    (hfuel : stream.length < fuel) :
    ∃ body stream', (receiveRest arrived fuel stream missing buff).result = .ok (body, stream') ∧
      stream'.length ≤ stream.length := by
  induction fuel generalizing stream missing buff with
  | zero => omega
  | succ fuel ih =>
    have hlength := unread_length arrived stream missing
    rw [receiveRest]
    split_ifs
    · exact ⟨_, _, rfl, by omega⟩
    · obtain ⟨body, stream', hresult, hle⟩ := ih (missing - (receive arrived stream missing).length)
        (buff ++ receive arrived stream missing)
        (show (unread arrived stream missing).length < fuel by omega)
      exact ⟨body, stream', hresult, by omega⟩
    · exact ⟨_, _, rfl, by omega⟩

/-- A body is received or the stream has ended. -/
theorem receiveBody_ends {fuel : ℕ} {stream : Bytes} (length : ℕ) (hfuel : stream.length < fuel) :
    ∃ body stream', (receiveBody arrived fuel stream length).result = .ok (body, stream') ∧
      stream'.length ≤ stream.length := by
  have hlength := unread_length arrived stream length
  rw [receiveBody]
  split_ifs
  · obtain ⟨body, stream', hresult, hle⟩ := receiveRest_ends
      (length - (receive arrived stream length).length) (receive arrived stream length)
      (show (unread arrived stream length).length < fuel by omega)
    exact ⟨body, stream', hresult, by omega⟩
  · exact ⟨_, _, rfl, by omega⟩

/-- The receive loop ends with the stream, whatever it is. -/
theorem receiveLoop_ends {fuel : ℕ} {stream : Bytes} (hfuel : stream.length < fuel) :
    (receiveLoop arrived fuel stream).result ≠ .error .outOfFuel := by
  induction fuel generalizing stream with
  | zero => omega
  | succ fuel ih =>
    have hlength := unread_length arrived stream 8
    rw [receiveLoop]
    dsimp only
    split_ifs with hnone
    · exact fun h => by cases h
    · exact ih (by omega)
    · exact ih (by omega)
    · exact fun h => by cases h
    · obtain ⟨body, stream', hresult, hle⟩ := receiveBody_ends
        (ofBytes ((receive arrived stream 8).drop 4))
        (show (unread arrived stream 8).length < fuel by omega)
      rw [Traced.result_bind_of_ok hresult, Traced.result_bind_of_ok rfl]
      exact ih (show stream'.length < fuel by omega)

end

/-! ### Serialised messages -/

/-- What `serialize()` leaves behind is framed: the length field is the size of the buffer
without the first eight bytes, unless it is so large that the size wraps around. -/
theorem NymphMessage.framed_of_serialize {m s : NymphMessage} {freshId : UInt64}
    {heap : ℕ → UInt8} (h : m.serialize freshId heap = some s) : Framed s.frame := by
  obtain ⟨payload, -, rfl⟩ := Option.map_eq_some_iff.mp h
  let w := (m.assignId freshId).written payload
  have hw : 26 ≤ w.length := by
    rw [written_length]
    omega
  have hlt := m.messageLength.toNat_lt
  have hsize : (m.messageLength + 8).toNat = (m.messageLength.toNat + 8) % 2 ^ 32 :=
    UInt32.toNat_add _ _
  have hbuffer : ∀ f : Bytes, f = allocated heap (m.messageLength + 8).toNat w → Framed f := by
    rintro f rfl
    have hlength := allocated_length heap (m.messageLength + 8).toNat w
    by_cases hshort : (m.messageLength + 8).toNat < 8
    · exact .inl (by rw [hlength]; exact hshort)
    · have hheader : (allocated heap (m.messageLength + 8).toNat w).take 8 =
          toBytes 4 signature ++ toBytes 4 m.messageLength.toNat := by
        rw [allocated, List.take_append_of_le_length (by rw [List.length_take]; omega),
          List.take_take, Nat.min_eq_left (by omega)]
        change (written _ _).take 8 = _
        rw [written, ← List.append_assoc]
        exact List.take_left' (by simp)
      have hdrop : ((allocated heap (m.messageLength + 8).toNat w).drop 8).length =
          m.messageLength.toNat := by
        rw [List.length_drop, hlength]
        omega
      refine .inr ⟨?_, by omega⟩
      rw [hdrop, ← List.append_assoc, ← hheader, List.take_append_drop]
  exact hbuffer _ rfl

/-- Every message whose buffer the stream is made of was serialised. -/
def Serialized (sent : List NymphMessage) : Prop :=
  ∀ s ∈ sent, ∃ (m : NymphMessage) (freshId : UInt64) (heap : ℕ → UInt8),
    m.serialize freshId heap = some s

/-- The bytes of messages sent one after the other. -/
def sentBytes (sent : List NymphMessage) : Bytes := (sent.map NymphMessage.frame).flatten

/-- What a receive loop hands over are the bodies of the messages, in order and each once. -/
def HandsOver (loop : ℕ → Bytes → Receive Unit) (fuel : ℕ) (sent : List NymphMessage) : Prop :=
  (loop fuel (sentBytes sent)).log = sent.map fun s => .body s.body

instance (loop : ℕ → Bytes → Receive Unit) (fuel : ℕ) (sent : List NymphMessage) :
    Decidable (HandsOver loop fuel sent) :=
  inferInstanceAs (Decidable (_ = _))

/-- The receive loops hand over exactly the bodies that were sent if and only if each buffer has
the size of a header and of a body below 2^31 bytes, and each header arrives whole. -/
theorem handsOver_iff (arrived : ℕ → ℕ) {sent : List NymphMessage} (h : Serialized sent)
    {fuel : ℕ} (hfuel : (sentBytes sent).length < fuel) :
    (HandsOver (NymphSession.receive arrived) fuel sent ↔
      ArriveWhole arrived (sent.map NymphMessage.frame)) ∧
    (HandsOver (NymphSocketListener.receive arrived) fuel sent ↔
      ArriveWhole arrived (sent.map NymphMessage.frame)) := by
  have hframed : ∀ f ∈ sent.map NymphMessage.frame, Framed f := by
    intro f hf
    obtain ⟨s, hs, rfl⟩ := List.mem_map.mp hf
    obtain ⟨m, freshId, heap, hserialize⟩ := h s hs
    exact NymphMessage.framed_of_serialize hserialize
  have hiff : HandsOver (receiveLoop arrived) fuel sent ↔
      ArriveWhole arrived (sent.map NymphMessage.frame) := by
    have hmap : (sent.map fun s => Handed.body s.body) =
        (sent.map NymphMessage.frame).map fun f => .body (f.drop 8) := by
      rw [List.map_map]
      rfl
    rw [HandsOver, hmap]
    exact ⟨arriveWhole_of_receiveLoop hframed hfuel,
      fun harrive => (receiveLoop_frames hframed harrive hfuel).1⟩
  exact ⟨hiff, hiff⟩

/-- A regular message without parameters, sent from fresh memory. -/
def sentEmpty : Option NymphMessage :=
  (NymphMessage.ofMethodId ⟨0, 0⟩ 0).serialize 1 fun _ => 0

/-- A message for another method. -/
def sentNext : Option NymphMessage :=
  (NymphMessage.ofMethodId ⟨0, 0⟩ 5).serialize 2 fun _ => 0

/-- Both messages are handed over when they arrive in pieces of eight bytes. -/
theorem handsOver_pieces : ∃ s s', sentEmpty = some s ∧ sentNext = some s' ∧
    HandsOver (NymphSession.receive fun _ => 8) 53 [s, s'] ∧
    HandsOver (NymphSocketListener.receive fun _ => 8) 53 [s, s'] := by
  obtain ⟨s, hs, hlength⟩ : ∃ s, sentEmpty = some s ∧ s.frame.length = 26 :=
    ⟨_, rfl, by decide +kernel⟩
  obtain ⟨s', hs', hlength'⟩ : ∃ s', sentNext = some s' ∧ s'.frame.length = 26 :=
    ⟨_, rfl, by decide +kernel⟩
  have hserialized : Serialized [s, s'] := by
    rw [Serialized, List.forall_mem_cons, List.forall_mem_singleton]
    exact ⟨⟨_, _, _, hs⟩, _, _, _, hs'⟩
  have harrive : ArriveWhole (fun _ => 8) ([s, s'].map NymphMessage.frame) :=
    ⟨by simp [hlength, hlength'], fun _ _ _ => le_rfl⟩
  have hfuel : (sentBytes [s, s']).length < 53 := by simp [sentBytes, hlength, hlength']
  have hiff := handsOver_iff (fun _ => 8) hserialized hfuel
  exact ⟨s, s', hs, hs', hiff.1.mpr harrive, hiff.2.mpr harrive⟩

/-- The message is lost when three bytes of its header arrive first. -/
theorem handsOver_empty_fails : ∃ s, sentEmpty = some s ∧
    ¬HandsOver (NymphSession.receive fun _ => 3) 27 [s] ∧
    ¬HandsOver (NymphSocketListener.receive fun _ => 3) 27 [s] :=
  ⟨_, rfl, by decide +kernel, by decide +kernel⟩

end NymphRpc
