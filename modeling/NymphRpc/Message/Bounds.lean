import NymphRpc.Message.DecodeAccepts
import NymphRpc.Message.DecodeFuel
import NymphRpc.Types.ReadsParse

/-!
# When a decode stays inside its buffer

The constructor is told the length of its buffer and `parseValue` is not, so whether a decode
stays inside is a matter of what the buffer contains. The decoder's own reading of a message,
with every byte and every character inside the buffer, is a grammar like the one for values;
its flag says whether the decoder calls the message corrupt. A message that is read either follows
the specification or should be called corrupt, and the decoder is right about a buffer exactly if
it is read and one of the two is the case.
-/

namespace NymphRpc

open LittleEndian Buffer NymphType Traced

/-- A header of 17 bytes with these flags. -/
structure ReadsHeader (binmsg : Bytes) (flags : UInt32) : Prop where
  length : 17 ≤ binmsg.length
  version : Buffer.get? binmsg 0 = some 0x00
  flags : ∃ bs, Buffer.slice? binmsg 5 4 = some bs ∧ flags = .ofNat (ofBytes bs)

/-- Parameters from a position on; the flag tells those that run to the end of the buffer. -/
inductive ReadsParameters (binmsg : Bytes) : ℕ → Bool → Prop
  | past {p} (h : Buffer.get? binmsg (cursor p) = none) : ReadsParameters binmsg p false
  | done {p} (h : Buffer.get? binmsg (cursor p) = some NymphInternalTypes.none.toByte) :
      ReadsParameters binmsg p false
  | last {p q tc ok} (htc : Buffer.get? binmsg (cursor p) = some tc)
      (hne : tc ≠ NymphInternalTypes.none.toByte) (h : Reads binmsg p q ok)
      (hq : Buffer.get? binmsg (cursor q) = none) : ReadsParameters binmsg p true
  | more {p q tc tc' ok c} (htc : Buffer.get? binmsg (cursor p) = some tc)
      (hne : tc ≠ NymphInternalTypes.none.toByte) (h : Reads binmsg p q ok)
      (hq : Buffer.get? binmsg (cursor q) = some tc') (hs : ReadsParameters binmsg q c) :
      ReadsParameters binmsg p c

/-- A message that is read inside the buffer; the flag tells those the decoder calls corrupt. -/
inductive ReadsMessage (binmsg : Bytes) : Bool → Prop
  | version {v} (hlen : 5 ≤ binmsg.length) (hv : Buffer.get? binmsg 0 = some v) (hne : v ≠ 0x00) :
      ReadsMessage binmsg true
  | reply {flags q ok} (h : ReadsHeader binmsg flags) (hr : flags &&& flagReply ≠ 0)
      (hlen : 25 ≤ binmsg.length) (hval : Reads binmsg 25 q ok) :
      ReadsMessage binmsg
        (decide (Buffer.get? binmsg (cursor q) ≠ some NymphInternalTypes.none.toByte))
  | exception {flags q e ok ok'} (h : ReadsHeader binmsg flags) (hr : flags &&& flagReply = 0)
      (he : flags &&& flagException ≠ 0) (hlen : 25 ≤ binmsg.length) (hid : Reads binmsg 17 q ok)
      (htext : Reads binmsg q e ok') : ReadsMessage binmsg false
  | callback {flags q ok c} (h : ReadsHeader binmsg flags) (hr : flags &&& flagReply = 0)
      (he : flags &&& flagException = 0) (hc : flags &&& flagCallback ≠ 0)
      (hname : Reads binmsg 17 q ok) (hs : ReadsParameters binmsg q c) : ReadsMessage binmsg c
  | empty {flags} (h : ReadsHeader binmsg flags) (hr : flags &&& flagReply = 0)
      (he : flags &&& flagException = 0) (hc : flags &&& flagCallback = 0)
      (hlen : binmsg.length ≤ 17) : ReadsMessage binmsg true
  | regular {flags c} (h : ReadsHeader binmsg flags) (hr : flags &&& flagReply = 0)
      (he : flags &&& flagException = 0) (hc : flags &&& flagCallback = 0)
      (hlen : 17 < binmsg.length) (hs : ReadsParameters binmsg 17 c) : ReadsMessage binmsg c

/-- A block inside the buffer can be copied. -/
theorem exists_slice? {binmsg : Bytes} (p n : ℕ) (h : p + n ≤ binmsg.length) :
    ∃ bs, Buffer.slice? binmsg p n = some bs :=
  Option.isSome_iff_exists.mp (slice?_isSome (by omega) (by omega))

namespace NymphMessage

section

variable {u : ℤ → Uninit} {um : MessageUninit} {binmsg : Bytes}

/-- A cursor is past the end exactly if there is no byte at it. -/
theorem pastEnd_eq_isNone (index : ℤ) :
    pastEnd binmsg index = (Buffer.get? binmsg index).isNone := by
  rw [Bool.eq_iff_iff, ← Option.not_isSome, Bool.not_eq_true', ← Bool.not_eq_true,
    Buffer.get?_isSome_iff]
  simp only [pastEnd, decide_eq_true_eq]
  omega

/-- The parameter loop reads parameters. -/
theorem readsInside_parseParameters (fuel p : ℕ) (m : NymphMessage) :
    ReadsInside binmsg (parseParameters u fuel binmsg (cursor p) m)
      fun m' => ∃ c, ReadsParameters binmsg p c ∧ m'.corrupt = (m.corrupt || c) := by
  induction fuel generalizing p m with
  | zero => exact .fault trivial
  | succ fuel ih =>
    rw [parseParameters, pastEnd_eq_isNone]
    split_ifs with hend
    · exact .pure ⟨false, .past (by simpa using hend), by simp⟩
    · apply ensures_readByte_bind (fun _ => trivial)
      intro tc htc
      split_ifs with hnone
      · exact .pure ⟨false, .done (by rw [htc, hnone]), by simp⟩
      · rw [int32_cursor_succ]
        apply ((parse_reads u binmsg fuel).value _ tc p htc).bind
        rintro val ⟨q, hindex, hq⟩
        refine Ensures.tell_bind fun _ => ⟨trivial, ?_⟩
        rw [hindex, pastEnd_eq_isNone]
        split_ifs with hend'
        · exact .pure ⟨true, .last htc hnone hq (by simpa using hend'), by simp [setCorrupt]⟩
        · obtain ⟨tc', htc'⟩ : ∃ b, Buffer.get? binmsg (cursor q) = some b := by
            simpa [Option.ne_none_iff_exists'] using hend'
          refine (ih q _).mono ?_ (fun _ h => h)
          rintro m' ⟨c, hc, hcorrupt⟩
          exact ⟨c, .more htc hnone hq htc' hc, hcorrupt⟩

/-- Parameters that are read are taken by the parameter loop. -/
theorem parseParameters_runs {p : ℕ} {c : Bool} (h : ReadsParameters binmsg p c) :
    ∃ fuel₀, ∀ fuel, fuel₀ ≤ fuel → ∀ m, Runs binmsg (parseParameters u fuel binmsg (cursor p) m)
      fun m' => m'.corrupt = (m.corrupt || c) := by
  induction h with
  | past h =>
    refine ⟨1, fun fuel hfuel m => ?_⟩
    obtain ⟨fuel, rfl⟩ : ∃ f, fuel = f + 1 := ⟨fuel - 1, by omega⟩
    rw [parseParameters, pastEnd_eq_isNone, h, Option.isNone_none, if_pos rfl]
    exact .pure (by simp)
  | done h =>
    refine ⟨1, fun fuel hfuel m => ?_⟩
    obtain ⟨fuel, rfl⟩ : ∃ f, fuel = f + 1 := ⟨fuel - 1, by omega⟩
    rw [parseParameters, pastEnd_eq_isNone, h, Option.isNone_some, if_neg (by simp)]
    apply returns_readByte_bind h
    rw [if_pos rfl]
    exact .pure (by simp)
  | last htc hne h hq =>
    obtain ⟨fuel₁, hvalue⟩ := h.parsesTo (u := u)
    refine ⟨fuel₁ + 1, fun fuel hfuel m => ?_⟩
    obtain ⟨fuel, rfl⟩ : ∃ f, fuel = f + 1 := ⟨fuel - 1, by omega⟩
    rw [parseParameters, pastEnd_eq_isNone, htc, Option.isNone_some, if_neg (by simp)]
    apply returns_readByte_bind htc
    rw [if_neg hne, int32_cursor_succ]
    apply (hvalue fuel (by omega) _ _ (readable_fresh _) htc).bind
    rintro val ⟨-, hindex, -⟩
    refine .tell_bind trivial ?_
    rw [hindex, pastEnd_eq_isNone, hq, Option.isNone_none, if_pos rfl]
    exact .pure (by simp [setCorrupt])
  | more htc hne h hq _ ih =>
    obtain ⟨fuel₁, hvalue⟩ := h.parsesTo (u := u)
    obtain ⟨fuel₂, hrest⟩ := ih
    refine ⟨fuel₁ + fuel₂ + 1, fun fuel hfuel m => ?_⟩
    obtain ⟨fuel, rfl⟩ : ∃ f, fuel = f + 1 := ⟨fuel - 1, by omega⟩
    rw [parseParameters, pastEnd_eq_isNone, htc, Option.isNone_some, if_neg (by simp)]
    apply returns_readByte_bind htc
    rw [if_neg hne, int32_cursor_succ]
    apply (hvalue fuel (by omega) _ _ (readable_fresh _) htc).bind
    rintro val ⟨-, hindex, -⟩
    refine .tell_bind trivial ?_
    rw [hindex, pastEnd_eq_isNone, hq, Option.isNone_some, if_neg (by simp)]
    exact hrest fuel (by omega) _

/-- The cursors the header leads to. -/
theorem cursor_header : cursor 17 = 17 ∧ cursor 18 = 18 ∧ cursor 25 = 25 ∧ cursor 26 = 26 :=
  ⟨cursor_eq (by omega), cursor_eq (by omega), cursor_eq (by omega), cursor_eq (by omega)⟩

/-- The reply branch reads a reply. -/
theorem readsInside_decodeReply {flags : UInt32} (h : ReadsHeader binmsg flags)
    (hr : flags &&& flagReply ≠ 0) (fuel : ℕ) (m : NymphMessage) (hm : m.corrupt = false) :
    ReadsInside binmsg (decodeReply u fuel binmsg m) fun m' => ReadsMessage binmsg m'.corrupt := by
  obtain ⟨-, -, h25, h26⟩ := cursor_header
  refine ensures_memcpy_bind (fun _ => trivial) fun responseId hresponse =>
    ensures_readByte_bind (fun _ => trivial) fun tc htc => ?_
  have hlen := bounds_of_slice? hresponse (by omega)
  rw [← h26]
  rw [← h25] at htc
  apply ((parse_reads u binmsg fuel).value _ tc 25 htc).bind
  rintro val ⟨q, hindex, hq⟩
  have hread : ∀ m' : NymphMessage, m'.corrupt =
      decide (Buffer.get? binmsg (cursor q) ≠ some NymphInternalTypes.none.toByte) →
        ReadsMessage binmsg m'.corrupt := fun m' hm' => hm' ▸ .reply h hr (by omega) hq
  rw [hindex, pastEnd_eq_isNone]
  split_ifs with hend
  · exact .pure (hread _ (by simp [setCorrupt, Option.isNone_iff_eq_none.mp hend]))
  · apply ensures_readByte_bind (fun _ => trivial)
    intro terminator hterm
    split_ifs with hne
    · exact .pure (hread _ (by simpa [setCorrupt, hterm] using hne))
    · exact .pure (hread _ (by simpa [addReference, hterm, hm] using hne))

/-- A reply that is read is taken by the reply branch. -/
theorem decodeReply_runs {q : ℕ} {ok : Bool} (hlen : 25 ≤ binmsg.length)
    (h : Reads binmsg 25 q ok) :
    ∃ fuel₀, ∀ fuel, fuel₀ ≤ fuel → ∀ m, m.corrupt = false →
      Runs binmsg (decodeReply u fuel binmsg m) fun m' => m'.corrupt =
        decide (Buffer.get? binmsg (cursor q) ≠ some NymphInternalTypes.none.toByte) := by
  obtain ⟨-, -, h25, h26⟩ := cursor_header
  obtain ⟨fuel₀, hvalue⟩ := h.parsesTo (u := u)
  obtain ⟨tc, htc⟩ := h.typecode
  obtain ⟨id, hid⟩ : ∃ bs, Buffer.slice? binmsg 17 8 = some bs := exists_slice? 17 8 (by omega)
  refine ⟨fuel₀, fun fuel hfuel m hm => ?_⟩
  rw [h25] at htc
  unfold decodeReply
  refine returns_memcpy_bind hid (returns_readByte_bind htc ?_)
  rw [← h25] at htc
  rw [← h26]
  apply (hvalue fuel hfuel _ tc (readable_fresh _) htc).bind
  rintro val ⟨-, hindex, -⟩
  rw [hindex, pastEnd_eq_isNone]
  cases hterm : Buffer.get? binmsg (cursor q) with
  | none =>
    rw [Option.isNone_none, if_pos rfl]
    exact .pure (by simp [setCorrupt])
  | some terminator =>
    rw [Option.isNone_some, if_neg Bool.false_ne_true]
    apply returns_readByte_bind hterm
    split_ifs with hne
    · exact .pure (by simpa [setCorrupt] using hne)
    · exact .pure (by simpa [addReference, hm] using hne)

/-- The exception branch reads an exception. -/
theorem readsInside_decodeException {flags : UInt32} (h : ReadsHeader binmsg flags)
    (hr : flags &&& flagReply = 0) (he : flags &&& flagException ≠ 0) (fuel : ℕ)
    (m : NymphMessage) (hm : m.corrupt = false) :
    ReadsInside binmsg (decodeException u fuel binmsg m)
      fun m' => ReadsMessage binmsg m'.corrupt := by
  obtain ⟨h17, h18, -, -⟩ := cursor_header
  refine ensures_memcpy_bind (fun _ => trivial) fun responseId hresponse =>
    ensures_readByte_bind (fun _ => trivial) fun tc htc => ?_
  have hlen := bounds_of_slice? hresponse (by omega)
  rw [← h18]
  rw [← h17] at htc
  apply ((parse_reads u binmsg fuel).value _ tc 17 htc).bind
  rintro val ⟨q, hindex, hq⟩
  rw [hindex]
  apply ensures_readByte_bind (fun _ => trivial)
  intro tc' htc'
  rw [int32_cursor_succ]
  apply ((parse_reads u binmsg fuel).value _ tc' q htc').bind
  rintro text ⟨e, -, he'⟩
  have hread : ReadsMessage binmsg m.corrupt := hm ▸ .exception h hr he (by omega) hq he'
  unfold stringOr
  split_ifs
  · exact ensures_readString_bind (fun _ => trivial) fun _ => .pure hread
  · exact .pure hread

/-- Copying the characters of a readable object, or keeping the member. -/
theorem stringOr_of_readable {t : NymphType} (h : Readable t) (member : Bytes) :
    ∃ s, stringOr member t = pure s := by
  unfold stringOr
  split_ifs
  · exact h.readString
  · exact ⟨member, rfl⟩

/-- An exception that is read is taken by the exception branch. -/
theorem decodeException_runs {q e : ℕ} {ok ok' : Bool} (hlen : 25 ≤ binmsg.length)
    (h : Reads binmsg 17 q ok) (h' : Reads binmsg q e ok') :
    ∃ fuel₀, ∀ fuel, fuel₀ ≤ fuel → ∀ m,
      Runs binmsg (decodeException u fuel binmsg m) fun m' => m'.corrupt = m.corrupt := by
  obtain ⟨h17, h18, -, -⟩ := cursor_header
  obtain ⟨fuel₁, hvalue⟩ := h.parsesTo (u := u)
  obtain ⟨fuel₂, hvalue'⟩ := h'.parsesTo (u := u)
  obtain ⟨tc, htc⟩ := h.typecode
  obtain ⟨tc', htc'⟩ := h'.typecode
  obtain ⟨id, hid⟩ : ∃ bs, Buffer.slice? binmsg 17 8 = some bs := exists_slice? 17 8 (by omega)
  refine ⟨fuel₁ + fuel₂, fun fuel hfuel m => ?_⟩
  rw [decodeException, ← h18]
  apply returns_memcpy_bind hid
  rw [← h17]
  apply returns_readByte_bind htc
  apply (hvalue fuel (by omega) _ tc (readable_fresh _) htc).bind
  rintro val ⟨-, hindex, hreadable⟩
  rw [hindex]
  apply returns_readByte_bind htc'
  rw [int32_cursor_succ]
  apply (hvalue' fuel (by omega) _ tc' hreadable htc').bind
  rintro text ⟨-, -, hreadable'⟩
  obtain ⟨s, hs⟩ := stringOr_of_readable hreadable' m.exception.value
  rw [hs]
  exact .pure rfl

/-- The callback branch reads a name and parameters. -/
theorem readsInside_decodeCallback {flags : UInt32} (h : ReadsHeader binmsg flags)
    (hr : flags &&& flagReply = 0) (he : flags &&& flagException = 0)
    (hc : flags &&& flagCallback ≠ 0) (fuel : ℕ) (m : NymphMessage) (hm : m.corrupt = false) :
    ReadsInside binmsg (decodeCallback u fuel binmsg m)
      fun m' => ReadsMessage binmsg m'.corrupt := by
  obtain ⟨h17, h18, -, -⟩ := cursor_header
  apply ensures_readByte_bind (fun _ => trivial)
  intro tc htc
  rw [← h18]
  rw [← h17] at htc
  apply ((parse_reads u binmsg fuel).value _ tc 17 htc).bind
  rintro val ⟨q, hindex, hq⟩
  rw [hindex]
  have hparams : ∀ name, ReadsInside binmsg
      (parseParameters u fuel binmsg (cursor q) { m with callbackName := name })
      fun m' => ReadsMessage binmsg m'.corrupt := by
    intro name
    refine (readsInside_parseParameters fuel q _).mono ?_ (fun _ h => h)
    rintro m' ⟨c, hs, hcorrupt⟩
    have heq : m'.corrupt = c := by simpa [hm] using hcorrupt
    exact heq ▸ .callback h hr he hc hq hs
  unfold stringOr
  split_ifs
  · exact ensures_readString_bind (fun _ => trivial) hparams
  · exact hparams _

/-- A callback that is read is taken by the callback branch. -/
theorem decodeCallback_runs {q : ℕ} {ok c : Bool} (h : Reads binmsg 17 q ok)
    (hs : ReadsParameters binmsg q c) :
    ∃ fuel₀, ∀ fuel, fuel₀ ≤ fuel → ∀ m,
      Runs binmsg (decodeCallback u fuel binmsg m) fun m' => m'.corrupt = (m.corrupt || c) := by
  obtain ⟨h17, h18, -, -⟩ := cursor_header
  obtain ⟨fuel₁, hvalue⟩ := h.parsesTo (u := u)
  obtain ⟨fuel₂, hparams⟩ := parseParameters_runs (u := u) hs
  obtain ⟨tc, htc⟩ := h.typecode
  refine ⟨fuel₁ + fuel₂, fun fuel hfuel m => ?_⟩
  rw [decodeCallback, ← h17, ← h18]
  apply returns_readByte_bind htc
  apply (hvalue fuel (by omega) _ tc (readable_fresh _) htc).bind
  rintro val ⟨-, hindex, hreadable⟩
  obtain ⟨s, hs⟩ := stringOr_of_readable hreadable m.callbackName
  rw [hs, hindex]
  exact hparams fuel (by omega) _

/-- The branch of a regular message reads parameters, if any byte follows the header. -/
theorem readsInside_decodeRegular {flags : UInt32} (h : ReadsHeader binmsg flags)
    (hr : flags &&& flagReply = 0) (he : flags &&& flagException = 0)
    (hc : flags &&& flagCallback = 0) (fuel : ℕ) (m : NymphMessage) (hm : m.corrupt = false) :
    ReadsInside binmsg (decodeRegular u fuel binmsg m)
      fun m' => ReadsMessage binmsg m'.corrupt := by
  have hlen := h.length
  rw [decodeRegular]
  split_ifs with hend
  · simp only [pastEnd, decide_eq_true_eq] at hend
    exact .pure (.empty h hr he hc (by omega))
  · simp only [pastEnd, decide_eq_true_eq] at hend
    rw [← cursor_header.1]
    refine (readsInside_parseParameters fuel 17 _).mono ?_ (fun _ h => h)
    rintro m' ⟨c, hs, hcorrupt⟩
    have heq : m'.corrupt = c := by simpa [hm] using hcorrupt
    exact heq ▸ .regular h hr he hc (by omega) hs

/-- A regular message that is read is taken by its branch. -/
theorem decodeRegular_runs {c : Bool} (hlen : 17 < binmsg.length)
    (hs : ReadsParameters binmsg 17 c) :
    ∃ fuel₀, ∀ fuel, fuel₀ ≤ fuel → ∀ m,
      Runs binmsg (decodeRegular u fuel binmsg m) fun m' => m'.corrupt = (m.corrupt || c) := by
  obtain ⟨fuel₀, hparams⟩ := parseParameters_runs (u := u) hs
  refine ⟨fuel₀, fun fuel hfuel m => ?_⟩
  have hin : pastEnd binmsg 17 = false := pastEnd_of_lt (p := 17) hlen
  rw [decodeRegular, hin, ← cursor_header.1]
  exact hparams fuel hfuel m

/-- What a decode returns, recording only strings inside the buffer, is a message it reads. -/
theorem readsInside_decode (fuel : ℕ) :
    ReadsInside binmsg (decode u um fuel binmsg) fun m => ReadsMessage binmsg m.corrupt := by
  refine ensures_readByte_bind (fun _ => trivial) fun version hversion =>
    ensures_memcpy_bind (fun _ => trivial) fun methodId hmethod => ?_
  have hlen := bounds_of_slice? hmethod (by omega)
  dsimp only
  split_ifs with hv
  · exact .pure (.version (by omega) hversion hv)
  · rw [ne_eq, not_not] at hv
    subst hv
    refine ensures_memcpy_bind (fun _ => trivial) fun flags hflags =>
      ensures_memcpy_bind (fun _ => trivial) fun messageId hid => ?_
    have hlen' := bounds_of_slice? hid (by omega)
    have hheader : ReadsHeader binmsg (.ofNat (ofBytes flags)) :=
      ⟨by omega, hversion, flags, hflags, rfl⟩
    simp only [isReply, isException, isCallback, decide_eq_true_eq, ne_eq]
    split_ifs with hr he hc
    · exact readsInside_decodeRegular hheader hr he hc fuel _ rfl
    · exact readsInside_decodeCallback hheader hr he hc fuel _ rfl
    · exact readsInside_decodeException hheader hr he fuel _ rfl
    · exact readsInside_decodeReply hheader hr fuel _ rfl

/-- Behind a header that is read the branch of its flags runs. -/
theorem decode_runs_of_header {flags : UInt32} {post : NymphMessage → Prop} {fuel : ℕ}
    (h : ReadsHeader binmsg flags)
    (hrun : ∀ m, m.flags = flags → m.corrupt = false →
      Runs binmsg (if m.isReply then decodeReply u fuel binmsg m
        else if m.isException then decodeException u fuel binmsg m
        else if m.isCallback then decodeCallback u fuel binmsg m
        else decodeRegular u fuel binmsg m) post) : Runs binmsg (decode u um fuel binmsg) post := by
  obtain ⟨hlen, hversion, bs, hflags, rfl⟩ := h
  obtain ⟨methodId, hmethod⟩ : ∃ bs, Buffer.slice? binmsg 1 4 = some bs :=
    exists_slice? 1 4 (by omega)
  obtain ⟨messageId, hid⟩ : ∃ bs, Buffer.slice? binmsg 9 8 = some bs :=
    exists_slice? 9 8 (by omega)
  refine returns_readByte_bind hversion (returns_memcpy_bind hmethod ?_)
  rw [if_neg (by simp)]
  refine returns_memcpy_bind hflags (returns_memcpy_bind hid ?_)
  exact hrun _ rfl rfl

/-- A message that is read is decoded, and called corrupt as its flag says. -/
theorem decode_runs {c : Bool} (h : ReadsMessage binmsg c) :
    ∃ fuel₀, ∀ fuel, fuel₀ ≤ fuel →
      Runs binmsg (decode u um fuel binmsg) fun m => m.corrupt = c := by
  cases h with
  | version hlen hv hne =>
    obtain ⟨methodId, hmethod⟩ : ∃ bs, Buffer.slice? binmsg 1 4 = some bs :=
      exists_slice? 1 4 (by omega)
    refine ⟨0, fun fuel _ => returns_readByte_bind hv (returns_memcpy_bind hmethod ?_)⟩
    rw [if_pos hne]
    exact .pure rfl
  | reply h hr hlen hval =>
    obtain ⟨fuel₀, hrun⟩ := decodeReply_runs (u := u) hlen hval
    refine ⟨fuel₀, fun fuel hfuel => decode_runs_of_header h fun m hflags hm => ?_⟩
    rw [if_pos (by simpa [isReply, hflags] using hr)]
    exact hrun fuel hfuel m hm
  | exception h hr he hlen hid htext =>
    obtain ⟨fuel₀, hrun⟩ := decodeException_runs (u := u) hlen hid htext
    refine ⟨fuel₀, fun fuel hfuel => decode_runs_of_header h fun m hflags hm => ?_⟩
    rw [if_neg (by simp [isReply, hflags, hr]), if_pos (by simpa [isException, hflags] using he)]
    exact hm ▸ hrun fuel hfuel m
  | callback h hr he hc hname hs =>
    obtain ⟨fuel₀, hrun⟩ := decodeCallback_runs (u := u) hname hs
    refine ⟨fuel₀, fun fuel hfuel => decode_runs_of_header h fun m hflags hm => ?_⟩
    rw [if_neg (by simp [isReply, hflags, hr]), if_neg (by simp [isException, hflags, he]),
      if_pos (by simpa [isCallback, hflags] using hc)]
    exact (hrun fuel hfuel m).mono fun m' h => by rw [h, hm, Bool.false_or]
  | empty h hr he hc hlen =>
    refine ⟨0, fun fuel _ => decode_runs_of_header h fun m hflags hm => ?_⟩
    rw [if_neg (by simp [isReply, hflags, hr]), if_neg (by simp [isException, hflags, he]),
      if_neg (by simp [isCallback, hflags, hc]), decodeRegular]
    have hend : pastEnd binmsg 17 = true := by
      simp only [pastEnd, decide_eq_true_eq]
      omega
    rw [if_pos hend]
    exact .pure rfl
  | regular h hr he hc hlen hs =>
    obtain ⟨fuel₀, hrun⟩ := decodeRegular_runs (u := u) hlen hs
    refine ⟨fuel₀, fun fuel hfuel => decode_runs_of_header h fun m hflags hm => ?_⟩
    rw [if_neg (by simp [isReply, hflags, hr]), if_neg (by simp [isException, hflags, he]),
      if_neg (by simp [isCallback, hflags, hc])]
    exact (hrun fuel hfuel m).mono fun m' h => by rw [h, hm, Bool.false_or]

end

/-- The decoder reads only inside the buffer, records only strings inside it, and returns a
message that it calls corrupt unless the buffer follows the specification. -/
structure StaysInside (u : ℤ → Uninit) (um : MessageUninit) (binmsg : Bytes) : Prop where
  reads : ∀ fuel i, (decode u um fuel binmsg).result ≠ .error (.outOfBounds i)
  strings : ∀ fuel, ∀ e ∈ (decode u um fuel binmsg).log, StringInside binmsg e
  reported : ∃ fuel m, (decode u um fuel binmsg).result = .ok m ∧
    (m.corrupt = true ∨ FollowsSpecification binmsg)

/-- A decode stays inside exactly if its buffer is read as a message, with all bytes and
characters inside, that is called corrupt or follows the specification. -/
theorem staysInside_iff_readsMessage (u : ℤ → Uninit) (um : MessageUninit) (binmsg : Bytes) :
    StaysInside u um binmsg ↔
      ∃ c, ReadsMessage binmsg c ∧ (c = true ∨ FollowsSpecification binmsg) := by
  constructor
  · rintro ⟨-, hstrings, fuel, m, hm, hreported⟩
    exact ⟨m.corrupt, (readsInside_decode fuel (hstrings fuel)).1 m hm, hreported⟩
  · rintro ⟨c, hc, hreported⟩
    have hruns : ∃ fuel₀, ∀ fuel, fuel₀ ≤ fuel →
        Runs binmsg (decode u um fuel binmsg) fun m => m.corrupt = c := decode_runs hc
    obtain ⟨fuel₀, hrun⟩ := hruns
    obtain ⟨m, hm, rfl, hlog⟩ := hrun fuel₀ le_rfl
    have hends : (decode u um fuel₀ binmsg).result ≠ .error .outOfFuel := by simp [hm]
    refine ⟨fun fuel i hfault => ?_, fun fuel e he => hlog e (mem_log_of_ends hends he),
      fuel₀, m, hm, hreported⟩
    have hfault' : (decode u um fuel binmsg).result ≠ .error .outOfFuel := by simp [hfault]
    have heq := decode_result_unique hends hfault'
    rw [hm, hfault] at heq
    cases heq

/-- The decoder reads the version of an empty buffer, and records a string of 255 characters
behind a message that ends with its length. -/
theorem staysInside_fails :
    ¬StaysInside (fun _ => ⟨0, 0⟩) ⟨0, 0⟩ [] ∧
      ¬StaysInside (fun _ => ⟨0, 0⟩) ⟨0, 0⟩ (List.replicate 17 0x00 ++ [0x10, 0x04, 0xff]) := by
  refine ⟨fun h => h.reads 0 0 rfl, fun h => ?_⟩
  have hlogged : Event.string 20 255 ∈ (decode (fun _ => ⟨0, 0⟩) ⟨0, 0⟩ 2
      (List.replicate 17 0x00 ++ [0x10, 0x04, 0xff])).log := by
    decide +kernel
  have hinside := h.strings 2 _ hlogged
  simp [StringInside] at hinside

end NymphMessage

end NymphRpc
