import NymphRpc.Types.ParseValue

/-!
# How far a parse advances

Below 2^31 bytes only a string can move the cursor back: its length is added to the cursor
with wrap-around, while every other step adds a small constant to a position inside the
buffer. So once the strings that the loops call for advance, every call of a loop does, and
two units of fuel for each byte left are enough, one for a round of a loop and one for the
call in it.

The induction is stated for any assumption on the logged calls that makes strings advance,
and concludes anything that advancing calls have; that covers both directions of the
equivalence between the two.
-/

namespace NymphRpc

open LittleEndian Buffer NymphType Traced

/-- Where a string whose typecode is at `p` leaves the cursor, by its length tag and length. -/
def stringEnd (binmsg : Bytes) (p : ℤ) : Option ℤ := do
  let tag ← Buffer.get? binmsg (p + 1)
  let t ← LengthTag.ofByte tag
  let bs ← Buffer.slice? binmsg (p + 2) t.width
  pure (int32 (p + 2 + t.width + ofBytes bs))

/-- A string typecode at the start of the call, with a length that does not move the cursor
behind it, is the only way not to advance. -/
def StringAdvances (binmsg : Bytes) : Event → Prop
  | .call p _ => Buffer.get? binmsg p = some NymphInternalTypes.string.toByte →
      ∀ e ∈ stringEnd binmsg p, p < e
  | .string _ _ => True

instance (binmsg : Bytes) : DecidablePred (StringAdvances binmsg)
  | .call p _ => inferInstanceAs (Decidable (Buffer.get? binmsg p =
      some NymphInternalTypes.string.toByte → ∀ e ∈ stringEnd binmsg p, p < e))
  | .string _ _ => inferInstanceAs (Decidable True)

/-- The call left the cursor behind the typecode it started from. -/
def CallAdvances : Event → Prop
  | .call p q => p < q
  | .string _ _ => True

/-- A rule that concludes `logs` from `assume` for calls of which the strings end where their
length says and the others advance. -/
structure LoopRule (binmsg : Bytes) (assume logs : Event → Prop) : Prop where
  string : ∀ {p q}, Buffer.get? binmsg p = some NymphInternalTypes.string.toByte →
    (q = p + 2 ∧ stringEnd binmsg p = none ∨ stringEnd binmsg p = some q) →
      assume (.call p q) → p < q ∧ logs (.call p q)
  other : ∀ {p q}, Buffer.get? binmsg p ≠ some NymphInternalTypes.string.toByte → p < q →
    assume (.call p q) → logs (.call p q)
  chars : ∀ {c l}, logs (.string c l)

/-- If the strings advance, all calls do. -/
theorem LoopRule.advances (binmsg : Bytes) :
    LoopRule binmsg (StringAdvances binmsg) CallAdvances where
  string := by
    rintro p q hp (⟨rfl, -⟩ | hq) hadv
    · have hlt : p < p + 2 := by omega
      exact ⟨hlt, hlt⟩
    · have hlt : p < q := hadv hp q hq
      exact ⟨hlt, hlt⟩
  other := fun _ hlt _ => hlt
  chars := trivial

/-- If all calls advance, the strings do. -/
theorem LoopRule.strings (binmsg : Bytes) :
    LoopRule binmsg CallAdvances (StringAdvances binmsg) where
  string := by
    intro p q _ hq hlt
    refine ⟨hlt, fun _ e he => ?_⟩
    rcases hq with ⟨-, hnone⟩ | hsome
    · rw [hnone] at he
      cases he
    · rw [hsome] at he
      cases he
      exact hlt
  other := fun hne _ _ hp => absurd hp hne
  chars := trivial

section

variable {u : ℤ → Uninit} {binmsg : Bytes} {assume logs : Event → Prop}

/-- The number of bytes from a position on. -/
def bytesLeft (binmsg : Bytes) (index : ℤ) : ℕ := (binmsg.length - index).toNat

/-- With the fuel that is needed, no fault is for lack of fuel. -/
def FuelSuffices (need fuel : ℕ) (e : Fault) : Prop := need ≤ fuel → e ≠ .outOfFuel

/-- No read outside the buffer is for lack of fuel. -/
theorem fuelSuffices_outOfBounds {need fuel : ℕ} (i : ℤ) :
    FuelSuffices need fuel (.outOfBounds i) := by
  intro _ h
  cases h

/-- Refusing a count is not for lack of fuel. -/
theorem fuelSuffices_lengthError {need fuel : ℕ} : FuelSuffices need fuel .lengthError := by
  intro _ h
  cases h

/-- Fuel that suffices for a call suffices for its caller. -/
theorem FuelSuffices.weaken {need need' fuel fuel' : ℕ} (h : need ≤ fuel → need' ≤ fuel')
    (e : Fault) (he : FuelSuffices need' fuel' e) : FuelSuffices need fuel e :=
  fun hfuel => he (h hfuel)

/-- The string case ends where its length says, or behind a tag that is none. -/
theorem ensures_parseString (hlen : binmsg.length < 2 ^ 31) (rule : LoopRule binmsg assume logs)
    (self : NymphType) {p : ℤ} {need fuel : ℕ} (hp : 0 ≤ p) :
    Ensures assume (parseString self binmsg (p + 1))
      (fun r => r.index = p + 2 ∧ stringEnd binmsg p = none ∨ stringEnd binmsg p = some r.index)
      (FuelSuffices need fuel) logs := by
  unfold parseString
  apply ensures_readByte_bind fuelSuffices_outOfBounds
  intro tag htag
  have hin := bounds_of_get? htag
  have hskip : int32 (p + 1 + 1) = p + 2 := by
    rw [int32_eq] <;> omega
  cases ht : LengthTag.ofByte tag with
  | none => exact .pure (.inl ⟨hskip, by simp [stringEnd, htag, ht]⟩)
  | some t =>
    rw [hskip]
    apply ensures_memcpy_bind fuelSuffices_outOfBounds
    intro bs hbs
    have hwidth := t.width_bounds
    have hblock := bounds_of_slice? hbs (by omega)
    have hchars : int32 (p + 2 + t.width) = p + 2 + t.width := by
      rw [int32_eq] <;> omega
    refine Ensures.tell_bind fun _ => ⟨rule.chars, .pure (.inr ?_)⟩
    simp only [stringEnd, htag, ht, hbs, hchars, Option.bind_eq_bind, Option.bind_some]
    rfl

/-- What the three functions ensure at some fuel. -/
structure ParseAdvances (u : ℤ → Uninit) (binmsg : Bytes) (assume logs : Event → Prop)
    (fuel : ℕ) : Prop where
  value : ∀ self tc (p : ℤ), 0 ≤ p → Buffer.get? binmsg p = some tc →
    Ensures assume (parseValue u fuel self tc binmsg (p + 1))
      (fun r => if tc = NymphInternalTypes.string.toByte then
          r.index = p + 2 ∧ stringEnd binmsg p = none ∨ stringEnd binmsg p = some r.index
        else p < r.index)
      (FuelSuffices (2 * bytesLeft binmsg p) fuel) logs
  elements : ∀ n (index : ℤ), 0 ≤ index →
    Ensures assume (parseElements u fuel n binmsg index) (fun r => index ≤ r.2)
      (FuelSuffices (2 * bytesLeft binmsg index + 1) fuel) logs
  pairs : ∀ (index : ℤ) pairs length, 0 ≤ index →
    Ensures assume (parsePairs u fuel binmsg index pairs length) (fun r => index ≤ r.index)
      (FuelSuffices (2 * bytesLeft binmsg index + 1) fuel) logs

/-- A call of a loop advances, and what follows it may rely on that. -/
theorem ParseAdvances.call {fuel : ℕ} {β : Type} {f : Parsed → Decode β} {post : β → Prop}
    {stop : Fault → Prop} {p : ℤ} {tc : UInt8} {self : NymphType}
    (h : ParseAdvances u binmsg assume logs fuel) (hlen : binmsg.length < 2 ^ 31)
    (rule : LoopRule binmsg assume logs) (htc : Buffer.get? binmsg p = some tc)
    (hstop : ∀ e, FuelSuffices (2 * bytesLeft binmsg p) fuel e → stop e)
    (hf : ∀ el, p < el.index → Ensures assume (f el) post stop logs) :
    Ensures assume (parseValue u fuel self tc binmsg (int32 (p + 1)) >>= fun el =>
      tell (.call p el.index) >>= fun _ => f el) post stop logs := by
  have hin := bounds_of_get? htc
  have hcursor : int32 (p + 1) = p + 1 := by
    rw [int32_eq] <;> omega
  rw [hcursor]
  apply ((h.value self tc p hin.1 htc).mono (fun _ hr => hr) hstop).bind
  intro el hel
  apply Ensures.tell_bind
  intro hassume
  by_cases hstring : tc = NymphInternalTypes.string.toByte
  · rw [if_pos hstring] at hel
    obtain ⟨hlt, hlogs⟩ := rule.string (by rw [htc, hstring]) hel hassume
    exact ⟨hlogs, hf el hlt⟩
  · rw [if_neg hstring] at hel
    exact ⟨rule.other (by rw [htc]; simpa using hstring) hel hassume, hf el hel⟩

/-- The array loop advances when the calls below it do. -/
theorem ParseAdvances.elements_succ {fuel : ℕ} (ih : ParseAdvances u binmsg assume logs fuel)
    (hlen : binmsg.length < 2 ^ 31) (rule : LoopRule binmsg assume logs) (n : ℕ) (index : ℤ)
    (hindex : 0 ≤ index) :
    Ensures assume (parseElements u (fuel + 1) n binmsg index) (fun r => index ≤ r.2)
      (FuelSuffices (2 * bytesLeft binmsg index + 1) (fuel + 1)) logs := by
  cases n with
  | zero => exact .pure le_rfl
  | succ n =>
    rw [parseElements]
    apply ensures_readByte_bind fuelSuffices_outOfBounds
    intro tc htc
    have hin := bounds_of_get? htc
    apply ih.call hlen rule htc (FuelSuffices.weaken (by unfold bytesLeft; omega))
    intro el hel
    refine ((ih.elements n el.index (by omega)).mono (fun _ h => h)
      (FuelSuffices.weaken (by unfold bytesLeft; omega))).bind fun r hr => ?_
    exact .pure (by dsimp only at hr ⊢; omega)

/-- The struct loop advances when the calls below it do. -/
theorem ParseAdvances.pairs_succ {fuel : ℕ} (ih : ParseAdvances u binmsg assume logs fuel)
    (hlen : binmsg.length < 2 ^ 31) (rule : LoopRule binmsg assume logs) (index : ℤ)
    (pairs : List NymphPair) (length : UInt64) (hindex : 0 ≤ index) :
    Ensures assume (parsePairs u (fuel + 1) binmsg index pairs length) (fun r => index ≤ r.index)
      (FuelSuffices (2 * bytesLeft binmsg index + 1) (fuel + 1)) logs := by
  rw [parsePairs]
  apply ensures_readByte_bind fuelSuffices_outOfBounds
  intro tc htc
  have hin := bounds_of_get? htc
  split_ifs with hnone hstring
  · refine .pure ?_
    have hcursor : int32 (index + 1) = index + 1 := by
      rw [int32_eq] <;> omega
    dsimp only
    omega
  · exact .pure le_rfl
  · refine ih.call hlen rule htc (FuelSuffices.weaken (by unfold bytesLeft; omega))
      fun key hkey => ?_
    split_ifs
    · apply ensures_readByte_bind fuelSuffices_outOfBounds
      intro tc' htc'
      have hin' := bounds_of_get? htc'
      refine ih.call hlen rule htc' (FuelSuffices.weaken (by unfold bytesLeft; omega))
        fun val hval => ?_
      split_ifs
      · apply ensures_readString_bind fuelSuffices_outOfBounds
        intro name
        refine (ih.pairs _ _ _ (by omega)).mono (fun r hr => ?_)
          (FuelSuffices.weaken (by unfold bytesLeft; omega))
        omega
      · exact .pure (by dsimp only; omega)
    · exact .pure (by dsimp only; omega)

/-- A call of `parseValue` advances when the loops below it do. -/
theorem ParseAdvances.value_succ {fuel : ℕ} (ih : ParseAdvances u binmsg assume logs fuel)
    (hlen : binmsg.length < 2 ^ 31) (rule : LoopRule binmsg assume logs) (self : NymphType)
    (tc : UInt8) (p : ℤ) (hp : 0 ≤ p) (htc : Buffer.get? binmsg p = some tc) :
    Ensures assume (parseValue u (fuel + 1) self tc binmsg (p + 1))
      (fun r => if tc = NymphInternalTypes.string.toByte then
          r.index = p + 2 ∧ stringEnd binmsg p = none ∨ stringEnd binmsg p = some r.index
        else p < r.index)
      (FuelSuffices (2 * bytesLeft binmsg p) (fuel + 1)) logs := by
  have hin := bounds_of_get? htc
  by_cases hstring : tc = NymphInternalTypes.string.toByte
  · subst hstring
    simp only [if_true]
    rw [parseValue]
    simp only [NymphInternalTypes.ofByte_toByte]
    exact ensures_parseString hlen rule self hp
  · simp only [if_neg hstring]
    rw [parseValue]
    cases hc : NymphInternalTypes.ofByte tc with
    | none => exact .pure (by dsimp only; omega)
    | some c =>
      cases c with
      | string => exact absurd (NymphInternalTypes.toByte_of_ofByte hc) hstring
      | scalar k =>
        have hwidth := k.width_bounds
        refine ensures_memcpy_bind fuelSuffices_outOfBounds fun bs hbs => .pure ?_
        have hblock := bounds_of_slice? hbs (by omega)
        have hcursor : int32 (p + 1 + k.width) = p + 1 + k.width := by
          rw [int32_eq] <;> omega
        dsimp only
        omega
      | array =>
        apply ensures_memcpy_bind fuelSuffices_outOfBounds
        intro bs hbs
        have hblock := bounds_of_slice? hbs (by omega)
        have hcursor : int32 (p + 1 + 8) = p + 1 + 8 := by
          rw [int32_eq] <;> omega
        split_ifs
        · exact .fault fuelSuffices_lengthError
        · rw [hcursor]
          refine ((ih.elements _ (p + 1 + 8) (by omega)).mono (fun _ h => h)
            (FuelSuffices.weaken (by unfold bytesLeft; omega))).bind fun r hr => ?_
          refine ensures_readByte_bind fuelSuffices_outOfBounds fun b hb => .pure ?_
          have hend := bounds_of_get? hb
          have hcursor' : int32 (r.2 + 1) = r.2 + 1 := by
            rw [int32_eq] <;> omega
          dsimp only
          omega
      | struct =>
        refine ((ih.pairs (p + 1) _ _ (by omega)).mono (fun _ h => h)
          (FuelSuffices.weaken (by unfold bytesLeft; omega))).bind fun r hr => ?_
        split_ifs
        · exact .pure (by dsimp only; omega)
        · exact .pure (by dsimp only; omega)
      | _ => exact .pure (by dsimp only; omega)

/-- Every call advances, at any fuel. -/
theorem parse_advances (hlen : binmsg.length < 2 ^ 31) (rule : LoopRule binmsg assume logs)
    (fuel : ℕ) : ParseAdvances u binmsg assume logs fuel := by
  induction fuel with
  | zero =>
    refine ⟨?_, ?_, ?_⟩
    · intro self tc p _ htc
      have hin := bounds_of_get? htc
      refine .fault fun hfuel => ?_
      unfold bytesLeft at hfuel
      omega
    · intro n index _
      exact .fault fun hfuel => by omega
    · intro index pairs length _
      exact .fault fun hfuel => by omega
  | succ fuel ih =>
    exact ⟨ih.value_succ hlen rule, ih.elements_succ hlen rule, ih.pairs_succ hlen rule⟩

end

end NymphRpc
