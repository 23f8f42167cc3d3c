import NymphRpc.Types.ParseValue

/-!
# What the parser takes for a value

The parser's own reading of a buffer, as a grammar over positions that only go forward. It is
more lenient than the documented one: an unknown typecode is a value of one byte, a string
may end anywhere in the buffer, only the low 32 bits of its length count, any byte closes an
array, and an array ignores elements that fail. Every byte the grammar mentions, characters of
strings included, is inside the buffer.

A parse that returns and records only strings inside the buffer has read a value of this
grammar, and every value of the grammar is parsed so. A position is reached by the signed
32-bit cursor, so nothing is read from position 2^31 on.
-/

namespace NymphRpc

open LittleEndian Buffer NymphType Traced

/-- The cursor at a position. -/
@[irreducible] def cursor (p : ℕ) : ℤ := int32 p

/-- A position below the signed bound is its own cursor. -/
theorem cursor_eq {p : ℕ} (h : p < 2 ^ 31) : cursor p = p := by
  unfold cursor
  exact int32_eq (by omega) (by omega)

/-- Moving the cursor moves its position. -/
theorem int32_cursor_add (p n : ℕ) : int32 (cursor p + n) = cursor (p + n) := by
  unfold cursor int32
  push_cast
  omega

/-- Moving the cursor by one moves its position by one. -/
theorem int32_cursor_succ (p : ℕ) : int32 (cursor p + 1) = cursor (p + 1) :=
  int32_cursor_add p 1

/-- Only the low 32 bits of a length move the cursor. -/
theorem int32_cursor_add_mod (p l : ℕ) : int32 (cursor p + l) = cursor (p + l % 2 ^ 32) := by
  unfold cursor int32
  push_cast
  omega

/-- A recorded string lies inside the buffer; its length is kept in 32 bits. -/
def StringInside (binmsg : Bytes) : Event → Prop
  | .string chars l => 0 ≤ chars ∧ chars + (l % 2 ^ 32 : ℕ) ≤ binmsg.length
  | .call _ _ => True

/-- Typecodes whose values have no further bytes, unknown ones included. -/
def singleByte (tc : UInt8) : Bool :=
  match NymphInternalTypes.ofByte tc with
  | some (.scalar _) | some .string | some .array | some .struct => false
  | _ => true

mutual

/-- The value whose typecode is at `p` ends before `q`, and the parser reports success or not. -/
inductive Reads (binmsg : Bytes) : ℕ → ℕ → Bool → Prop
  | single {p tc} (htc : Buffer.get? binmsg (cursor p) = some tc) (h : singleByte tc = true) :
      Reads binmsg p (p + 1) true
  | scalar {p k bs}
      (htc : Buffer.get? binmsg (cursor p) = some (NymphInternalTypes.scalar k).toByte)
      (h : Buffer.slice? binmsg (cursor (p + 1)) k.width = some bs) :
      Reads binmsg p (p + 1 + k.width) true
  | badTag {p tag} (htc : Buffer.get? binmsg (cursor p) = some NymphInternalTypes.string.toByte)
      (htag : Buffer.get? binmsg (cursor (p + 1)) = some tag) (h : LengthTag.ofByte tag = none) :
      Reads binmsg p (p + 2) false
  | string {p tag t bs}
      (htc : Buffer.get? binmsg (cursor p) = some NymphInternalTypes.string.toByte)
      (htag : Buffer.get? binmsg (cursor (p + 1)) = some tag) (ht : LengthTag.ofByte tag = some t)
      (hbs : Buffer.slice? binmsg (cursor (p + 2)) t.width = some bs)
      (h : StringInside binmsg (.string (cursor (p + 2 + t.width)) (ofBytes bs))) :
      Reads binmsg p (p + 2 + t.width + ofBytes bs % 2 ^ 32) true
  | array {p q bs tc} (htc : Buffer.get? binmsg (cursor p) = some NymphInternalTypes.array.toByte)
      (hbs : Buffer.slice? binmsg (cursor (p + 1)) 8 = some bs) (hmax : ofBytes bs ≤ vectorMaxSize)
      (h : ReadsElements binmsg (p + 9) (ofBytes bs) q)
      (hend : Buffer.get? binmsg (cursor q) = some tc) : Reads binmsg p (q + 1) true
  | struct {p q ok} (htc : Buffer.get? binmsg (cursor p) = some NymphInternalTypes.struct.toByte)
      (h : ReadsPairs binmsg (p + 1) q ok) : Reads binmsg p q ok

/-- So many elements stand between the positions. -/
inductive ReadsElements (binmsg : Bytes) : ℕ → ℕ → ℕ → Prop
  | nil {p} : ReadsElements binmsg p 0 p
  | cons {p q e n ok} (h : Reads binmsg p q ok) (hs : ReadsElements binmsg q n e) :
      ReadsElements binmsg p (n + 1) e

/-- The pairs from `p` on end before `q`, at the terminator or where the parser gives up. -/
inductive ReadsPairs (binmsg : Bytes) : ℕ → ℕ → Bool → Prop
  | done {p} (htc : Buffer.get? binmsg (cursor p) = some NymphInternalTypes.none.toByte) :
      ReadsPairs binmsg p (p + 1) true
  | noKey {p tc} (htc : Buffer.get? binmsg (cursor p) = some tc)
      (hnone : tc ≠ NymphInternalTypes.none.toByte)
      (hstring : tc ≠ NymphInternalTypes.string.toByte) : ReadsPairs binmsg p p false
  | badKey {p q} (htc : Buffer.get? binmsg (cursor p) = some NymphInternalTypes.string.toByte)
      (h : Reads binmsg p q false) : ReadsPairs binmsg p q false
  | badValue {p k q} (htc : Buffer.get? binmsg (cursor p) = some NymphInternalTypes.string.toByte)
      (hkey : Reads binmsg p k true) (h : Reads binmsg k q false) : ReadsPairs binmsg p q false
  | cons {p k q e ok} (htc : Buffer.get? binmsg (cursor p) = some NymphInternalTypes.string.toByte)
      (hkey : Reads binmsg p k true) (hval : Reads binmsg k q true)
      (h : ReadsPairs binmsg q e ok) : ReadsPairs binmsg p e ok

end

/-- The typecode of a value of the grammar. -/
theorem Reads.typecode {binmsg : Bytes} {p q : ℕ} {ok : Bool} (h : Reads binmsg p q ok) :
    ∃ tc, Buffer.get? binmsg (cursor p) = some tc := by
  cases h <;> exact ⟨_, ‹_›⟩

/-! ### What is parsed is read -/

section

variable {u : ℤ → Uninit} {binmsg : Bytes}

/-- A computation that returns, and records only strings inside the buffer, only returns
values in `post`. -/
abbrev ReadsInside {α : Type} (binmsg : Bytes) (x : Decode α) (post : α → Prop) : Prop :=
  Ensures (StringInside binmsg) x post (fun _ => True) (fun _ => True)

/-- What the three functions read at some fuel. -/
structure ParseReads (u : ℤ → Uninit) (binmsg : Bytes) (fuel : ℕ) : Prop where
  value : ∀ self tc p, Buffer.get? binmsg (cursor p) = some tc →
    ReadsInside binmsg (parseValue u fuel self tc binmsg (cursor (p + 1)))
      fun r => ∃ q, r.index = cursor q ∧ Reads binmsg p q r.ok
  elements : ∀ n p, ReadsInside binmsg (parseElements u fuel n binmsg (cursor p))
    fun r => ∃ q, r.2 = cursor q ∧ ReadsElements binmsg p n q
  pairs : ∀ p pairs length, ReadsInside binmsg (parsePairs u fuel binmsg (cursor p) pairs length)
    fun r => ∃ q, r.index = cursor q ∧ ReadsPairs binmsg p q r.ok

/-- The string case reads a string, or the tag that is none. -/
theorem readsInside_parseString (self : NymphType) {p : ℕ}
    (htc : Buffer.get? binmsg (cursor p) = some NymphInternalTypes.string.toByte) :
    ReadsInside binmsg (parseString self binmsg (cursor (p + 1)))
      fun r => ∃ q, r.index = cursor q ∧ Reads binmsg p q r.ok := by
  unfold parseString
  apply ensures_readByte_bind (fun _ => trivial)
  intro tag htag
  rw [int32_cursor_succ]
  cases ht : LengthTag.ofByte tag with
  | none => exact .pure ⟨p + 2, rfl, .badTag htc htag ht⟩
  | some t =>
    apply ensures_memcpy_bind (fun _ => trivial)
    intro bs hbs
    rw [int32_cursor_add]
    refine Ensures.tell_bind fun hin => ⟨trivial, .pure ?_⟩
    exact ⟨_, int32_cursor_add_mod _ _, .string htc htag ht hbs hin⟩

/-- A call of `parseValue` reads a value when the loops below it read their parts. -/
theorem ParseReads.value_succ {fuel : ℕ} (ih : ParseReads u binmsg fuel) (self : NymphType)
    (tc : UInt8) (p : ℕ) (htc : Buffer.get? binmsg (cursor p) = some tc) :
    ReadsInside binmsg (parseValue u (fuel + 1) self tc binmsg (cursor (p + 1)))
      fun r => ∃ q, r.index = cursor q ∧ Reads binmsg p q r.ok := by
  rw [parseValue]
  cases hc : NymphInternalTypes.ofByte tc with
  | none => exact .pure ⟨p + 1, rfl, .single htc (by simp [singleByte, hc])⟩
  | some c =>
    have htc' : Buffer.get? binmsg (cursor p) = some c.toByte := by
      rw [htc, NymphInternalTypes.toByte_of_ofByte hc]
    cases c with
    | string => exact readsInside_parseString self htc'
    | scalar k =>
      refine ensures_memcpy_bind (fun _ => trivial) fun bs hbs => .pure ?_
      exact ⟨p + 1 + k.width, int32_cursor_add _ _, .scalar htc' hbs⟩
    | array =>
      apply ensures_memcpy_bind (fun _ => trivial)
      intro bs hbs
      have hcursor : int32 (cursor (p + 1) + 8) = cursor (p + 9) := int32_cursor_add (p + 1) 8
      rw [hcursor]
      split_ifs with hmax
      · exact .fault trivial
      · apply (ih.elements (ofBytes bs) (p + 9)).bind
        rintro ⟨vec, index⟩ ⟨q, rfl, hq⟩
        refine ensures_readByte_bind (fun _ => trivial) fun b hb => .pure ?_
        exact ⟨q + 1, int32_cursor_succ q, .array htc' hbs (by omega) hq hb⟩
    | struct =>
      apply (ih.pairs (p + 1) _ _).bind
      rintro r ⟨q, hindex, hq⟩
      split_ifs with hok
      · rw [hok] at hq
        exact .pure ⟨q, hindex, .struct htc' hq⟩
      · rw [Bool.not_eq_true] at hok
        rw [hok] at hq
        exact .pure ⟨q, hindex, .struct htc' hq⟩
    | _ => exact .pure ⟨p + 1, rfl, .single htc (by simp [singleByte, hc])⟩

/-- The array loop reads its elements when the calls below it read values. -/
theorem ParseReads.elements_succ {fuel : ℕ} (ih : ParseReads u binmsg fuel) (n p : ℕ) :
    ReadsInside binmsg (parseElements u (fuel + 1) n binmsg (cursor p))
      fun r => ∃ q, r.2 = cursor q ∧ ReadsElements binmsg p n q := by
  cases n with
  | zero => exact .pure ⟨p, rfl, .nil⟩
  | succ n =>
    rw [parseElements]
    apply ensures_readByte_bind (fun _ => trivial)
    intro tc htc
    rw [int32_cursor_succ]
    apply (ih.value _ tc p htc).bind
    rintro el ⟨q, hindex, hq⟩
    refine Ensures.tell_bind fun _ => ⟨trivial, ?_⟩
    rw [hindex]
    apply (ih.elements n q).bind
    rintro ⟨rest, stop⟩ ⟨e, rfl, he⟩
    exact .pure ⟨e, rfl, .cons hq he⟩

/-- The struct loop reads its pairs when the calls below it read values. -/
theorem ParseReads.pairs_succ {fuel : ℕ} (ih : ParseReads u binmsg fuel) (p : ℕ)
    (pairs : List NymphPair) (length : UInt64) :
    ReadsInside binmsg (parsePairs u (fuel + 1) binmsg (cursor p) pairs length)
      fun r => ∃ q, r.index = cursor q ∧ ReadsPairs binmsg p q r.ok := by
  rw [parsePairs]
  apply ensures_readByte_bind (fun _ => trivial)
  intro tc htc
  rw [int32_cursor_succ]
  split_ifs with hnone hstring
  · exact .pure ⟨p + 1, rfl, .done (by rw [htc, hnone])⟩
  · exact .pure ⟨p, rfl, .noKey htc hnone hstring⟩
  · have htc' : Buffer.get? binmsg (cursor p) = some NymphInternalTypes.string.toByte := by
      rw [htc, not_not.mp hstring]
    apply (ih.value _ tc p htc).bind
    rintro key ⟨k, hindex, hk⟩
    refine Ensures.tell_bind fun _ => ⟨trivial, ?_⟩
    split_ifs with hok
    · rw [hok] at hk
      rw [hindex]
      apply ensures_readByte_bind (fun _ => trivial)
      intro tc₁ htc₁
      rw [int32_cursor_succ]
      apply (ih.value _ tc₁ k htc₁).bind
      rintro val ⟨q, hindex', hq⟩
      refine Ensures.tell_bind fun _ => ⟨trivial, ?_⟩
      split_ifs with hok'
      · rw [hok'] at hq
        rw [hindex']
        apply ensures_readString_bind (fun _ => trivial)
        intro name
        refine (ih.pairs q _ _).mono ?_ (fun _ h => h)
        rintro r ⟨e, he, hpairs⟩
        exact ⟨e, he, .cons htc' hk hq hpairs⟩
      · rw [Bool.not_eq_true] at hok'
        rw [hok'] at hq
        exact .pure ⟨q, hindex', .badValue htc' hk hq⟩
    · rw [Bool.not_eq_true] at hok
      rw [hok] at hk
      exact .pure ⟨k, hindex, .badKey htc' hk⟩

/-- What is parsed with only strings inside the buffer is read, at any fuel. -/
theorem parse_reads (u : ℤ → Uninit) (binmsg : Bytes) (fuel : ℕ) : ParseReads u binmsg fuel := by
  induction fuel with
  | zero =>
    refine ⟨?_, ?_, ?_⟩
    · intro self tc p _
      exact .fault trivial
    · intro n p
      exact .fault trivial
    · intro p pairs length
      exact .fault trivial
  | succ fuel ih => exact ⟨ih.value_succ, ih.elements_succ, ih.pairs_succ⟩

end

end NymphRpc
