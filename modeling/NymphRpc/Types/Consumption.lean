import NymphRpc.Types.Lapses
import NymphRpc.Types.ParseAccepts
import NymphRpc.Types.ReadsParse

/-!
# How much of the buffer a value takes

No byte string of the grammar is shorter than the shortest encoding of its value, in which a
null takes a byte and the key of a pair at least three, since a key has no empty-string
typecode. The parser takes at least as much for what it returns, whatever the bytes were,
as long as the strings it meets lie inside the buffer: the cursor then only moves forward.
-/

namespace NymphRpc

open LittleEndian Buffer NymphType Traced

namespace Value

mutual

/-- The length of the shortest byte string of the grammar for the value. -/
def shortest : Value → ℕ
  | null => 1
  | boolean _ => 1
  | scalar k _ => 1 + k.width
  | string s => if s = [] then 1 else stringSize s.length
  | array vs => shortestAll vs + 10
  | struct fs => shortestFields fs + 2

/-- The length of the shortest byte string for a list of values. -/
def shortestAll : List Value → ℕ
  | [] => 0
  | v :: vs => v.shortest + shortestAll vs

/-- The length of the shortest byte string for the pairs of a struct. -/
def shortestFields : List (Bytes × Value) → ℕ
  | [] => 0
  | (k, v) :: fs => stringSize k.length + v.shortest + shortestFields fs

end

/-- A value takes its typecode at least. -/
theorem shortest_pos (v : Value) : 0 < v.shortest := by
  cases v with
  | string s =>
    unfold shortest
    split_ifs
    · exact Nat.one_pos
    · exact lt_of_le_of_lt (Nat.zero_le _) (length_lt_stringSize _)
  | null | boolean => exact Nat.one_pos
  | scalar | array | struct =>
    unfold shortest
    omega

/-- A string is at most as long as its tagged form. -/
theorem shortest_string_le (s : Bytes) : (string s).shortest ≤ stringSize s.length := by
  have hlt := length_lt_stringSize s.length
  unfold shortest
  split_ifs <;> omega

/-- Inserting a pair adds at most the pair. -/
theorem shortestFields_insertEntry (k : Bytes) (v : Value) (fs : List (Bytes × Value)) :
    shortestFields (OrderedMap.insertEntry Prod.fst (k, v) fs) ≤
      stringSize k.length + v.shortest + shortestFields fs := by
  induction fs with
  | nil => simp [OrderedMap.insertEntry, shortestFields]
  | cons f fs ih =>
    obtain ⟨k', v'⟩ := f
    rw [OrderedMap.insertEntry]
    cases compare k k' with
    | lt => simp only [shortestFields]; omega
    | eq => simp only [shortestFields]; omega
    | gt => simp only [shortestFields] at ih ⊢; omega

end Value

/-- Each tag that holds a length makes a string at least as long as the shortest one. -/
theorem stringSize_le_tagged {t : LengthTag} {n l : ℕ} (hn : n ≤ l) (hl : l < 256 ^ t.width) :
    Value.stringSize n ≤ 2 + t.width + n := by
  have hlt : n < 256 ^ t.width := lt_of_le_of_lt hn hl
  unfold Value.stringSize
  cases t <;> simp only [LengthTag.width, LengthTag.scalar, Scalar.width] at hlt ⊢ <;>
    split_ifs <;> omega

/-- The value of a string object is no longer than its recorded length. -/
theorem shortest_value_string (m : Members) (chars : CharPtr) :
    (NymphType.string m chars).value.shortest ≤ Value.stringSize m.strLength.toNat := by
  have hpos := Value.length_lt_stringSize m.strLength.toNat
  rw [NymphType.value]
  cases hread : chars.read m.strLength.toNat with
  | none =>
    simp only [Option.getD_none, Value.shortest, if_true]
    omega
  | some s =>
    have hlen : s.length = m.strLength.toNat := by
      cases chars with
      | null =>
        simp only [CharPtr.read] at hread
        split_ifs at hread with hzero
        simp only [Option.some.injEq] at hread
        rw [← hread, hzero]
        rfl
      | block bytes offset => exact length_of_slice? hread
    rw [Option.getD_some, ← hlen]
    exact Value.shortest_string_le s

/-- The name of a key is as long as its string object says. -/
theorem ensures_readString_length {assume logs : Event → Prop} {stop : Fault → Prop} (m : Members)
    (chars : CharPtr) (hstop : ∀ i, stop (.outOfBounds i)) :
    Ensures assume (readString (.string m chars)) (fun s => s.length = m.strLength.toNat) stop
      logs := by
  have hcopy : ∀ (bytes : Bytes) (offset : ℤ),
      Ensures assume (memcpy bytes offset m.strLength.toNat)
        (fun s => s.length = m.strLength.toNat) stop logs := by
    intro bytes offset
    unfold memcpy
    cases hbs : Buffer.slice? bytes offset m.strLength.toNat with
    | none => exact .fault (hstop _)
    | some bs => exact .pure (length_of_slice? hbs)
  cases chars with
  | null => exact hcopy [] 0
  | block bytes offset => exact hcopy bytes offset

section

variable {u : ℤ → Uninit} {binmsg : Bytes}

/-- The cursor stops at a position of the buffer at least `n` bytes further on. -/
def StopsAfter (binmsg : Bytes) (p n : ℕ) (index : ℤ) : Prop :=
  ∃ q, index = cursor q ∧ p + n ≤ q ∧ q ≤ binmsg.length

/-- What the three functions take of a buffer at some fuel. -/
structure ParseTakes (u : ℤ → Uninit) (binmsg : Bytes) (fuel : ℕ) : Prop where
  value : ∀ u₀ tc p, p ≤ binmsg.length → Buffer.get? binmsg (cursor p) = some tc →
    ReadsInside binmsg (parseValue u fuel (fresh u₀) tc binmsg (cursor (p + 1)))
      fun r => StopsAfter binmsg p r.value.value.shortest r.index
  key : ∀ u₀ p, p ≤ binmsg.length →
    Buffer.get? binmsg (cursor p) = some NymphInternalTypes.string.toByte →
    ReadsInside binmsg
      (parseValue u fuel (fresh u₀) NymphInternalTypes.string.toByte binmsg (cursor (p + 1)))
      fun r => StopsAfter binmsg p 0 r.index ∧ (r.ok = true → ∃ m chars, r.value = .string m chars ∧
        StopsAfter binmsg p (Value.stringSize m.strLength.toNat) r.index)
  elements : ∀ n p, p ≤ binmsg.length →
    ReadsInside binmsg (parseElements u fuel n binmsg (cursor p))
      fun r => StopsAfter binmsg p (Value.shortestAll (valueAll r.1)) r.2
  pairs : ∀ p pairs length, p ≤ binmsg.length →
    ReadsInside binmsg (parsePairs u fuel binmsg (cursor p) pairs length) fun r =>
      ∃ q, r.index = cursor q ∧ p ≤ q ∧ q ≤ binmsg.length ∧ (r.ok = true →
        p + Value.shortestFields (valuePairs r.pairs) + 1 ≤
          q + Value.shortestFields (valuePairs pairs))

/-- The array loop takes enough for each element. -/
theorem ParseTakes.elements_succ {fuel : ℕ} (ih : ParseTakes u binmsg fuel) (n p : ℕ)
    (hp : p ≤ binmsg.length) :
    ReadsInside binmsg (parseElements u (fuel + 1) n binmsg (cursor p))
      fun r => StopsAfter binmsg p (Value.shortestAll (valueAll r.1)) r.2 := by
  cases n with
  | zero => exact .pure ⟨p, rfl, le_rfl, hp⟩
  | succ n =>
    rw [parseElements]
    apply ensures_readByte_bind (fun _ => trivial)
    intro tc htc
    rw [int32_cursor_succ]
    apply (ih.value _ tc p hp htc).bind
    rintro el ⟨q, hindex, hq, hend⟩
    refine Ensures.tell_bind fun _ => ⟨trivial, ?_⟩
    rw [hindex]
    apply (ih.elements n q hend).bind
    rintro ⟨rest, stop⟩ ⟨e, rfl, he, hend'⟩
    refine .pure ⟨e, rfl, ?_, hend'⟩
    simp only [valueAll, Value.shortestAll] at he ⊢
    omega

variable (hlen : binmsg.length < 2 ^ 32)

include hlen

/-- A byte that is read stands before the end. -/
theorem lt_length_of_get? {p : ℕ} {b : UInt8} (hp : p ≤ binmsg.length)
    (h : Buffer.get? binmsg (cursor p) = some b) : p < 2 ^ 31 ∧ p < binmsg.length := by
  have hp31 := lt_of_get?_cursor h (by omega)
  rw [cursor_eq hp31] at h
  have hin := bounds_of_get? h
  exact ⟨hp31, by omega⟩

/-- A block that is copied ends before the end. -/
theorem add_le_length_of_slice? {p n : ℕ} {bs : Bytes} (hp : p ≤ binmsg.length)
    (h : Buffer.slice? binmsg (cursor p) n = some bs) : p + n ≤ binmsg.length := by
  by_cases hn : n = 0
  · omega
  · have hp31 := lt_of_slice?_cursor h hn (by omega)
    rw [cursor_eq hp31] at h
    have hin := bounds_of_slice? h hn
    omega

/-- A string inside the buffer ends before the end. -/
theorem add_le_length_of_stringInside {p l : ℕ} (hp : p ≤ binmsg.length)
    (h : StringInside binmsg (.string (cursor p) l)) : p + l % 2 ^ 32 ≤ binmsg.length := by
  obtain ⟨hlow, hhigh⟩ := h
  have hp31 : p < 2 ^ 31 := by
    unfold cursor int32 at hlow
    omega
  rw [cursor_eq hp31] at hhigh
  omega

/-- The string case takes the tag, the length and the characters. -/
theorem takes_parseString (self : NymphType) {p : ℕ} (hp : p + 1 ≤ binmsg.length) :
    ReadsInside binmsg (parseString self binmsg (cursor (p + 1))) fun r =>
      (r.ok = false ∧ r.value = self ∧ StopsAfter binmsg p 2 r.index) ∨
      (r.ok = true ∧ ∃ m chars, r.value = .string m chars ∧
        StopsAfter binmsg p (Value.stringSize m.strLength.toNat) r.index) := by
  unfold parseString
  apply ensures_readByte_bind (fun _ => trivial)
  intro tag htag
  obtain ⟨-, hp1⟩ := lt_length_of_get? hlen hp htag
  rw [int32_cursor_succ]
  cases LengthTag.ofByte tag with
  | none => exact .pure (.inl ⟨rfl, rfl, p + 2, rfl, le_rfl, hp1⟩)
  | some t =>
    apply ensures_memcpy_bind (fun _ => trivial)
    intro bs hbs
    have hp2 := add_le_length_of_slice? hlen hp1 hbs
    rw [int32_cursor_add]
    refine Ensures.tell_bind fun hin => ⟨trivial, .pure (.inr ⟨rfl, _, _, rfl, ?_⟩)⟩
    refine ⟨p + 2 + t.width + ofBytes bs % 2 ^ 32, int32_cursor_add_mod _ _, ?_, ?_⟩
    · have hl : ofBytes bs < 256 ^ t.width := by
        have hlt := ofBytes_lt bs
        rwa [length_of_slice? hbs] at hlt
      have hsize := stringSize_le_tagged (Nat.mod_le (ofBytes bs) (2 ^ 32)) hl
      change p + Value.stringSize (UInt32.ofNat (ofBytes bs)).toNat ≤ _
      rw [UInt32.toNat_ofNat']
      omega
    · exact add_le_length_of_stringInside hlen hp2 hin

/-- A call of `parseValue` takes enough when the loops below it do. -/
theorem ParseTakes.value_succ {fuel : ℕ} (ih : ParseTakes u binmsg fuel) (u₀ : Uninit)
    (tc : UInt8) (p : ℕ) (hp : p ≤ binmsg.length)
    (htc : Buffer.get? binmsg (cursor p) = some tc) :
    ReadsInside binmsg (parseValue u (fuel + 1) (fresh u₀) tc binmsg (cursor (p + 1)))
      fun r => StopsAfter binmsg p r.value.value.shortest r.index := by
  obtain ⟨-, hp1⟩ := lt_length_of_get? hlen hp htc
  rw [parseValue]
  cases NymphInternalTypes.ofByte tc with
  | none => exact .pure ⟨p + 1, rfl, le_rfl, hp1⟩
  | some c =>
    cases c with
    | string =>
      refine (takes_parseString hlen (fresh u₀) hp1).mono ?_ (fun _ h => h)
      rintro r (⟨-, hvalue, q, hindex, hq, hend⟩ | ⟨-, m, chars, hvalue, q, hindex, hq, hend⟩)
      · rw [hvalue]
        exact ⟨q, hindex, le_trans (Nat.le_succ _) hq, hend⟩
      · rw [hvalue]
        have hle := shortest_value_string m chars
        exact ⟨q, hindex, by omega, hend⟩
    | scalar k =>
      apply ensures_memcpy_bind (fun _ => trivial)
      intro bs hbs
      have hp2 := add_le_length_of_slice? hlen hp1 hbs
      exact .pure ⟨p + 1 + k.width, int32_cursor_add _ _, by simp [NymphType.value, Value.shortest,
        Nat.add_assoc], hp2⟩
    | array =>
      apply ensures_memcpy_bind (fun _ => trivial)
      intro bs hbs
      have hp9 := add_le_length_of_slice? hlen hp1 hbs
      have hcursor : int32 (cursor (p + 1) + 8) = cursor (p + 9) := int32_cursor_add (p + 1) 8
      rw [hcursor]
      split_ifs with hmax
      · exact .fault trivial
      · apply (ih.elements (ofBytes bs) (p + 9) hp9).bind
        rintro ⟨vec, index⟩ ⟨q, rfl, hq, hend⟩
        apply ensures_readByte_bind (fun _ => trivial)
        intro b hb
        obtain ⟨-, hq1⟩ := lt_length_of_get? hlen hend hb
        refine .pure ⟨q + 1, int32_cursor_succ q, ?_, hq1⟩
        simp only [NymphType.value, Value.shortest] at hq ⊢
        omega
    | struct =>
      apply (ih.pairs (p + 1) [] 0 hp1).bind
      rintro r ⟨q, hindex, hle, hend, hpairs⟩
      split_ifs with hok
      · refine .pure ⟨q, hindex, ?_, hend⟩
        have htaken := hpairs hok
        simp only [NymphType.value, Value.shortest, valuePairs, Value.shortestFields] at htaken ⊢
        omega
      · exact .pure ⟨q, hindex, hle, hend⟩
    | null | booleanFalse | booleanTrue | emptyString | none | void =>
      exact .pure ⟨p + 1, rfl, le_rfl, hp1⟩

/-- A key takes its tagged form. -/
theorem takes_key {fuel : ℕ} (u₀ : Uninit) (p : ℕ) (hp : p ≤ binmsg.length)
    (htc : Buffer.get? binmsg (cursor p) = some NymphInternalTypes.string.toByte) :
    ReadsInside binmsg
      (parseValue u (fuel + 1) (fresh u₀) NymphInternalTypes.string.toByte binmsg (cursor (p + 1)))
      fun r => StopsAfter binmsg p 0 r.index ∧ (r.ok = true → ∃ m chars, r.value = .string m chars ∧
        StopsAfter binmsg p (Value.stringSize m.strLength.toNat) r.index) := by
  obtain ⟨-, hp1⟩ := lt_length_of_get? hlen hp htc
  rw [parseValue]
  refine (takes_parseString hlen (fresh u₀) hp1).mono ?_ (fun _ h => h)
  rintro r (⟨hok, -, q, hindex, hq, hend⟩ | ⟨-, m, chars, hvalue, q, hindex, hq, hend⟩)
  · refine ⟨⟨q, hindex, by omega, hend⟩, fun hok' => ?_⟩
    rw [hok] at hok'
    cases hok'
  · exact ⟨⟨q, hindex, by omega, hend⟩, fun _ => ⟨m, chars, hvalue, q, hindex, hq, hend⟩⟩

/-- The struct loop takes enough for each pair, repeated keys included. -/
theorem ParseTakes.pairs_succ {fuel : ℕ} (ih : ParseTakes u binmsg fuel) (p : ℕ)
    (pairs : List NymphPair) (length : UInt64) (hp : p ≤ binmsg.length) :
    ReadsInside binmsg (parsePairs u (fuel + 1) binmsg (cursor p) pairs length) fun r =>
      ∃ q, r.index = cursor q ∧ p ≤ q ∧ q ≤ binmsg.length ∧ (r.ok = true →
        p + Value.shortestFields (valuePairs r.pairs) + 1 ≤
          q + Value.shortestFields (valuePairs pairs)) := by
  rw [parsePairs]
  apply ensures_readByte_bind (fun _ => trivial)
  intro tc htc
  obtain ⟨-, hp1⟩ := lt_length_of_get? hlen hp htc
  rw [int32_cursor_succ]
  split_ifs with hnone hstring
  · exact .pure ⟨p + 1, rfl, Nat.le_succ p, hp1, fun _ => by dsimp only; omega⟩
  · exact .pure ⟨p, rfl, le_rfl, hp, fun h => by cases h⟩
  · rw [not_not] at hstring
    rw [hstring] at htc ⊢
    apply (ih.key _ p hp htc).bind
    rintro key ⟨⟨k, hk, hpk, hkend⟩, hkey⟩
    refine Ensures.tell_bind fun _ => ⟨trivial, ?_⟩
    split_ifs with hok
    · obtain ⟨m, chars, hname, k', hk', hsize, hkend'⟩ := hkey hok
      rw [hk']
      apply ensures_readByte_bind (fun _ => trivial)
      intro tc' htc'
      rw [int32_cursor_succ]
      apply (ih.value _ tc' k' hkend' htc').bind
      rintro val ⟨q, hq, hkq, hqend⟩
      refine Ensures.tell_bind fun _ => ⟨trivial, ?_⟩
      split_ifs with hok'
      · rw [hname, hq]
        apply (ensures_readString_length m chars (fun _ => trivial)).bind
        intro name hlength
        refine (ih.pairs q _ _ hqend).mono ?_ (fun _ h => h)
        rintro r ⟨e, he, hqe, hend, hpairs⟩
        refine ⟨e, he, by omega, hend, fun hr => ?_⟩
        have htaken := hpairs hr
        rw [valuePairs_insertEntry] at htaken
        have hinsert := Value.shortestFields_insertEntry name val.value.value (valuePairs pairs)
        simp only [NymphPair.name, NymphPair.value] at htaken
        rw [hlength] at hinsert
        omega
      · exact .pure ⟨q, hq, by omega, hqend, fun h => by cases h⟩
    · exact .pure ⟨k, hk, hpk, hkend, fun h => by cases h⟩

/-- What is parsed with only strings inside the buffer takes enough of it, at any fuel. -/
theorem parse_takes (u : ℤ → Uninit) (fuel : ℕ) : ParseTakes u binmsg fuel := by
  induction fuel with
  | zero =>
    constructor
    · intro u₀ tc p _ _
      exact .fault trivial
    · intro u₀ p _ _
      exact .fault trivial
    · intro n p _
      exact .fault trivial
    · intro p pairs length _
      exact .fault trivial
  | succ fuel ih =>
    exact ⟨ih.value_succ hlen, takes_key hlen, ih.elements_succ, ih.pairs_succ hlen⟩

end

/-! ### Encodings are read -/

section

variable {binmsg : Bytes}

/-- A tagged string in the signed range is read to its end. -/
theorem reads_taggedString {t : LengthTag} {s : Bytes} {p : ℕ} (hs : s.length < 256 ^ t.width)
    (h : Holds binmsg p (taggedString t s)) (hbound : p + (taggedString t s).length < 2 ^ 31) :
    Reads binmsg p (p + (taggedString t s).length) true := by
  have hlength : (taggedString t s).length = 2 + t.width + s.length := by
    simp only [taggedString, List.length_cons, List.length_append, toBytes_length]
    omega
  obtain ⟨-, htag⟩ := Holds.cons_iff.mp h
  obtain ⟨-, hrest⟩ := Holds.cons_iff.mp htag
  obtain ⟨hlen, hchars⟩ := Holds.append_iff.mp hrest
  rw [toBytes_length] at hchars
  have hvalue : ofBytes (toBytes t.width s.length) = s.length := ofBytes_toBytes hs
  have hin : StringInside binmsg
      (.string (cursor (p + 2 + t.width)) (ofBytes (toBytes t.width s.length))) := by
    rw [hvalue, cursor_eq (by omega)]
    refine ⟨Int.natCast_nonneg _, ?_⟩
    by_cases hnil : s = []
    · have hend := h.add_length_le (by simp [taggedString])
      rw [hlength] at hend
      simp only [hnil, List.length_nil] at hend ⊢
      omega
    · have hend := hchars.add_length_le hnil
      omega
  have hread := Reads.string (get?_cursor_of_holds h (by omega))
    (get?_cursor_of_holds htag (by omega)) (LengthTag.ofByte_toByte t)
    (slice?_cursor_of_holds hlen (toBytes_length _ _) (by omega)) hin
  rw [hvalue, Nat.mod_eq_of_lt (by omega)] at hread
  rw [hlength, ← Nat.add_assoc, ← Nat.add_assoc]
  exact hread

mutual

/-- A value of the grammar is read to its end. -/
theorem Denotes.reads : ∀ {bs : Bytes} {v : Value} {p : ℕ}, Denotes bs v → Holds binmsg p bs →
    p + bs.length < 2 ^ 31 → Reads binmsg p (p + bs.length) true
  | _, _, p, .null, h, hp | _, _, p, .booleanFalse, h, hp | _, _, p, .booleanTrue, h, hp
  | _, _, p, .emptyString, h, hp =>
    .single (get?_cursor_of_holds h (lt_of_le_of_lt (Nat.le_add_right _ _) hp)) rfl
  | _, _, p, .scalar k bits, h, hp => by
    simp only [List.length_cons, toBytes_length] at hp ⊢
    rw [Nat.add_comm k.width, ← Nat.add_assoc]
    exact .scalar (get?_cursor_of_holds h (by omega))
      (slice?_cursor_of_holds (Holds.cons_iff.mp h).2 (toBytes_length _ _) (by omega))
  | _, _, p, .string t s hs, h, hp => reads_taggedString hs h hp
  | _, _, p, @Denotes.array bs vs hvs hcount, h, hp => by
    simp only [List.length_cons, List.length_append, toBytes_length, List.length_nil] at hp ⊢
    obtain ⟨hcnt, hrest⟩ := Holds.append_iff.mp (Holds.cons_iff.mp h).2
    obtain ⟨hbs, hend⟩ := Holds.append_iff.mp hrest
    rw [toBytes_length] at hbs hend
    have hvalue : ofBytes (toBytes 8 vs.length) = vs.length := ofBytes_toBytes hcount
    have hle := hvs.length_le
    have hmax : vectorMaxSize = 1152921504606846975 := rfl
    have hread := hvs.reads hbs (by omega)
    rw [← hvalue] at hread
    rw [show p + (8 + (bs.length + (0 + 1)) + 1) = p + 9 + bs.length + 1 by omega]
    exact .array (get?_cursor_of_holds h (by omega))
      (slice?_cursor_of_holds hcnt (toBytes_length _ _) (by omega)) (by omega) hread
      (get?_cursor_of_holds hend (by omega))
  | _, _, p, @Denotes.struct bs fs hfs, h, hp => by
    simp only [List.length_cons, List.length_append, List.length_nil] at hp ⊢
    rw [show p + (bs.length + (0 + 1) + 1) = p + 1 + bs.length + 1 by omega]
    exact .struct (get?_cursor_of_holds h (by omega))
      (hfs.reads (Holds.cons_iff.mp h).2 (by omega))

/-- The elements of the grammar are read to their end. -/
theorem DenotesAll.reads : ∀ {bs : Bytes} {vs : List Value} {p : ℕ}, DenotesAll bs vs →
    Holds binmsg p bs → p + bs.length < 2 ^ 31 →
      ReadsElements binmsg p vs.length (p + bs.length)
  | _, _, _, .nil, _, _ => .nil
  | _, _, p, .cons hv hvs, h, hp => by
    obtain ⟨hb, hbs⟩ := Holds.append_iff.mp h
    rw [List.length_append] at hp ⊢
    rw [← Nat.add_assoc]
    exact .cons (hv.reads hb (by omega)) (hvs.reads hbs (by omega))

/-- The pairs of the grammar are read to the terminator. -/
theorem DenotesPairs.reads : ∀ {bs : Bytes} {fs : List (Bytes × Value)} {p : ℕ},
    DenotesPairs bs fs → Holds binmsg p (bs ++ [NymphInternalTypes.none.toByte]) →
      p + bs.length + 1 < 2 ^ 31 → ReadsPairs binmsg p (p + bs.length + 1) true
  | _, _, p, .nil, h, hp => .done (get?_cursor_of_holds h (by omega))
  | _, _, p, @DenotesPairs.cons b v bs _ t k hk hv hfs, h, hp => by
    rw [List.append_assoc, List.append_assoc] at h
    obtain ⟨hkey, hrest⟩ := Holds.append_iff.mp h
    obtain ⟨hb, hbs⟩ := Holds.append_iff.mp hrest
    simp only [List.length_append] at hp ⊢
    rw [← Nat.add_assoc, ← Nat.add_assoc]
    exact .cons (get?_cursor_of_holds hkey (by omega)) (reads_taggedString hk hkey (by omega))
      (hv.reads hb (by omega)) (hfs.reads hbs (by omega))

end

end

end NymphRpc
