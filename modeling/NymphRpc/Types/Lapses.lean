import NymphRpc.Types.Grammar
import NymphRpc.Types.Reads

/-!
# Where the parser is more lenient than the grammar

A lapse is a branch in which the parser goes on over a value that the documented grammar does not
have: it takes a typecode of no value for a value of one byte, keeps an array that is not closed,
ignores an element that failed, or moves its signed index past its range. A value that is read
without a lapse, and does not fail, is one of the grammar; and no lapse happens in a value of the
grammar, which is read to its end.
-/

namespace NymphRpc

open LittleEndian Buffer

/-- The typecodes of values; None only closes them, and Void is no value's. -/
def valueTypecode (tc : UInt8) : Bool :=
  match NymphInternalTypes.ofByte tc with
  | some .none | some .void | none => false
  | some _ => true

mutual

/-- The parser lapses within the value whose typecode is at `p`. -/
inductive LapsesAt (binmsg : Bytes) : ℕ → Prop
  | unknown {p tc} (htc : Buffer.get? binmsg (cursor p) = some tc) (h : valueTypecode tc = false) :
      LapsesAt binmsg p
  | overflow {p tag t bs}
      (htc : Buffer.get? binmsg (cursor p) = some NymphInternalTypes.string.toByte)
      (htag : Buffer.get? binmsg (cursor (p + 1)) = some tag) (ht : LengthTag.ofByte tag = some t)
      (hbs : Buffer.slice? binmsg (cursor (p + 2)) t.width = some bs)
      (h : 2 ^ 31 ≤ p + 2 + t.width + ofBytes bs) : LapsesAt binmsg p
  | element {p bs} (htc : Buffer.get? binmsg (cursor p) = some NymphInternalTypes.array.toByte)
      (hbs : Buffer.slice? binmsg (cursor (p + 1)) 8 = some bs)
      (h : LapsesIn binmsg (p + 9) (ofBytes bs)) : LapsesAt binmsg p
  | unclosed {p q bs tc}
      (htc : Buffer.get? binmsg (cursor p) = some NymphInternalTypes.array.toByte)
      (hbs : Buffer.slice? binmsg (cursor (p + 1)) 8 = some bs)
      (h : ReadsElements binmsg (p + 9) (ofBytes bs) q)
      (hend : Buffer.get? binmsg (cursor q) = some tc)
      (hne : tc ≠ NymphInternalTypes.none.toByte) : LapsesAt binmsg p
  | pair {p} (htc : Buffer.get? binmsg (cursor p) = some NymphInternalTypes.struct.toByte)
      (h : LapsesInPairs binmsg (p + 1)) : LapsesAt binmsg p

/-- The parser lapses within so many elements from `p` on, or ignores that one of them failed. -/
inductive LapsesIn (binmsg : Bytes) : ℕ → ℕ → Prop
  | here {p n} (h : LapsesAt binmsg p) : LapsesIn binmsg p (n + 1)
  | failed {p q n} (h : Reads binmsg p q false) : LapsesIn binmsg p (n + 1)
  | later {p q n ok} (h : Reads binmsg p q ok) (hs : LapsesIn binmsg q n) :
      LapsesIn binmsg p (n + 1)

/-- The parser lapses within a key or a value of the pairs from `p` on. -/
inductive LapsesInPairs (binmsg : Bytes) : ℕ → Prop
  | key {p} (htc : Buffer.get? binmsg (cursor p) = some NymphInternalTypes.string.toByte)
      (h : LapsesAt binmsg p) : LapsesInPairs binmsg p
  | value {p k} (htc : Buffer.get? binmsg (cursor p) = some NymphInternalTypes.string.toByte)
      (hkey : Reads binmsg p k true) (h : LapsesAt binmsg k) : LapsesInPairs binmsg p
  | later {p k q} (htc : Buffer.get? binmsg (cursor p) = some NymphInternalTypes.string.toByte)
      (hkey : Reads binmsg p k true) (hval : Reads binmsg k q true) (h : LapsesInPairs binmsg q) :
      LapsesInPairs binmsg p

end

section

variable {binmsg : Bytes} {p q : ℕ} {ok : Bool}

/-- A byte that is read before the signed range wraps around is read in it. -/
theorem lt_of_get?_cursor {b : UInt8} (h : Buffer.get? binmsg (cursor p) = some b)
    (hp : p < 2 ^ 32) : p < 2 ^ 31 := by
  have hpos := (bounds_of_get? h).1
  unfold cursor int32 at hpos
  omega

/-- A block that is read before the signed range wraps around is read in it. -/
theorem lt_of_slice?_cursor {bs : Bytes} {n : ℕ} (h : Buffer.slice? binmsg (cursor p) n = some bs)
    (hn : n ≠ 0) (hp : p < 2 ^ 32) : p < 2 ^ 31 := by
  have hpos := (bounds_of_slice? h hn).1
  unfold cursor int32 at hpos
  omega

/-- A byte that is read in the signed range stands at its position. -/
theorem holds_of_get?_cursor {b : UInt8} (h : Buffer.get? binmsg (cursor p) = some b)
    (hp : p < 2 ^ 31) : binmsg[p]? = some b := by
  rw [cursor_eq hp] at h
  simpa [Buffer.get?] using h

/-- A block that is read in the signed range stands at its position. -/
theorem holds_of_slice?_cursor {bs : Bytes} {n : ℕ}
    (h : Buffer.slice? binmsg (cursor p) n = some bs) (hp : p < 2 ^ 31) : Holds binmsg p bs := by
  rw [cursor_eq hp] at h
  exact holds_of_slice? h

/-- The value at a position is one of the grammar, and ends before another. -/
def ValueAt (binmsg : Bytes) (p q : ℕ) : Prop :=
  ∃ bs v, Denotes bs v ∧ Holds binmsg p bs ∧ q = p + bs.length ∧ q < 2 ^ 32

/-- A value of one byte that is no lapse. -/
theorem valueAt_single {tc : UInt8} (hp : p < 2 ^ 31)
    (htc : Buffer.get? binmsg (cursor p) = some tc) (hsingle : singleByte tc = true)
    (hvalue : valueTypecode tc = true) : ValueAt binmsg p (p + 1) := by
  have hbyte : Holds binmsg p [tc] :=
    Holds.cons_iff.mpr ⟨holds_of_get?_cursor htc hp, List.nil_prefix⟩
  have hdenotes : ∃ v, Denotes [tc] v := by
    unfold singleByte at hsingle
    unfold valueTypecode at hvalue
    cases hc : NymphInternalTypes.ofByte tc with
    | none =>
      rw [hc] at hvalue
      cases hvalue
    | some c =>
      obtain rfl := NymphInternalTypes.toByte_of_ofByte hc
      rw [NymphInternalTypes.ofByte_toByte] at hsingle hvalue
      cases c with
      | null => exact ⟨_, .null⟩
      | booleanFalse => exact ⟨_, .booleanFalse⟩
      | booleanTrue => exact ⟨_, .booleanTrue⟩
      | emptyString => exact ⟨_, .emptyString⟩
      | none | void => cases hvalue
      | scalar _ | string | array | struct => cases hsingle
  obtain ⟨v, hv⟩ := hdenotes
  exact ⟨[tc], v, hv, hbyte, rfl, by omega⟩

/-- A fixed-width value. -/
theorem valueAt_scalar {k : Scalar} {bs : Bytes} (hp : p < 2 ^ 31)
    (htc : Buffer.get? binmsg (cursor p) = some (NymphInternalTypes.scalar k).toByte)
    (hbs : Buffer.slice? binmsg (cursor (p + 1)) k.width = some bs) :
    ValueAt binmsg p (p + 1 + k.width) := by
  have hk := k.width_bounds
  have hlen : bs.length = k.width := length_of_slice? hbs
  have hbits : toBytes k.width (BitVec.ofNat (8 * k.width) (ofBytes bs)).toNat = bs := by
    have hlt := ofBytes_lt bs
    have hpow : (256 : ℕ) ^ k.width = 2 ^ (8 * k.width) := by
      rw [pow_mul]
      rfl
    rw [hlen, hpow] at hlt
    rw [BitVec.toNat_ofNat, Nat.mod_eq_of_lt hlt, ← hlen, toBytes_ofBytes]
  have hdenotes := Denotes.scalar k (BitVec.ofNat _ (ofBytes bs))
  rw [hbits] at hdenotes
  have hp' : p + 1 < 2 ^ 31 := lt_of_slice?_cursor hbs (by omega) (by omega)
  refine ⟨_, _, hdenotes, Holds.cons_iff.mpr ⟨holds_of_get?_cursor htc hp,
    holds_of_slice?_cursor hbs hp'⟩, ?_, by omega⟩
  rw [List.length_cons, hlen]
  omega

/-- A string whose end is in the signed range. -/
theorem valueAt_string {tag : UInt8} {t : LengthTag} {bs : Bytes} (hp : p < 2 ^ 31)
    (htc : Buffer.get? binmsg (cursor p) = some NymphInternalTypes.string.toByte)
    (htag : Buffer.get? binmsg (cursor (p + 1)) = some tag) (ht : LengthTag.ofByte tag = some t)
    (hbs : Buffer.slice? binmsg (cursor (p + 2)) t.width = some bs)
    (hinside : StringInside binmsg (.string (cursor (p + 2 + t.width)) (ofBytes bs)))
    (hend : p + 2 + t.width + ofBytes bs < 2 ^ 31) :
    ∃ s, s.length < 256 ^ t.width ∧ Holds binmsg p (taggedString t s) ∧
      p + 2 + t.width + ofBytes bs % 2 ^ 32 = p + (taggedString t s).length := by
  have htag' := LengthTag.toByte_of_ofByte ht
  have hlen : bs.length = t.width := length_of_slice? hbs
  have hmod : ofBytes bs % 2 ^ 32 = ofBytes bs := Nat.mod_eq_of_lt (by omega)
  obtain ⟨-, hle⟩ := hinside
  rw [hmod, cursor_eq (by omega)] at hle
  let s := (binmsg.drop (p + 2 + t.width)).take (ofBytes bs)
  have hs : s.length = ofBytes bs := by
    rw [List.length_take, List.length_drop]
    omega
  have hlength : toBytes t.width s.length = bs := by rw [hs, ← hlen, toBytes_ofBytes]
  have hlt : s.length < 256 ^ t.width := by
    rw [hs, ← hlen]
    exact ofBytes_lt bs
  refine ⟨s, hlt, ?_, ?_⟩
  · have hchars : Holds binmsg (p + 1 + 1 + bs.length) s := by
      rw [hlen]
      exact List.take_prefix _ _
    rw [taggedString, hlength]
    exact Holds.cons_iff.mpr ⟨holds_of_get?_cursor htc hp, Holds.cons_iff.mpr
      ⟨htag' ▸ holds_of_get?_cursor htag (by omega),
        Holds.append_iff.mpr ⟨holds_of_slice?_cursor hbs (by omega), hchars⟩⟩⟩
  · rw [hmod, taggedString, List.length_cons, List.length_cons, List.length_append, toBytes_length,
      hs]
    omega

/-- The elements of an array that is closed. -/
theorem valueAt_array {cnt bs : Bytes} {vs : List Value} (hp : p < 2 ^ 31)
    (htc : Buffer.get? binmsg (cursor p) = some NymphInternalTypes.array.toByte)
    (hcnt : Buffer.slice? binmsg (cursor (p + 1)) 8 = some cnt) (h : DenotesAll bs vs)
    (hcount : vs.length = ofBytes cnt) (hbs : Holds binmsg (p + 9) bs)
    (hend : Buffer.get? binmsg (cursor (p + 9 + bs.length)) =
      some NymphInternalTypes.none.toByte) (hlt : p + 9 + bs.length < 2 ^ 32) :
    ValueAt binmsg p (p + 9 + bs.length + 1) := by
  have hlen : cnt.length = 8 := length_of_slice? hcnt
  have hcnt' : toBytes 8 vs.length = cnt := by rw [hcount, ← hlen, toBytes_ofBytes]
  have hlt' : p + 9 + bs.length < 2 ^ 31 := lt_of_get?_cursor hend hlt
  have hvs : vs.length < 256 ^ 8 := by
    rw [hcount, ← hlen]
    exact ofBytes_lt cnt
  have hdenotes := Denotes.array h hvs
  rw [hcnt'] at hdenotes
  have hpos : p + 9 = p + 1 + cnt.length := by rw [hlen]
  rw [hpos] at hbs hend
  refine ⟨_, _, hdenotes, Holds.cons_iff.mpr ⟨holds_of_get?_cursor htc hp,
    Holds.append_iff.mpr ⟨holds_of_slice?_cursor hcnt (by omega), Holds.append_iff.mpr ⟨hbs,
      Holds.cons_iff.mpr ⟨holds_of_get?_cursor hend (by omega), List.nil_prefix⟩⟩⟩⟩, ?_, by omega⟩
  simp only [List.length_cons, List.length_append, List.length_nil, hlen]
  omega

/-- A value that starts with the typecode of a string is a string with a tagged length. -/
theorem Denotes.tagged {bs : Bytes} {v : Value} (h : Denotes bs v) (hholds : Holds binmsg p bs)
    (htc : binmsg[p]? = some NymphInternalTypes.string.toByte) :
    ∃ t s, s.length < 256 ^ t.width ∧ bs = taggedString t s := by
  have hbyte : ∀ {c : NymphInternalTypes} {rest : Bytes}, Holds binmsg p (c.toByte :: rest) →
      c = .string := by
    intro c rest hc
    have heq := (Holds.cons_iff.mp hc).1
    rw [htc] at heq
    exact NymphInternalTypes.toByte_injective (Option.some.inj heq).symm
  cases h with
  | string t s hs => exact ⟨t, s, hs, rfl⟩
  | null | booleanFalse | booleanTrue | emptyString => cases hbyte hholds
  | scalar _ _ | array _ _ | struct _ => cases hbyte hholds

end

mutual

/-- What is read without a lapse and does not fail is a value of the grammar. -/
theorem Reads.valueAt {binmsg : Bytes} : ∀ {p q : ℕ} {ok : Bool}, Reads binmsg p q ok →
    ok = true → p < 2 ^ 31 → ¬LapsesAt binmsg p → ValueAt binmsg p q
  | _, _, _, .single htc h, _, hp, hlapse => by
    apply valueAt_single hp htc h
    by_contra hvalue
    exact hlapse (.unknown htc (by simpa using hvalue))
  | _, _, _, .scalar htc h, _, hp, _ => valueAt_scalar hp htc h
  | _, _, _, .badTag htc htag h, hok, _, _ => by cases hok
  | p, _, _, @Reads.string _ _ tag t bs htc htag ht hbs h, _, hp, hlapse => by
    have hend : p + 2 + t.width + ofBytes bs < 2 ^ 31 := by
      by_contra hge
      exact hlapse (.overflow htc htag ht hbs (by omega))
    obtain ⟨s, hs, hholds, heq⟩ := valueAt_string hp htc htag ht hbs h hend
    have hmod : ofBytes bs % 2 ^ 32 = ofBytes bs := Nat.mod_eq_of_lt (by omega)
    exact ⟨_, _, .string t s hs, hholds, heq, by omega⟩
  | p, _, _, @Reads.array _ _ q bs tc htc hbs hmax h hend, _, hp, hlapse => by
    have hclosed : tc = NymphInternalTypes.none.toByte := by
      by_contra hne
      exact hlapse (.unclosed htc hbs h hend hne)
    obtain ⟨bs', vs, hdenotes, hcount, hholds, rfl, hlt⟩ :=
      h.valuesAt (by omega) fun hl => hlapse (.element htc hbs hl)
    rw [hclosed] at hend
    exact valueAt_array hp htc hbs hdenotes hcount hholds hend hlt
  | p, _, _, .struct htc h, hok, hp, hlapse => by
    obtain ⟨bs, fs, hdenotes, hholds, rfl, hlt⟩ :=
      h.pairsAt hok (by omega) fun hl => hlapse (.pair htc hl)
    refine ⟨_, _, .struct hdenotes,
      Holds.cons_iff.mpr ⟨holds_of_get?_cursor htc hp, hholds⟩, ?_, hlt⟩
    simp only [List.length_cons, List.length_append, List.length_nil]
    omega

/-- Elements that are read without a lapse are values of the grammar. -/
theorem ReadsElements.valuesAt {binmsg : Bytes} : ∀ {p n q : ℕ}, ReadsElements binmsg p n q →
    p < 2 ^ 32 → ¬LapsesIn binmsg p n → ∃ bs vs, DenotesAll bs vs ∧ vs.length = n ∧
      Holds binmsg p bs ∧ q = p + bs.length ∧ q < 2 ^ 32
  | p, _, _, .nil, hp, _ => ⟨[], [], .nil, rfl, List.nil_prefix, rfl, hp⟩
  | p, _, _, @ReadsElements.cons _ _ q e n ok h hs, hp, hlapse => by
    have hok : ok = true := by
      by_contra hfalse
      rw [Bool.not_eq_true] at hfalse
      exact hlapse (.failed (hfalse ▸ h))
    obtain ⟨tc, htc⟩ := h.typecode
    obtain ⟨b, v, hv, hb, hq, hlt⟩ :=
      h.valueAt hok (lt_of_get?_cursor htc hp) fun hl => hlapse (.here hl)
    obtain ⟨bs, vs, hvs, hlen, hbs, he, hlt'⟩ := hs.valuesAt hlt fun hl => hlapse (.later h hl)
    subst hq he
    refine ⟨b ++ bs, v :: vs, .cons hv hvs, by rw [List.length_cons, hlen],
      Holds.append_iff.mpr ⟨hb, hbs⟩, ?_, hlt'⟩
    rw [List.length_append, Nat.add_assoc]

/-- Pairs that are read without a lapse to the terminator are pairs of the grammar. -/
theorem ReadsPairs.pairsAt {binmsg : Bytes} : ∀ {p q : ℕ} {ok : Bool}, ReadsPairs binmsg p q ok →
    ok = true → p < 2 ^ 32 → ¬LapsesInPairs binmsg p → ∃ bs fs, DenotesPairs bs fs ∧
      Holds binmsg p (bs ++ [NymphInternalTypes.none.toByte]) ∧ q = p + bs.length + 1 ∧ q < 2 ^ 32
  | p, _, _, .done htc, _, hp, _ => by
    have hp' := lt_of_get?_cursor htc hp
    exact ⟨[], [], .nil, Holds.cons_iff.mpr ⟨holds_of_get?_cursor htc hp', List.nil_prefix⟩, rfl,
      by omega⟩
  | _, _, _, .noKey htc hnone hstring, hok, _, _ => by cases hok
  | _, _, _, .badKey htc h, hok, _, _ => by cases hok
  | _, _, _, .badValue htc hkey h, hok, _, _ => by cases hok
  | p, _, _, .cons htc hkey hval h, hok, hp, hlapse => by
    have hp' := lt_of_get?_cursor htc hp
    obtain ⟨kb, kv, hk, hkholds, hkend, hklt⟩ :=
      hkey.valueAt rfl hp' fun hl => hlapse (.key htc hl)
    obtain ⟨tc, htcv⟩ := hval.typecode
    obtain ⟨b, v, hv, hb, hvend, hlt⟩ :=
      hval.valueAt rfl (lt_of_get?_cursor htcv hklt) fun hl => hlapse (.value htc hkey hl)
    obtain ⟨bs, fs, hfs, hholds, hend, hlt'⟩ :=
      h.pairsAt hok hlt fun hl => hlapse (.later htc hkey hval hl)
    obtain ⟨t, s, hs, rfl⟩ := hk.tagged hkholds (holds_of_get?_cursor htc hp')
    subst hkend hvend hend
    refine ⟨_, _, .cons t s hs hv hfs, ?_, ?_, hlt'⟩
    · rw [List.append_assoc, List.append_assoc]
      exact Holds.append_iff.mpr ⟨hkholds, Holds.append_iff.mpr ⟨hb, hholds⟩⟩
    · simp only [List.length_append]
      omega

end

/-! ### The values of the grammar are read without a lapse -/

section

variable {binmsg : Bytes} {p q : ℕ} {ok : Bool} {c : NymphInternalTypes}

/-- The typecode at a position. -/
theorem typecode_unique {c' : NymphInternalTypes}
    (h : Buffer.get? binmsg (cursor p) = some c.toByte)
    (h' : Buffer.get? binmsg (cursor p) = some c'.toByte) : c = c' := by
  rw [h] at h'
  exact NymphInternalTypes.toByte_injective (Option.some.inj h')

/-- A typecode of one byte is none of those with further bytes. -/
theorem singleByte_toByte {tc : UInt8} (htc : Buffer.get? binmsg (cursor p) = some tc)
    (h : Buffer.get? binmsg (cursor p) = some c.toByte) (hsingle : singleByte tc = true) :
    singleByte c.toByte = true := by
  rw [h] at htc
  rwa [Option.some.inj htc]

/-- What is read at a typecode of one byte. -/
theorem Reads.of_single (htc : Buffer.get? binmsg (cursor p) = some c.toByte)
    (hsingle : singleByte c.toByte = true) (h : Reads binmsg p q ok) : q = p + 1 ∧ ok = true := by
  cases h with
  | single _ _ => exact ⟨rfl, rfl⟩
  | scalar htc' _ | badTag htc' _ _ | string htc' _ _ _ _ | array htc' _ _ _ _ | struct htc' _ =>
    obtain rfl := typecode_unique htc htc'
    simp [singleByte] at hsingle

/-- What is read at the typecode of a fixed-width value. -/
theorem Reads.of_scalar {k : Scalar}
    (htc : Buffer.get? binmsg (cursor p) = some (NymphInternalTypes.scalar k).toByte)
    (h : Reads binmsg p q ok) : q = p + 1 + k.width ∧ ok = true := by
  cases h with
  | single htc' hsingle =>
    have hscalar := singleByte_toByte htc' htc hsingle
    simp [singleByte] at hscalar
  | scalar htc' _ =>
    cases typecode_unique htc htc'
    exact ⟨rfl, rfl⟩
  | badTag htc' _ _ | string htc' _ _ _ _ | array htc' _ _ _ _ | struct htc' _ =>
    cases typecode_unique htc htc'

/-- What is read at the typecode of a string whose length is tagged. -/
theorem Reads.of_string {tag : UInt8} {t : LengthTag} {bs : Bytes}
    (htc : Buffer.get? binmsg (cursor p) = some NymphInternalTypes.string.toByte)
    (htag : Buffer.get? binmsg (cursor (p + 1)) = some tag) (ht : LengthTag.ofByte tag = some t)
    (hbs : Buffer.slice? binmsg (cursor (p + 2)) t.width = some bs) (h : Reads binmsg p q ok) :
    q = p + 2 + t.width + ofBytes bs % 2 ^ 32 ∧ ok = true := by
  cases h with
  | single htc' hsingle =>
    have hstring := singleByte_toByte htc' htc hsingle
    simp [singleByte] at hstring
  | badTag _ htag' ht' =>
    rw [htag] at htag'
    cases htag'
    rw [ht] at ht'
    cases ht'
  | string _ htag' ht' hbs' _ =>
    rw [htag] at htag'
    cases htag'
    rw [ht] at ht'
    cases ht'
    rw [hbs] at hbs'
    cases hbs'
    exact ⟨rfl, rfl⟩
  | scalar htc' _ | array htc' _ _ _ _ | struct htc' _ => cases typecode_unique htc htc'

/-- What is read at the typecode of an array. -/
theorem Reads.of_array {bs : Bytes}
    (htc : Buffer.get? binmsg (cursor p) = some NymphInternalTypes.array.toByte)
    (hbs : Buffer.slice? binmsg (cursor (p + 1)) 8 = some bs) (h : Reads binmsg p q ok) :
    ∃ e, ReadsElements binmsg (p + 9) (ofBytes bs) e ∧ q = e + 1 ∧ ok = true := by
  cases h with
  | single htc' hsingle =>
    have harray := singleByte_toByte htc' htc hsingle
    simp [singleByte] at harray
  | array _ hbs' _ h _ =>
    rw [hbs] at hbs'
    cases hbs'
    exact ⟨_, h, rfl, rfl⟩
  | scalar htc' _ | badTag htc' _ _ | string htc' _ _ _ _ | struct htc' _ =>
    cases typecode_unique htc htc'

/-- What is read at the typecode of a struct. -/
theorem Reads.of_struct
    (htc : Buffer.get? binmsg (cursor p) = some NymphInternalTypes.struct.toByte)
    (h : Reads binmsg p q ok) : ReadsPairs binmsg (p + 1) q ok := by
  cases h with
  | single htc' hsingle =>
    have hstruct := singleByte_toByte htc' htc hsingle
    simp [singleByte] at hstruct
  | struct _ h => exact h
  | scalar htc' _ | badTag htc' _ _ | string htc' _ _ _ _ | array htc' _ _ _ _ =>
    cases typecode_unique htc htc'

/-- A lapse at the typecode of a value. -/
theorem LapsesAt.typecode (htc : Buffer.get? binmsg (cursor p) = some c.toByte)
    (hvalue : valueTypecode c.toByte = true) (h : LapsesAt binmsg p) :
    c = .string ∨ c = .array ∨ c = .struct := by
  cases h with
  | unknown htc' hnone =>
    rw [htc] at htc'
    cases htc'
    rw [hvalue] at hnone
    cases hnone
  | overflow htc' _ _ _ _ => exact .inl (typecode_unique htc htc')
  | element htc' _ _ | unclosed htc' _ _ _ _ => exact .inr (.inl (typecode_unique htc htc'))
  | pair htc' _ => exact .inr (.inr (typecode_unique htc htc'))

/-- The only value that is read at `p` ends before `e`, without a lapse. -/
structure WalksTo (binmsg : Bytes) (p e : ℕ) : Prop where
  reads : ∀ q ok, Reads binmsg p q ok → q = e ∧ ok = true
  lapses : ¬LapsesAt binmsg p

/-- A value of one byte. -/
theorem walksTo_single (htc : Buffer.get? binmsg (cursor p) = some c.toByte)
    (hsingle : singleByte c.toByte = true) (hvalue : valueTypecode c.toByte = true) :
    WalksTo binmsg p (p + 1) := by
  refine ⟨fun q ok h => h.of_single htc hsingle, fun h => ?_⟩
  rcases h.typecode htc hvalue with rfl | rfl | rfl <;> simp [singleByte] at hsingle

/-- A fixed-width value. -/
theorem walksTo_scalar {k : Scalar}
    (htc : Buffer.get? binmsg (cursor p) = some (NymphInternalTypes.scalar k).toByte) :
    WalksTo binmsg p (p + 1 + k.width) := by
  refine ⟨fun q ok h => h.of_scalar htc, fun h => ?_⟩
  rcases h.typecode htc (by simp [valueTypecode]) with h | h | h <;> cases h

/-- The first byte of a segment in the signed range is read. -/
theorem get?_cursor_of_holds {b : UInt8} {rest : Bytes} (h : Holds binmsg p (b :: rest))
    (hp : p < 2 ^ 31) : Buffer.get? binmsg (cursor p) = some b := by
  rw [cursor_eq hp]
  exact h.get?

/-- A segment in the signed range is read as one block. -/
theorem slice?_cursor_of_holds {bs : Bytes} {n : ℕ} (h : Holds binmsg p bs) (hn : bs.length = n)
    (hp : p < 2 ^ 31) : Buffer.slice? binmsg (cursor p) n = some bs := by
  rw [cursor_eq hp, ← hn]
  exact h.slice?

/-- A string with a tagged length. -/
theorem walksTo_string {t : LengthTag} {s : Bytes} (hs : s.length < 256 ^ t.width)
    (h : Holds binmsg p (taggedString t s)) (hbound : p + (taggedString t s).length < 2 ^ 31) :
    WalksTo binmsg p (p + (taggedString t s).length) := by
  have hlen : (taggedString t s).length = 2 + t.width + s.length := by
    simp only [taggedString, List.length_cons, List.length_append, toBytes_length]
    omega
  rw [hlen] at hbound ⊢
  obtain ⟨-, h1⟩ := Holds.cons_iff.mp h
  obtain ⟨-, h2⟩ := Holds.cons_iff.mp h1
  have htc := get?_cursor_of_holds h (by omega)
  have htag := get?_cursor_of_holds h1 (by omega)
  have ht := LengthTag.ofByte_toByte t
  have hbs := slice?_cursor_of_holds (Holds.append_iff.mp h2).1 (toBytes_length _ _) (by omega)
  have hlength := ofBytes_toBytes hs
  refine ⟨fun q ok hread => ?_, fun hlapse => ?_⟩
  · obtain ⟨hq, hok⟩ := hread.of_string htc htag ht hbs
    rw [hlength, Nat.mod_eq_of_lt (by omega)] at hq
    exact ⟨by omega, hok⟩
  · cases hlapse with
    | unknown htc' hnone =>
      rw [htc] at htc'
      cases htc'
      simp [valueTypecode] at hnone
    | overflow _ htag' ht' hbs' hge =>
      rw [htag] at htag'
      cases htag'
      rw [ht] at ht'
      cases ht'
      have heq := Option.some.inj (hbs.symm.trans hbs')
      rw [← heq, hlength] at hge
      omega
    | element htc' _ _ | unclosed htc' _ _ _ _ | pair htc' _ => cases typecode_unique htc htc'

/-- An array over elements that are read to their end. -/
theorem walksTo_array {cnt bs : Bytes} {n : ℕ} (hcnt : cnt.length = 8) (hn : ofBytes cnt = n)
    (h : Holds binmsg p (NymphInternalTypes.array.toByte ::
      (cnt ++ (bs ++ [NymphInternalTypes.none.toByte]))))
    (hbound : p + 9 + bs.length < 2 ^ 31)
    (hreads : ∀ q, ReadsElements binmsg (p + 9) n q → q = p + 9 + bs.length)
    (hlapses : ¬LapsesIn binmsg (p + 9) n) : WalksTo binmsg p (p + 9 + bs.length + 1) := by
  subst hn
  obtain ⟨-, h1⟩ := Holds.cons_iff.mp h
  obtain ⟨hcount, h2⟩ := Holds.append_iff.mp h1
  obtain ⟨-, h3⟩ := Holds.append_iff.mp h2
  have hpos : p + 1 + cnt.length = p + 9 := by omega
  rw [hpos] at h3
  have htc := get?_cursor_of_holds h (by omega)
  have hbs := slice?_cursor_of_holds hcount hcnt (by omega)
  have hend := get?_cursor_of_holds h3 hbound
  refine ⟨fun q ok hread => ?_, fun hlapse => ?_⟩
  · obtain ⟨e, he, hq, hok⟩ := hread.of_array htc hbs
    rw [hq, hreads e he]
    exact ⟨rfl, hok⟩
  · cases hlapse with
    | unknown htc' hnone =>
      rw [htc] at htc'
      cases htc'
      simp [valueTypecode] at hnone
    | element _ hbs' hlapse =>
      rw [hbs] at hbs'
      cases hbs'
      exact hlapses hlapse
    | unclosed _ hbs' he hend' hne =>
      rw [hbs] at hbs'
      cases hbs'
      rw [hreads _ he, hend] at hend'
      exact hne (Option.some.inj hend').symm
    | overflow htc' _ _ _ _ | pair htc' _ => cases typecode_unique htc htc'

/-- A struct over pairs that are read to their end. -/
theorem walksTo_struct {e : ℕ}
    (htc : Buffer.get? binmsg (cursor p) = some NymphInternalTypes.struct.toByte)
    (hreads : ∀ q ok, ReadsPairs binmsg (p + 1) q ok → q = e ∧ ok = true)
    (hlapses : ¬LapsesInPairs binmsg (p + 1)) : WalksTo binmsg p e := by
  refine ⟨fun q ok hread => hreads q ok (hread.of_struct htc), fun hlapse => ?_⟩
  cases hlapse with
  | unknown htc' hnone =>
    rw [htc] at htc'
    cases htc'
    simp [valueTypecode] at hnone
  | pair _ h => exact hlapses h
  | overflow htc' _ _ _ _ | element htc' _ _ | unclosed htc' _ _ _ _ =>
    cases typecode_unique htc htc'

end

mutual

/-- A value of the grammar is read to its end without a lapse, and nothing else is read there. -/
theorem Denotes.walksTo {binmsg : Bytes} : ∀ {bs : Bytes} {v : Value} {p : ℕ}, Denotes bs v →
    Holds binmsg p bs → p + bs.length < 2 ^ 31 → WalksTo binmsg p (p + bs.length)
  | _, _, p, .null, h, hp | _, _, p, .booleanFalse, h, hp | _, _, p, .booleanTrue, h, hp
  | _, _, p, .emptyString, h, hp =>
    walksTo_single (get?_cursor_of_holds h (lt_of_le_of_lt (Nat.le_add_right _ _) hp)) rfl rfl
  | _, _, p, .scalar k bits, h, hp => by
    have htc := get?_cursor_of_holds h (lt_of_le_of_lt (Nat.le_add_right _ _) hp)
    have hwalks := walksTo_scalar htc
    rw [List.length_cons, toBytes_length, Nat.add_comm k.width, ← Nat.add_assoc]
    exact hwalks
  | _, _, p, .string t s hs, h, hp => walksTo_string hs h hp
  | _, _, p, @Denotes.array bs vs hvs hcount, h, hp => by
    simp only [List.length_cons, List.length_append, toBytes_length, List.length_nil] at hp ⊢
    have hbs : Holds binmsg (p + 9) bs := by
      have h1 := (Holds.append_iff.mp (Holds.cons_iff.mp h).2).2
      rw [toBytes_length, Nat.add_assoc] at h1
      exact (Holds.append_iff.mp h1).1
    obtain ⟨hreads, hlapses⟩ := hvs.walksTo hbs (by omega)
    have hwalks := walksTo_array (toBytes_length _ _) (ofBytes_toBytes hcount) h (by omega) hreads
      hlapses
    rw [show p + (8 + (bs.length + (0 + 1)) + 1) = p + 9 + bs.length + 1 by omega]
    exact hwalks
  | _, _, p, @Denotes.struct bs fs hfs, h, hp => by
    simp only [List.length_cons, List.length_append, List.length_nil] at hp ⊢
    obtain ⟨hreads, hlapses⟩ := hfs.walksTo (Holds.cons_iff.mp h).2 (by omega)
    have hwalks := walksTo_struct (get?_cursor_of_holds h (by omega)) hreads hlapses
    rw [show p + (bs.length + (0 + 1) + 1) = p + 1 + bs.length + 1 by omega]
    exact hwalks

/-- The elements of the grammar are read to their end without a lapse. -/
theorem DenotesAll.walksTo {binmsg : Bytes} : ∀ {bs : Bytes} {vs : List Value} {p : ℕ},
    DenotesAll bs vs → Holds binmsg p bs → p + bs.length < 2 ^ 31 →
      (∀ q, ReadsElements binmsg p vs.length q → q = p + bs.length) ∧ ¬LapsesIn binmsg p vs.length
  | _, _, p, .nil, _, _ => by
    refine ⟨fun q h => ?_, nofun⟩
    cases h
    rfl
  | _, _, p, @DenotesAll.cons b v bs vs hv hvs, h, hp => by
    obtain ⟨hb, hbs⟩ := Holds.append_iff.mp h
    rw [List.length_append] at hp ⊢
    obtain ⟨hread, hlapse⟩ := hv.walksTo hb (by omega)
    obtain ⟨hreads, hlapses⟩ := hvs.walksTo hbs (by omega)
    refine ⟨fun q hq => ?_, fun hin => ?_⟩
    · cases hq with
      | cons h hs =>
        obtain ⟨rfl, -⟩ := hread _ _ h
        rw [hreads q hs, Nat.add_assoc]
    · cases hin with
      | here h => exact hlapse h
      | failed h => cases (hread _ _ h).2
      | later h hs =>
        obtain ⟨rfl, -⟩ := hread _ _ h
        exact hlapses hs

/-- The pairs of the grammar are read to the terminator without a lapse. -/
theorem DenotesPairs.walksTo {binmsg : Bytes} : ∀ {bs : Bytes} {fs : List (Bytes × Value)} {p : ℕ},
    DenotesPairs bs fs → Holds binmsg p (bs ++ [NymphInternalTypes.none.toByte]) →
      p + bs.length + 1 < 2 ^ 31 →
      (∀ q ok, ReadsPairs binmsg p q ok → q = p + bs.length + 1 ∧ ok = true) ∧
        ¬LapsesInPairs binmsg p
  | _, _, p, .nil, h, hp => by
    have htc := get?_cursor_of_holds h (by omega)
    refine ⟨fun q ok hq => ?_, fun hin => ?_⟩
    · cases hq with
      | done _ => exact ⟨rfl, rfl⟩
      | noKey htc' hnone _ =>
        rw [htc] at htc'
        exact absurd (Option.some.inj htc').symm hnone
      | badKey htc' _ | badValue htc' _ _ | cons htc' _ _ _ => cases typecode_unique htc htc'
    · cases hin with
      | key htc' _ | value htc' _ _ | later htc' _ _ _ => cases typecode_unique htc htc'
  | _, _, p, @DenotesPairs.cons b v bs fs t k hk hv hfs, h, hp => by
    simp only [List.append_assoc] at h
    obtain ⟨hkey, h1⟩ := Holds.append_iff.mp h
    obtain ⟨hval, hrest⟩ := Holds.append_iff.mp h1
    simp only [List.length_append] at hp ⊢
    obtain ⟨hreadKey, hlapseKey⟩ := walksTo_string hk hkey (by omega)
    obtain ⟨hread, hlapse⟩ := hv.walksTo hval (by omega)
    obtain ⟨hreads, hlapses⟩ := hfs.walksTo hrest (by omega)
    have htc := get?_cursor_of_holds hkey (by omega)
    refine ⟨fun q ok hq => ?_, fun hin => ?_⟩
    · cases hq with
      | done htc' => cases typecode_unique htc htc'
      | noKey htc' _ hstring =>
        rw [htc] at htc'
        exact absurd (Option.some.inj htc').symm hstring
      | badKey _ h => cases (hreadKey _ _ h).2
      | badValue _ hk' h =>
        obtain ⟨rfl, -⟩ := hreadKey _ _ hk'
        cases (hread _ _ h).2
      | cons _ hk' hv' hs =>
        obtain ⟨rfl, -⟩ := hreadKey _ _ hk'
        obtain ⟨rfl, -⟩ := hread _ _ hv'
        obtain ⟨hq, hok⟩ := hreads _ _ hs
        exact ⟨by omega, hok⟩
    · cases hin with
      | key _ h => exact hlapseKey h
      | value _ hk' h =>
        obtain ⟨rfl, -⟩ := hreadKey _ _ hk'
        exact hlapse h
      | later _ hk' hv' hs =>
        obtain ⟨rfl, -⟩ := hreadKey _ _ hk'
        obtain ⟨rfl, -⟩ := hread _ _ hv'
        exact hlapses hs

end

end NymphRpc
