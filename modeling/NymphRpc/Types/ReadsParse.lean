import NymphRpc.Types.Reads

/-!
# What is read is parsed

Every value of the parser's own grammar is parsed with enough fuel: the parse returns, with
the status and the cursor the grammar says, and records only strings inside the buffer. The
object it fills in is only needed as far as its characters can be copied.
-/

namespace NymphRpc

open LittleEndian Buffer NymphType Traced

variable {u : ℤ → Uninit} {binmsg : Bytes}

/-- The computation returns a value in `post` and records only strings inside the buffer. -/
abbrev Runs {α : Type} (binmsg : Bytes) (x : Decode α) (post : α → Prop) : Prop :=
  Returns (StringInside binmsg) x post

/-- The characters of a string object can be copied. -/
def Readable : NymphType → Prop
  | .string m chars => (chars.read m.strLength.toNat).isSome
  | _ => True

/-- Copying the characters of a readable object. -/
theorem Readable.readString {t : NymphType} (h : Readable t) : ∃ s, readString t = pure s := by
  cases t with
  | string m chars =>
    cases chars with
    | null =>
      simp only [Readable, CharPtr.read] at h
      split_ifs at h with hzero
      · exact ⟨[], by simp [NymphRpc.readString, hzero, memcpy, Buffer.slice?]⟩
      · cases h
    | block bytes offset =>
      obtain ⟨s, hs⟩ := Option.isSome_iff_exists.mp h
      exact ⟨s, memcpy_eq hs⟩
  | _ => exact ⟨[], rfl⟩

/-- A fresh object has no characters. -/
theorem readable_fresh (u₀ : Uninit) : Readable (fresh u₀) := trivial

/-- Changing the recorded size of an object keeps its characters. -/
theorem Readable.setLength {t : NymphType} (h : Readable t) (l : UInt64) :
    Readable (t.setMembers { t.members with length := l }) := by
  cases t <;> exact h

/-- A block of characters inside the buffer can be copied. -/
theorem slice?_isSome {binmsg : Bytes} {i : ℤ} {n : ℕ} (h0 : 0 ≤ i) (h : i + n ≤ binmsg.length) :
    (Buffer.slice? binmsg i n).isSome := by
  unfold Buffer.slice?
  split_ifs with hzero hin
  · rfl
  · rfl
  · exact absurd ⟨h0, h⟩ hin

/-- A string recorded inside the buffer is readable. -/
theorem readable_of_stringInside {m : Members} {chars : ℤ} {l : ℕ}
    (h : StringInside binmsg (.string chars l)) :
    Readable (.string (m.setString l) (.block binmsg chars)) := by
  have hlength : (m.setString l).strLength.toNat = l % 2 ^ 32 := UInt32.toNat_ofNat'
  simp only [Readable, CharPtr.read, hlength]
  exact slice?_isSome h.1 h.2

/-- The outcome of a parse up to `q` with the status `ok`. -/
def Outcome (q : ℕ) (ok : Bool) (r : Parsed) : Prop :=
  r.ok = ok ∧ r.index = cursor q ∧ Readable r.value

/-- From that much fuel on, the value at `p` is parsed up to `q` with the status `ok`. -/
def ParsesWith (u : ℤ → Uninit) (binmsg : Bytes) (fuel₀ p q : ℕ) (ok : Bool) : Prop :=
  ∀ fuel, fuel₀ ≤ fuel → ∀ self tc, Readable self → Buffer.get? binmsg (cursor p) = some tc →
    Runs binmsg (parseValue u fuel self tc binmsg (cursor (p + 1))) (Outcome q ok)

/-- With enough fuel the value at `p` is parsed up to `q` with the status `ok`. -/
def ParsesTo (u : ℤ → Uninit) (binmsg : Bytes) (p q : ℕ) (ok : Bool) : Prop :=
  ∃ fuel₀, ParsesWith u binmsg fuel₀ p q ok

/-- It is enough to parse with the typecode that stands at the position, one call deep. -/
theorem ParsesTo.intro {p q : ℕ} {ok : Bool} {tc : UInt8} (fuel₀ : ℕ)
    (htc : Buffer.get? binmsg (cursor p) = some tc)
    (h : ∀ fuel, fuel₀ ≤ fuel → ∀ self, Readable self →
      Runs binmsg (parseValue u (fuel + 1) self tc binmsg (cursor (p + 1))) (Outcome q ok)) :
    ParsesTo u binmsg p q ok := by
  refine ⟨fuel₀ + 1, fun fuel hfuel self tc' hself htc' => ?_⟩
  obtain ⟨fuel, rfl⟩ : ∃ f, fuel = f + 1 := ⟨fuel - 1, by omega⟩
  obtain rfl : tc = tc' := Option.some.inj (htc.symm.trans htc')
  exact h fuel (by omega) self hself

/-- A value of one byte is parsed. -/
theorem parsesTo_single {p : ℕ} {tc : UInt8} (htc : Buffer.get? binmsg (cursor p) = some tc)
    (h : singleByte tc = true) : ParsesTo u binmsg p (p + 1) true := by
  refine .intro 0 htc fun fuel _ self hself => ?_
  rw [parseValue]
  unfold singleByte at h
  cases hc : NymphInternalTypes.ofByte tc with
  | none => exact .pure ⟨rfl, rfl, hself⟩
  | some c =>
    rw [hc] at h
    cases c with
    | scalar k => cases h
    | string => cases h
    | array => cases h
    | struct => cases h
    | emptyString => exact .pure ⟨rfl, rfl, rfl⟩
    | booleanFalse => exact .pure ⟨rfl, rfl, trivial⟩
    | booleanTrue => exact .pure ⟨rfl, rfl, trivial⟩
    | _ => exact .pure ⟨rfl, rfl, hself⟩

/-- A fixed-width value is parsed. -/
theorem parsesTo_scalar {p : ℕ} {k : Scalar} {bs : Bytes}
    (htc : Buffer.get? binmsg (cursor p) = some (NymphInternalTypes.scalar k).toByte)
    (h : Buffer.slice? binmsg (cursor (p + 1)) k.width = some bs) :
    ParsesTo u binmsg p (p + 1 + k.width) true := by
  refine .intro 0 htc fun fuel _ self hself => ?_
  rw [parseValue]
  simp only [NymphInternalTypes.ofByte_toByte]
  exact returns_memcpy_bind h (.pure ⟨rfl, int32_cursor_add _ _, trivial⟩)

/-- A string whose tag is none is given up. -/
theorem parsesTo_badTag {p : ℕ} {tag : UInt8}
    (htc : Buffer.get? binmsg (cursor p) = some NymphInternalTypes.string.toByte)
    (htag : Buffer.get? binmsg (cursor (p + 1)) = some tag) (h : LengthTag.ofByte tag = none) :
    ParsesTo u binmsg p (p + 2) false := by
  refine .intro 0 htc fun fuel _ self hself => ?_
  rw [parseValue]
  simp only [NymphInternalTypes.ofByte_toByte]
  apply returns_readByte_bind htag
  rw [h]
  exact .pure ⟨rfl, int32_cursor_succ _, hself⟩

/-- A string inside the buffer is parsed. -/
theorem parsesTo_string {p : ℕ} {tag : UInt8} {t : LengthTag} {bs : Bytes}
    (htc : Buffer.get? binmsg (cursor p) = some NymphInternalTypes.string.toByte)
    (htag : Buffer.get? binmsg (cursor (p + 1)) = some tag) (ht : LengthTag.ofByte tag = some t)
    (hbs : Buffer.slice? binmsg (cursor (p + 2)) t.width = some bs)
    (h : StringInside binmsg (.string (cursor (p + 2 + t.width)) (ofBytes bs))) :
    ParsesTo u binmsg p (p + 2 + t.width + ofBytes bs % 2 ^ 32) true := by
  refine .intro 0 htc fun fuel _ self hself => ?_
  rw [parseValue]
  simp only [NymphInternalTypes.ofByte_toByte]
  apply returns_readByte_bind htag
  rw [int32_cursor_succ, ht]
  apply returns_memcpy_bind hbs
  rw [int32_cursor_add]
  exact .tell_bind h (.pure ⟨rfl, int32_cursor_add_mod _ _, readable_of_stringInside h⟩)

/-- An array whose elements are parsed is parsed. -/
theorem parsesTo_array {p q fuel₀ : ℕ} {tc : UInt8} {bs : Bytes}
    (htc : Buffer.get? binmsg (cursor p) = some NymphInternalTypes.array.toByte)
    (hbs : Buffer.slice? binmsg (cursor (p + 1)) 8 = some bs) (hmax : ofBytes bs ≤ vectorMaxSize)
    (h : ∀ fuel, fuel₀ ≤ fuel →
      Runs binmsg (parseElements u fuel (ofBytes bs) binmsg (cursor (p + 9)))
        fun r => r.2 = cursor q)
    (hend : Buffer.get? binmsg (cursor q) = some tc) : ParsesTo u binmsg p (q + 1) true := by
  refine .intro fuel₀ htc fun fuel hfuel self _ => ?_
  have hcursor : int32 (cursor (p + 1) + 8) = cursor (p + 9) := int32_cursor_add (p + 1) 8
  rw [parseValue]
  simp only [NymphInternalTypes.ofByte_toByte]
  apply returns_memcpy_bind hbs
  rw [if_neg (by omega), hcursor]
  apply (h fuel hfuel).bind
  intro r hr
  rw [← hr] at hend
  refine returns_readByte_bind hend (.pure ⟨rfl, ?_, trivial⟩)
  rw [hr, int32_cursor_succ]

/-- A struct whose pairs are parsed is parsed, with the status of the loop. -/
theorem parsesTo_struct {p q fuel₀ : ℕ} {ok : Bool}
    (htc : Buffer.get? binmsg (cursor p) = some NymphInternalTypes.struct.toByte)
    (h : ∀ fuel, fuel₀ ≤ fuel → ∀ pairs length,
      Runs binmsg (parsePairs u fuel binmsg (cursor (p + 1)) pairs length) fun r =>
        r.ok = ok ∧ r.index = cursor q) : ParsesTo u binmsg p q ok := by
  refine .intro fuel₀ htc fun fuel hfuel self hself => ?_
  rw [parseValue]
  simp only [NymphInternalTypes.ofByte_toByte]
  apply (h fuel hfuel [] 0).bind
  rintro r ⟨rfl, hindex⟩
  split_ifs with hok
  · exact .pure ⟨hok.symm, hindex, trivial⟩
  · rw [Bool.not_eq_true] at hok
    exact .pure ⟨hok.symm, hindex, hself.setLength _⟩

/-- A round of the array loop goes on behind the element it parses. -/
theorem parseElements_runs {p q e n fuel₁ fuel₂ : ℕ} {ok : Bool} {tc : UInt8}
    (htc : Buffer.get? binmsg (cursor p) = some tc)
    (h : ParsesWith u binmsg fuel₁ p q ok)
    (hs : ∀ fuel, fuel₂ ≤ fuel →
      Runs binmsg (parseElements u fuel n binmsg (cursor q)) fun r => r.2 = cursor e)
    (fuel : ℕ) (hfuel : fuel₁ + fuel₂ + 1 ≤ fuel) :
    Runs binmsg (parseElements u fuel (n + 1) binmsg (cursor p)) fun r => r.2 = cursor e := by
  obtain ⟨fuel, rfl⟩ : ∃ f, fuel = f + 1 := ⟨fuel - 1, by omega⟩
  rw [parseElements]
  apply returns_readByte_bind htc
  rw [int32_cursor_succ]
  apply (h fuel (by omega) _ tc (readable_fresh _) htc).bind
  rintro el ⟨-, hindex, -⟩
  refine .tell_bind trivial ?_
  rw [hindex]
  exact (hs fuel (by omega)).bind fun r hr => .pure hr

/-- A round of the struct loop that fails at the key. -/
theorem parsePairs_badKey {p q fuel₁ : ℕ}
    (htc : Buffer.get? binmsg (cursor p) = some NymphInternalTypes.string.toByte)
    (h : ParsesWith u binmsg fuel₁ p q false) (fuel : ℕ) (hfuel : fuel₁ + 1 ≤ fuel)
    (pairs : List NymphPair) (length : UInt64) :
    Runs binmsg (parsePairs u fuel binmsg (cursor p) pairs length) fun r =>
      r.ok = false ∧ r.index = cursor q := by
  obtain ⟨fuel, rfl⟩ : ∃ f, fuel = f + 1 := ⟨fuel - 1, by omega⟩
  rw [parsePairs]
  apply returns_readByte_bind htc
  rw [if_neg (by decide), if_neg (by decide), int32_cursor_succ]
  apply (h fuel (by omega) _ _ (readable_fresh _) htc).bind
  rintro key ⟨hok, hindex, -⟩
  refine .tell_bind trivial ?_
  rw [if_neg (by simp [hok])]
  exact .pure ⟨rfl, hindex⟩

/-- A round of the struct loop behind a key: it gives up at the value or goes on behind it. -/
theorem parsePairs_runs {p k q e fuel₁ fuel₂ fuel₃ : ℕ} {okv ok : Bool} {tc : UInt8}
    (htc : Buffer.get? binmsg (cursor p) = some NymphInternalTypes.string.toByte)
    (htcv : Buffer.get? binmsg (cursor k) = some tc)
    (hkey : ParsesWith u binmsg fuel₁ p k true) (hval : ParsesWith u binmsg fuel₂ k q okv)
    (hfalse : okv = false → ok = false ∧ q = e)
    (hrest : okv = true → ∀ fuel, fuel₃ ≤ fuel → ∀ pairs length,
      Runs binmsg (parsePairs u fuel binmsg (cursor q) pairs length) fun r =>
        r.ok = ok ∧ r.index = cursor e)
    (fuel : ℕ) (hfuel : fuel₁ + fuel₂ + fuel₃ + 1 ≤ fuel) (pairs : List NymphPair)
    (length : UInt64) :
    Runs binmsg (parsePairs u fuel binmsg (cursor p) pairs length) fun r =>
      r.ok = ok ∧ r.index = cursor e := by
  obtain ⟨fuel, rfl⟩ : ∃ f, fuel = f + 1 := ⟨fuel - 1, by omega⟩
  rw [parsePairs]
  apply returns_readByte_bind htc
  rw [if_neg (by decide), if_neg (by decide), int32_cursor_succ]
  apply (hkey fuel (by omega) _ _ (readable_fresh _) htc).bind
  rintro key ⟨hok, hindex, hreadable⟩
  refine .tell_bind trivial ?_
  rw [if_pos hok, hindex]
  apply returns_readByte_bind htcv
  rw [int32_cursor_succ]
  apply (hval fuel (by omega) _ tc (readable_fresh _) htcv).bind
  rintro val ⟨hokv, hindexv, -⟩
  refine .tell_bind trivial ?_
  cases okv with
  | false =>
    obtain ⟨rfl, rfl⟩ := hfalse rfl
    rw [if_neg (by simp [hokv])]
    exact .pure ⟨rfl, hindexv⟩
  | true =>
    obtain ⟨name, hname⟩ := hreadable.readString
    rw [if_pos hokv, hname, hindexv]
    exact hrest rfl fuel (by omega) _ _

mutual

/-- A value of the grammar is parsed. -/
theorem Reads.parsesTo : ∀ {p q : ℕ} {ok : Bool}, Reads binmsg p q ok → ParsesTo u binmsg p q ok
  | _, _, _, .single htc h => parsesTo_single htc h
  | _, _, _, .scalar htc h => parsesTo_scalar htc h
  | _, _, _, .badTag htc htag h => parsesTo_badTag htc htag h
  | _, _, _, .string htc htag ht hbs h => parsesTo_string htc htag ht hbs h
  | _, _, _, .array htc hbs hmax h hend => by
    obtain ⟨fuel₀, hrun⟩ := h.parsesTo
    exact parsesTo_array htc hbs hmax hrun hend
  | _, _, _, .struct htc h => by
    obtain ⟨fuel₀, hrun⟩ := h.parsesTo
    exact parsesTo_struct htc hrun

/-- Elements of the grammar are parsed by the array loop. -/
theorem ReadsElements.parsesTo : ∀ {p n q : ℕ}, ReadsElements binmsg p n q →
    ∃ fuel₀, ∀ fuel, fuel₀ ≤ fuel →
      Runs binmsg (parseElements u fuel n binmsg (cursor p)) fun r => r.2 = cursor q
  | _, _, _, .nil => by
    refine ⟨1, fun fuel hfuel => ?_⟩
    obtain ⟨fuel, rfl⟩ : ∃ f, fuel = f + 1 := ⟨fuel - 1, by omega⟩
    exact .pure rfl
  | _, _, _, .cons h hs => by
    obtain ⟨tc, htc⟩ := h.typecode
    obtain ⟨fuel₁, hvalue⟩ := h.parsesTo
    obtain ⟨fuel₂, hrest⟩ := hs.parsesTo
    exact ⟨_, parseElements_runs htc hvalue hrest⟩

/-- Pairs of the grammar are parsed by the struct loop. -/
theorem ReadsPairs.parsesTo : ∀ {p q : ℕ} {ok : Bool}, ReadsPairs binmsg p q ok →
    ∃ fuel₀, ∀ fuel, fuel₀ ≤ fuel → ∀ pairs length,
      Runs binmsg (parsePairs u fuel binmsg (cursor p) pairs length) fun r =>
        r.ok = ok ∧ r.index = cursor q
  | _, _, _, .done htc => by
    refine ⟨1, fun fuel hfuel pairs length => ?_⟩
    obtain ⟨fuel, rfl⟩ : ∃ f, fuel = f + 1 := ⟨fuel - 1, by omega⟩
    rw [parsePairs]
    apply returns_readByte_bind htc
    rw [if_pos rfl, int32_cursor_succ]
    exact .pure ⟨rfl, rfl⟩
  | _, _, _, .noKey htc hnone hstring => by
    refine ⟨1, fun fuel hfuel pairs length => ?_⟩
    obtain ⟨fuel, rfl⟩ : ∃ f, fuel = f + 1 := ⟨fuel - 1, by omega⟩
    rw [parsePairs]
    apply returns_readByte_bind htc
    rw [if_neg hnone, if_pos hstring]
    exact .pure ⟨rfl, rfl⟩
  | _, _, _, .badKey htc h => by
    obtain ⟨fuel₁, hkey⟩ := h.parsesTo
    exact ⟨_, parsePairs_badKey htc hkey⟩
  | _, _, _, .badValue htc hkey h => by
    obtain ⟨tc, htcv⟩ := h.typecode
    obtain ⟨fuel₁, hparse⟩ := hkey.parsesTo
    obtain ⟨fuel₂, hvalue⟩ := h.parsesTo
    exact ⟨fuel₁ + fuel₂ + 0 + 1, parsePairs_runs htc htcv hparse hvalue (fun _ => ⟨rfl, rfl⟩)
      (fun hok => by cases hok)⟩
  | _, _, _, .cons htc hkey hval h => by
    obtain ⟨tc, htcv⟩ := hval.typecode
    obtain ⟨fuel₁, hparse⟩ := hkey.parsesTo
    obtain ⟨fuel₂, hvalue⟩ := hval.parsesTo
    obtain ⟨fuel₃, hrest⟩ := h.parsesTo
    exact ⟨_, parsePairs_runs htc htcv hparse hvalue (fun hok => by cases hok) fun _ => hrest⟩

end

end NymphRpc
