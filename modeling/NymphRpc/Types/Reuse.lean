import NymphRpc.Types.ParseAccepts

/-!
# Objects that are used again

`setValue` and `parseValue` overwrite the type and the union, but not every member: nothing
ever resets `emptyString`, only strings set `strLength`, and a parsed array or struct adds its
size to the `length` it finds. So an object keeps traces of the calls made on it before, and
whether the last call gives what it gives on a fresh object depends on that call and on what it
finds. What a call does is read off its arguments as an effect, the same for every object.
-/

namespace NymphRpc

open LittleEndian NymphType

/-- What `setValue` is called with. -/
inductive ValueArgument
  | bool (v : Bool)
  | scalar (k : Scalar) (v : BitVec (8 * k.width))
  | chars (v : CharPtr) (bytes : UInt32) (own : Bool)
  | string (v : Bytes) (own : Bool)
  | vector (v : List NymphType) (own : Bool)
  | pairs (v : List NymphPair) (own : Bool)

/-- `setValue`. -/
def NymphType.setValue (self : NymphType) : ValueArgument → NymphType
  | .bool v => .boolean { self.members with length := 1 } v
  | .scalar k v => .scalar { self.members with length := .ofNat (1 + k.width) } k v
  | .chars v bytes own =>
    .string { self.members with
      length := binaryStringLength bytes.toUInt64
      strLength := bytes
      own := own
      emptyString := self.members.emptyString || decide (bytes = 0) } v
  | .string v own =>
    .string { self.members with
      length := binaryStringLength (.ofNat v.length)
      strLength := .ofNat v.length
      own := own
      emptyString := self.members.emptyString || decide (UInt32.ofNat v.length = 0) } (.block v 0)
  | .vector v own => .array { self.members with own := own, length := sumBytes v + 10 } v
  | .pairs v own => .struct { self.members with own := own, length := sumPairBytes v + 2 } v

/-- A call that fills in an object: one of the setters, or the parser at a position of a buffer,
over the memory that the objects it allocates are made in. -/
inductive ValueCall
  | setValue (v : ValueArgument)
  | parseValue (u : ℤ → Uninit) (fuel : ℕ) (typecode : UInt8) (binmsg : Bytes) (index : ℤ)

/-- How much of an object a call overwrites. -/
inductive CallKind
  | keeps | setsEmptyString | setsString | setsOther | accumulates
  deriving DecidableEq

/-- The length of the tagged string at a position, if there is one. -/
def taggedLength (binmsg : Bytes) (index : ℤ) : Option ℕ :=
  (Buffer.get? binmsg index).bind fun tc => (LengthTag.ofByte tc).bind fun t =>
    (Buffer.slice? binmsg (Buffer.int32 (index + 1)) t.width).map ofBytes

/-- Whether a string of this length sets `emptyString`. -/
def stringKind (empty : Prop) [Decidable empty] : CallKind :=
  if empty then .setsEmptyString else .setsString

namespace ValueCall

/-- The object after a call that succeeds. -/
def apply (self : NymphType) : ValueCall → Option NymphType
  | setValue v => some (self.setValue v)
  | parseValue u fuel typecode binmsg index =>
    match (NymphRpc.parseValue u fuel self typecode binmsg index).result with
    | .ok r => if r.ok then some r.value else none
    | .error _ => none

/-- The object after calls that all succeed. -/
def run (self : NymphType) (cs : List ValueCall) : Option NymphType := cs.foldlM apply self

/-- How much the call overwrites, from its arguments. -/
def kind : ValueCall → CallKind
  | setValue (.bool _) | setValue (.scalar _ _) => .setsOther
  | setValue (.vector _ _) | setValue (.pairs _ _) => .setsOther
  | setValue (.chars _ bytes _) => stringKind (bytes = 0)
  | setValue (.string v _) => stringKind (UInt32.ofNat v.length = 0)
  | parseValue _ _ typecode binmsg index =>
    match NymphInternalTypes.ofByte typecode with
    | some .booleanFalse | some .booleanTrue | some (.scalar _) => .setsOther
    | some .emptyString => .setsEmptyString
    | some .string => stringKind (taggedLength binmsg index = some 0)
    | some .array | some .struct => .accumulates
    | some .null | some .none | some .void | none => .keeps

end ValueCall

/-! ### Effects -/

/-- What a call does to any object. -/
inductive Effect
  | keep
  | boolean (b : Bool)
  | scalar (k : Scalar) (bits : BitVec (8 * k.width))
  | string (length : UInt64) (strLength : UInt32) (empty own : Bool) (chars : CharPtr)
  | array (length : UInt64) (own : Bool) (vector : List NymphType)
  | struct (length : UInt64) (own : Bool) (pairs : List NymphPair)
  | addArray (length : UInt64) (vector : List NymphType)
  | addStruct (length : UInt64) (pairs : List NymphPair)

namespace Effect

/-- The object with the effect. -/
def apply (self : NymphType) : Effect → NymphType
  | keep => self
  | boolean b => .boolean { self.members with length := 1 } b
  | scalar k bits => .scalar { self.members with length := .ofNat (1 + k.width) } k bits
  | string length strLength empty own chars =>
    .string { self.members with
      length := length
      strLength := strLength
      own := own
      emptyString := self.members.emptyString || empty } chars
  | array length own vector => .array { self.members with own := own, length := length } vector
  | struct length own pairs => .struct { self.members with own := own, length := length } pairs
  | addArray length vector =>
    .array { self.members with own := true, length := self.members.length + length } vector
  | addStruct length pairs =>
    .struct { self.members with own := true, length := self.members.length + length } pairs

/-- How much the effect overwrites. -/
def kind : Effect → CallKind
  | keep => .keeps
  | boolean _ | scalar _ _ | array _ _ _ | struct _ _ _ => .setsOther
  | string _ _ empty _ _ => stringKind (empty = true)
  | addArray _ _ | addStruct _ _ => .accumulates

end Effect

/-- A setter has an effect. -/
theorem setValue_effect (v : ValueArgument) :
    ∃ e : Effect, e.kind = (ValueCall.setValue v).kind ∧
      ∀ self, self.setValue v = e.apply self := by
  cases v with
  | bool v => exact ⟨.boolean v, rfl, fun _ => rfl⟩
  | scalar k v => exact ⟨.scalar k v, rfl, fun _ => rfl⟩
  | chars v bytes own =>
    refine ⟨.string (binaryStringLength bytes.toUInt64) bytes (decide (bytes = 0)) own v, ?_,
      fun _ => rfl⟩
    simp only [Effect.kind, ValueCall.kind, stringKind, decide_eq_true_eq]
  | string v own =>
    refine ⟨.string (binaryStringLength (.ofNat v.length)) (.ofNat v.length)
      (decide (UInt32.ofNat v.length = 0)) own (.block v 0), ?_, fun _ => rfl⟩
    simp only [Effect.kind, ValueCall.kind, stringKind, decide_eq_true_eq]
  | vector v own => exact ⟨.array (sumBytes v + 10) own v, rfl, fun _ => rfl⟩
  | pairs v own => exact ⟨.struct (sumPairBytes v + 2) own v, rfl, fun _ => rfl⟩

/-- The call has this effect on every object. -/
def ValueCall.HasEffect (c : ValueCall) (e : Effect) : Prop :=
  e.kind = c.kind ∧ ∀ self, c.apply self = some (e.apply self)

/-- The call fails on every object. -/
def ValueCall.Fails (c : ValueCall) : Prop := ∀ self, c.apply self = none

section

variable {u : ℤ → Uninit} {fuel : ℕ} {tc : UInt8} {binmsg : Bytes} {index : ℤ}

/-- A parse that stops with a fault on every object fails. -/
theorem fails_of_error
    (h : ∀ self, ∃ e, (parseValue u fuel self tc binmsg index).result = .error e) :
    (ValueCall.parseValue u fuel tc binmsg index).Fails := by
  intro self
  obtain ⟨e, he⟩ := h self
  rw [ValueCall.apply, he]

/-- A parse that returns false on every object fails. -/
theorem fails_of_false
    (h : ∀ self, ∃ t i, (parseValue u fuel self tc binmsg index).result = .ok ⟨false, t, i⟩) :
    (ValueCall.parseValue u fuel tc binmsg index).Fails := by
  intro self
  obtain ⟨t, i, hresult⟩ := h self
  rw [ValueCall.apply, hresult]
  rfl

/-- A parse that fills in every object alike has that effect. -/
theorem hasEffect_of_result {e : Effect}
    (hkind : e.kind = (ValueCall.parseValue u fuel tc binmsg index).kind)
    (h : ∀ self, ∃ i,
      (parseValue u fuel self tc binmsg index).result = .ok ⟨true, e.apply self, i⟩) :
    (ValueCall.parseValue u fuel tc binmsg index).HasEffect e := by
  refine ⟨hkind, fun self => ?_⟩
  obtain ⟨i, hresult⟩ := h self
  rw [ValueCall.apply, hresult]
  rfl

/-- The string case has an effect, or fails. -/
theorem string_effect (htc : NymphInternalTypes.ofByte tc = some .string) :
    (∃ e, (ValueCall.parseValue u (fuel + 1) tc binmsg index).HasEffect e) ∨
      (ValueCall.parseValue u (fuel + 1) tc binmsg index).Fails := by
  have hparse : ∀ self, parseValue u (fuel + 1) self tc binmsg index =
      parseString self binmsg index := by
    intro self
    rw [parseValue, htc]
  cases htag : Buffer.get? binmsg index with
  | none =>
    refine .inr (fails_of_error fun self => ⟨.outOfBounds index, ?_⟩)
    rw [hparse, parseString, readByte, htag]
    rfl
  | some tag =>
    cases ht : LengthTag.ofByte tag with
    | none =>
      refine .inr (fails_of_false fun self => ⟨self, Buffer.int32 (index + 1), ?_⟩)
      rw [hparse, parseString, readByte_eq htag]
      simp only [Traced.pure_bind, ht, Traced.result_pure]
    | some t =>
      cases hbs : Buffer.slice? binmsg (Buffer.int32 (index + 1)) t.width with
      | none =>
        refine .inr (fails_of_error fun self => ?_)
        rw [hparse, parseString, readByte_eq htag]
        simp only [Traced.pure_bind, ht, memcpy, hbs]
        exact ⟨_, rfl⟩
      | some bs =>
        let chars := Buffer.int32 (Buffer.int32 (index + 1) + t.width)
        refine .inl ⟨.string (binaryStringLength (.ofNat (ofBytes bs))) (.ofNat (ofBytes bs))
          (decide (ofBytes bs = 0)) false (.block binmsg chars),
          hasEffect_of_result ?_ fun self => ⟨Buffer.int32 (chars + ofBytes bs), ?_⟩⟩
        · simp [Effect.kind, ValueCall.kind, htc, taggedLength, htag, ht, hbs]
        · rw [hparse, parseString, readByte_eq htag]
          simp only [Traced.pure_bind, ht, memcpy_eq hbs]
          rfl

/-- The case of a fixed-width value has an effect, or fails. -/
theorem scalar_effect {k : Scalar} (htc : NymphInternalTypes.ofByte tc = some (.scalar k)) :
    (∃ e, (ValueCall.parseValue u (fuel + 1) tc binmsg index).HasEffect e) ∨
      (ValueCall.parseValue u (fuel + 1) tc binmsg index).Fails := by
  cases hbs : Buffer.slice? binmsg index k.width with
  | none =>
    refine .inr (fails_of_error fun self => ?_)
    rw [parseValue]
    simp only [htc, memcpy, hbs]
    exact ⟨_, rfl⟩
  | some bs =>
    refine .inl ⟨.scalar k (.ofNat _ (ofBytes bs)),
      hasEffect_of_result ?_ fun self => ⟨Buffer.int32 (index + k.width), ?_⟩⟩
    · simp [Effect.kind, ValueCall.kind, htc]
    · rw [parseValue]
      simp only [htc, memcpy_eq hbs, Traced.pure_bind, Traced.result_pure, Effect.apply]

/-- The array case has an effect, or fails. -/
theorem array_effect (htc : NymphInternalTypes.ofByte tc = some .array) :
    (∃ e, (ValueCall.parseValue u (fuel + 1) tc binmsg index).HasEffect e) ∨
      (ValueCall.parseValue u (fuel + 1) tc binmsg index).Fails := by
  cases hcount : Buffer.slice? binmsg index 8 with
  | none =>
    refine .inr (fails_of_error fun self => ?_)
    rw [parseValue]
    simp only [htc, memcpy, hcount]
    exact ⟨_, rfl⟩
  | some count =>
    by_cases hmax : vectorMaxSize < ofBytes count
    · refine .inr (fails_of_error fun self => ⟨.lengthError, ?_⟩)
      rw [parseValue]
      simp only [htc, memcpy_eq hcount, Traced.pure_bind, if_pos hmax, Traced.result_fault]
    · cases hvec : (parseElements u fuel (ofBytes count) binmsg
          (Buffer.int32 (index + 8))).result with
      | error e =>
        refine .inr (fails_of_error fun self => ⟨e, ?_⟩)
        rw [parseValue]
        simp only [htc, memcpy_eq hcount, Traced.pure_bind, if_neg hmax]
        exact Traced.result_bind_eq_error.mpr (.inl hvec)
      | ok r =>
        obtain ⟨vec, stop⟩ := r
        cases hend : Buffer.get? binmsg stop with
        | none =>
          refine .inr (fails_of_error fun self => ⟨.outOfBounds stop, ?_⟩)
          rw [parseValue]
          simp only [htc, memcpy_eq hcount, Traced.pure_bind, if_neg hmax]
          rw [Traced.result_bind_of_ok hvec, readByte, hend]
          rfl
        | some close =>
          refine .inl ⟨.addArray (sumBytes vec + 10) vec,
            hasEffect_of_result ?_ fun self => ⟨Buffer.int32 (stop + 1), ?_⟩⟩
          · simp [Effect.kind, ValueCall.kind, htc]
          · obtain rfl := NymphInternalTypes.toByte_of_ofByte htc
            rw [parseValue_array (memcpy_eq hcount) hmax hvec hend, Effect.apply, UInt64.add_assoc]

/-- The struct case has an effect, or fails. -/
theorem struct_effect (htc : NymphInternalTypes.ofByte tc = some .struct) :
    (∃ e, (ValueCall.parseValue u (fuel + 1) tc binmsg index).HasEffect e) ∨
      (ValueCall.parseValue u (fuel + 1) tc binmsg index).Fails := by
  cases hpairs : (parsePairs u fuel binmsg index [] 0).result with
  | error e =>
    refine .inr (fails_of_error fun self => ⟨e, ?_⟩)
    rw [parseValue]
    simp only [htc]
    exact Traced.result_bind_eq_error.mpr (.inl hpairs)
  | ok r =>
    by_cases hok : r.ok = true
    · refine .inl ⟨.addStruct (r.length + 2) r.pairs,
        hasEffect_of_result ?_ fun self => ⟨r.index, ?_⟩⟩
      · simp [Effect.kind, ValueCall.kind, htc]
      · rw [parseValue]
        simp only [htc]
        rw [Traced.result_bind_of_ok hpairs, if_pos hok, Traced.result_pure, Effect.apply,
          UInt64.add_assoc]
    · refine .inr (fails_of_false fun self => ⟨self.setMembers { self.members with
        length := self.members.length + r.length }, r.index, ?_⟩)
      rw [parseValue]
      simp only [htc]
      rw [Traced.result_bind_of_ok hpairs, if_neg hok, Traced.result_pure]

/-- A parse has an effect, or fails. -/
theorem parseValue_effect (u : ℤ → Uninit) (fuel : ℕ) (tc : UInt8) (binmsg : Bytes) (index : ℤ) :
    (∃ e, (ValueCall.parseValue u fuel tc binmsg index).HasEffect e) ∨
      (ValueCall.parseValue u fuel tc binmsg index).Fails := by
  cases fuel with
  | zero => exact .inr (fails_of_error fun self => ⟨.outOfFuel, rfl⟩)
  | succ fuel =>
    cases htc : NymphInternalTypes.ofByte tc with
    | none =>
      refine .inl ⟨.keep, hasEffect_of_result (by simp [Effect.kind, ValueCall.kind, htc])
        fun self => ⟨index, ?_⟩⟩
      rw [parseValue]
      simp only [htc, Traced.result_pure, Effect.apply]
    | some c =>
      cases c with
      | string => exact string_effect htc
      | array => exact array_effect htc
      | struct => exact struct_effect htc
      | scalar k => exact scalar_effect htc
      | booleanFalse =>
        refine .inl ⟨.boolean false,
          hasEffect_of_result (by simp [Effect.kind, ValueCall.kind, htc])
            fun self => ⟨index, ?_⟩⟩
        rw [parseValue]
        simp only [htc, Traced.result_pure, Effect.apply]
      | booleanTrue =>
        refine .inl ⟨.boolean true,
          hasEffect_of_result (by simp [Effect.kind, ValueCall.kind, htc])
            fun self => ⟨index, ?_⟩⟩
        rw [parseValue]
        simp only [htc, Traced.result_pure, Effect.apply]
      | emptyString =>
        refine .inl ⟨.string (binaryStringLength 0) 0 true false .null,
          hasEffect_of_result (by simp [Effect.kind, ValueCall.kind, stringKind, htc])
            fun self => ⟨index, ?_⟩⟩
        rw [parseValue]
        simp only [htc, Traced.result_pure, Effect.apply, Bool.or_true]
      | null | none | void =>
        refine .inl ⟨.keep, hasEffect_of_result (by simp [Effect.kind, ValueCall.kind, htc])
          fun self => ⟨index, ?_⟩⟩
        rw [parseValue]
        simp only [htc, Traced.result_pure, Effect.apply]

end

/-- A call has the same effect on every object, or fails on every object. -/
theorem ValueCall.effect (c : ValueCall) : (∃ e, c.HasEffect e) ∨ c.Fails := by
  cases c with
  | setValue v =>
    obtain ⟨e, hkind, he⟩ := setValue_effect v
    exact .inl ⟨e, hkind, fun self => congrArg some (he self)⟩
  | parseValue u fuel tc binmsg index => exact parseValue_effect u fuel tc binmsg index

/-- A call that succeeds on one object has an effect. -/
theorem ValueCall.hasEffect_of_apply {c : ValueCall} {self t : NymphType}
    (h : c.apply self = some t) : ∃ e, c.HasEffect e := by
  rcases c.effect with he | hfails
  · exact he
  · rw [hfails self] at h
    cases h

/-! ### What is left of earlier calls -/

/-- Two objects look the same from outside. -/
structure SameFromOutside (t t' : NymphType) : Prop where
  valuetype : t.valuetype = t'.valuetype
  bytes : t.bytes = t'.bytes
  stringLength : t.stringLength = t'.stringLength
  serialize : t.serialize = t'.serialize

/-- Nothing that the call leaves as it is tells the object from one made in the memory `u`. -/
def CallKind.NoTrace (t : NymphType) (u : Uninit) : CallKind → Prop
  | setsEmptyString => True
  | setsString => t.members.emptyString = false
  | setsOther => t.stringLength = u.strLength
  | accumulates => t.stringLength = u.strLength ∧ t.bytes = u.length
  | keeps => t.stringLength = u.strLength ∧ t.bytes = u.length ∧ t.valuetype = .null

/-- A null object serialises to nothing. -/
theorem serialize_of_null {t : NymphType} (h : t.valuetype = .null) : t.serialize = [] := by
  cases t <;> first | rfl | cases h

/-- An object that counts as an empty string is written with another typecode. -/
theorem serializeString_ne {m m' : Members} {chars chars' : CharPtr} (h : m.emptyString = true)
    (h' : m'.emptyString = false) : serializeString m chars ≠ serializeString m' chars' := by
  intro heq
  simp only [serializeString, h, h', if_true, Bool.false_eq_true, if_false, List.cons_append,
    List.cons.injEq] at heq
  exact absurd heq.1 (by decide)

/-- An effect makes an object look like a fresh one with that effect exactly if it leaves no
trace. -/
theorem Effect.sameFromOutside_iff (e : Effect) (t : NymphType) (u : Uninit) :
    SameFromOutside (e.apply t) (e.apply (fresh u)) ↔ e.kind.NoTrace t u := by
  cases e with
  | keep =>
    constructor
    · intro h
      exact ⟨h.stringLength, h.bytes, h.valuetype⟩
    · rintro ⟨hstring, hbytes, htype⟩
      exact ⟨htype, hbytes, hstring, serialize_of_null htype⟩
  | boolean b => exact ⟨fun h => h.stringLength, fun h => ⟨rfl, rfl, h, rfl⟩⟩
  | scalar k bits => exact ⟨fun h => h.stringLength, fun h => ⟨rfl, rfl, h, rfl⟩⟩
  | array length own vector => exact ⟨fun h => h.stringLength, fun h => ⟨rfl, rfl, h, rfl⟩⟩
  | struct length own pairs => exact ⟨fun h => h.stringLength, fun h => ⟨rfl, rfl, h, rfl⟩⟩
  | addArray length vector =>
    constructor
    · intro h
      exact ⟨h.stringLength, (UInt64.add_left_inj _).mp h.bytes⟩
    · rintro ⟨hstring, hbytes⟩
      exact ⟨rfl, congrArg (· + length) hbytes, hstring, rfl⟩
  | addStruct length pairs =>
    constructor
    · intro h
      exact ⟨h.stringLength, (UInt64.add_left_inj _).mp h.bytes⟩
    · rintro ⟨hstring, hbytes⟩
      exact ⟨rfl, congrArg (· + length) hbytes, hstring, rfl⟩
  | string length strLength empty own chars =>
    cases empty with
    | true =>
      refine ⟨fun _ => trivial, fun _ => ⟨rfl, rfl, rfl, ?_⟩⟩
      simp only [Effect.apply, Bool.or_true, NymphType.serialize, serializeString]
    | false =>
      constructor
      · intro h
        by_contra hempty
        have hset : t.members.emptyString = true := Bool.of_not_eq_false hempty
        refine serializeString_ne ?_ ?_ h.serialize
        · simp only [hset, Bool.true_or]
        · rfl
      · intro h
        have hclear : t.members.emptyString = false := h
        refine ⟨rfl, rfl, rfl, ?_⟩
        simp only [Effect.apply, NymphType.serialize, serializeString, hclear]
        rfl

/-- An effect sets `emptyString` exactly if it is that of an empty string, and never resets it. -/
theorem Effect.emptyString_apply (e : Effect) (t : NymphType) :
    (e.apply t).members.emptyString =
      (t.members.emptyString || decide (e.kind = .setsEmptyString)) := by
  cases e with
  | string length strLength empty own chars => cases empty <;> rfl
  | _ => simp [Effect.apply, Effect.kind, members]

/-- After any calls `emptyString` tells whether one of them set an empty string. -/
theorem ValueCall.emptyString_run {cs : List ValueCall} {self t : NymphType}
    (h : ValueCall.run self cs = some t) :
    t.members.emptyString =
      (self.members.emptyString || cs.any fun c => decide (c.kind = .setsEmptyString)) := by
  induction cs generalizing self with
  | nil =>
    cases h
    simp
  | cons c cs ih =>
    rw [ValueCall.run, List.foldlM_cons] at h
    obtain ⟨t₁, hc, hcs⟩ := Option.bind_eq_some_iff.mp h
    obtain ⟨e, hkind, he⟩ := ValueCall.hasEffect_of_apply hc
    rw [he self] at hc
    obtain rfl := Option.some.inj hc
    rw [ih hcs, e.emptyString_apply, hkind, List.any_cons, Bool.or_assoc]

/-- Nothing that the last call leaves as it is, and the calls `before` it made of the object `t`,
tells the object from one made in the memory `u`. -/
structure ValueCall.LeavesNoTrace (before : List ValueCall) (t : NymphType) (u : Uninit)
    (c : ValueCall) : Prop where
  emptyString : c.kind = .setsString → ∀ b ∈ before, b.kind ≠ .setsEmptyString
  strLength : c.kind ∈ [.setsOther, .accumulates, .keeps] → t.stringLength = u.strLength
  length : c.kind ∈ [.accumulates, .keeps] → t.bytes = u.length
  type : c.kind = .keeps → t.valuetype = .null

/-- For an object that was fresh, no trace of the earlier calls is what is left of none. -/
theorem ValueCall.leavesNoTrace_iff {u u' : Uninit} {before : List ValueCall} {t : NymphType}
    (h : ValueCall.run (fresh u) before = some t) (c : ValueCall) :
    c.LeavesNoTrace before t u' ↔ c.kind.NoTrace t u' := by
  have hempty : t.members.emptyString = false ↔ ∀ b ∈ before, b.kind ≠ .setsEmptyString := by
    rw [ValueCall.emptyString_run h]
    simp [fresh, members]
  constructor
  · rintro ⟨hstring, hlen, hbytes, htype⟩
    cases hk : c.kind with
    | setsEmptyString => trivial
    | setsString => exact hempty.mpr (hstring hk)
    | setsOther => exact hlen (by simp [hk])
    | accumulates => exact ⟨hlen (by simp [hk]), hbytes (by simp [hk])⟩
    | keeps => exact ⟨hlen (by simp [hk]), hbytes (by simp [hk]), htype hk⟩
  · intro hno
    cases hk : c.kind with
    | setsEmptyString => constructor <;> simp [hk]
    | setsString =>
      rw [hk] at hno
      exact ⟨fun _ => hempty.mp hno, by simp [hk], by simp [hk], by simp [hk]⟩
    | setsOther =>
      rw [hk] at hno
      exact ⟨by simp [hk], fun _ => hno, by simp [hk], by simp [hk]⟩
    | accumulates =>
      rw [hk] at hno
      exact ⟨by simp [hk], fun _ => hno.1, fun _ => hno.2, by simp [hk]⟩
    | keeps =>
      rw [hk] at hno
      exact ⟨by simp [hk], fun _ => hno.1, fun _ => hno.2.1, fun _ => hno.2.2⟩

/-- The last of any calls leaves the object as it leaves a fresh one exactly if the earlier ones
left no trace that it does not overwrite. -/
theorem ValueCall.likeFresh_iff_leavesNoTrace {u : Uninit} {before : List ValueCall}
    {c : ValueCall} {t t' : NymphType} (h : ValueCall.run (fresh u) before = some t)
    (hc : c.apply t = some t') (u' : Uninit) :
    ∃ t₁, c.apply (fresh u') = some t₁ ∧
      (SameFromOutside t' t₁ ↔ c.LeavesNoTrace before t u') := by
  obtain ⟨e, hkind, he⟩ := ValueCall.hasEffect_of_apply hc
  rw [he t] at hc
  obtain rfl := Option.some.inj hc
  refine ⟨_, he (fresh u'), ?_⟩
  rw [ValueCall.leavesNoTrace_iff h, ← hkind]
  exact e.sameFromOutside_iff t u'

/-- A boolean leaves no trace that a string does not overwrite. -/
theorem likeFresh_booleanThenString :
    ∃ t₁, (ValueCall.setValue (.string [0x61] false)).apply (fresh ⟨5, 6⟩) = some t₁ ∧
      SameFromOutside
        (((fresh ⟨7, 8⟩).setValue (.bool true)).setValue (.string [0x61] false)) t₁ := by
  have hbefore : ValueCall.run (fresh ⟨7, 8⟩) [.setValue (.bool true)] =
      some ((fresh ⟨7, 8⟩).setValue (.bool true)) := rfl
  have hlast : (ValueCall.setValue (.string [0x61] false)).apply
      ((fresh ⟨7, 8⟩).setValue (.bool true)) = some _ := rfl
  obtain ⟨t₁, h₁, hiff⟩ := ValueCall.likeFresh_iff_leavesNoTrace hbefore hlast ⟨5, 6⟩
  refine ⟨t₁, h₁, hiff.mpr ?_⟩
  constructor <;> simp [ValueCall.kind, stringKind]

/-- After an empty string the string "a" is written with the typecode of an empty one. -/
theorem not_likeFresh_emptyThenString :
    ∃ t t₁, ValueCall.run (fresh ⟨0, 0⟩)
          [.setValue (.string [] false), .setValue (.string [0x61] false)] = some t ∧
      (ValueCall.setValue (.string [0x61] false)).apply (fresh ⟨0, 0⟩) = some t₁ ∧
        t.serialize = [NymphInternalTypes.emptyString.toByte, 0x61] ∧ ¬SameFromOutside t t₁ := by
  refine ⟨_, _, rfl, rfl, by decide, fun h => ?_⟩
  exact absurd h.serialize (by decide)

end NymphRpc
