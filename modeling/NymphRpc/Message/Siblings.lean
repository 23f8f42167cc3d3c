import NymphRpc.Message.Bounds
import NymphRpc.Message.DecodeAccepts
import NymphRpc.Types.Builds

/-!
# Nulls and empty keys among other values

Whether an object comes back from what it serialises to: the parser accepts it, stops at its
true end and gives back its value, whatever follows, and the parameter loop gives back a list
of objects. The objects that come back are exactly those without a null and an empty key that
the signed index can reach the end of. A null or an empty key anywhere leaves fewer bytes
than the parser takes for the value, so no decoding of them is right.
-/

namespace NymphRpc

open LittleEndian Buffer NymphType NymphMessage Traced

/-- The object is decoded from what it serialises to, whatever follows. -/
def Survives (u : ℤ → Uninit) (v : Value) (t : NymphType) : Prop :=
  ∃ tc rest, t.serialize = tc :: rest ∧ ∀ u₀ suffix, ∃ fuel,
    Runs (t.serialize ++ suffix) (parseValue u fuel (fresh u₀) tc (t.serialize ++ suffix) 1)
      fun r => r.ok = true ∧ r.index = t.serialize.length ∧ r.value.value = v

/-- The objects are decoded as the parameters of a message in which they follow `pre`. -/
def ParametersSurvive (u : ℤ → Uninit) (pre : Bytes) (vs : List Value) (ts : List NymphType) :
    Prop :=
  ∀ m : NymphMessage, m.values = [] → m.corrupt = false → ∃ fuel,
    Runs (pre ++ (serializeAll ts ++ [NymphInternalTypes.none.toByte]))
      (parseParameters u fuel (pre ++ (serializeAll ts ++ [NymphInternalTypes.none.toByte]))
        pre.length m)
      fun m' => m'.corrupt = false ∧ valueAll m'.values = vs

section

variable {u : ℤ → Uninit}

/-- A cursor is in the signed range. -/
theorem cursor_lt (p : ℕ) : cursor p < 2 ^ 31 := by
  unfold cursor int32
  omega

/-- The cursor behind the first byte. -/
theorem cursor_one : cursor (0 + 1) = 1 := cursor_eq (by decide)

/-- What a run that stays inside the buffer ensures holds of what it returns. -/
theorem Runs.ensured {α : Type} {binmsg : Bytes} {x : Decode α} {post post' : α → Prop}
    (h : Runs binmsg x post) (hx : ReadsInside binmsg x post') :
    Runs binmsg x fun a => post a ∧ post' a := by
  obtain ⟨a, ha, hpost, hlogs⟩ := h
  exact ⟨a, ha, ⟨hpost, (hx hlogs).1 a ha⟩, hlogs⟩

/-- An object that is decoded was written in as many bytes as the parser takes for its value. -/
theorem Survives.shortest_le {v : Value} {t : NymphType} (h : Survives u v t) :
    v.shortest ≤ t.serialize.length ∧ t.serialize.length < 2 ^ 31 := by
  obtain ⟨tc, rest, hser, h⟩ := h
  obtain ⟨fuel, hrun⟩ := h ⟨0, 0⟩ []
  have htc : Buffer.get? (t.serialize ++ []) (cursor 0) = some tc := by
    rw [cursor_eq (by omega), hser]
    rfl
  rw [← cursor_one] at hrun
  obtain ⟨r, -, ⟨⟨-, hend, hvalue⟩, q, hindex, -⟩, -⟩ :=
    hrun.ensured ((parse_reads u _ fuel).value _ tc 0 htc)
  have hlt := cursor_lt q
  rw [← hindex, hend] at hlt
  have hlen : t.serialize.length < 2 ^ 31 := by exact_mod_cast hlt
  have hbuf : (t.serialize ++ []).length < 2 ^ 32 := by
    rw [List.append_nil]
    omega
  obtain ⟨r', -, ⟨⟨-, -, hvalue'⟩, q', -, hle, hq'⟩, -⟩ :=
    hrun.ensured ((parse_takes hbuf u fuel).value _ tc 0 (Nat.zero_le _) htc)
  rw [hvalue'] at hle
  rw [List.append_nil] at hq'
  exact ⟨by omega, hlen⟩

/-- An encoding in the signed range is decoded, whatever follows. -/
theorem Denotes.survives {v : Value} {t : NymphType} (h : Denotes v.encode v)
    (hser : t.serialize = v.encode) (hlen : v.encode.length < 2 ^ 31) : Survives u v t := by
  have hpos := h.length_pos
  obtain ⟨tc, rest, henc⟩ := List.exists_cons_of_length_pos hpos
  refine ⟨tc, rest, by rw [hser, henc], fun u₀ suffix => ?_⟩
  rw [hser]
  have hself := Holds.self v.encode suffix
  obtain ⟨fuel, hparses⟩ := (h.reads hself (by omega)).parsesTo (u := u)
  refine ⟨fuel + v.encode.length, ?_⟩
  obtain ⟨tc', htc', hparse⟩ := h.parsesAs (u := u) (fuel + v.encode.length) (by omega) hself
    (by omega)
  have htc : Buffer.get? (v.encode ++ suffix) (cursor 0) = some tc := by
    rw [cursor_eq (by decide), henc]
    rfl
  have htc0 : Buffer.get? (v.encode ++ suffix) (0 : ℕ) = some tc := by
    rw [henc]
    rfl
  obtain rfl : tc = tc' := Option.some.inj (htc0.symm.trans htc')
  obtain ⟨t', ht', hvalue⟩ := hparse u₀
  obtain ⟨r, -, -, hlogs⟩ := hparses (fuel + v.encode.length) (by omega) (fresh u₀) tc
    (readable_fresh u₀) htc
  rw [cursor_one] at hlogs
  rw [Nat.zero_add] at ht'
  exact ⟨_, ht', ⟨rfl, rfl, hvalue⟩, hlogs⟩

/-- A built object is decoded exactly if it has no null and no empty key and the index reaches
its end. -/
theorem Builds.survives_iff {v : Value} {t : NymphType} (h : Builds v t) :
    Survives u v t ↔ v.hasNullOrEmptyKey = false ∧ v.encode.length < 2 ^ 31 := by
  constructor
  · intro hs
    obtain ⟨hle, hlt⟩ := hs.shortest_le
    have htoo := h.length_serialize
    have henc := v.length_encode_le
    refine ⟨?_, by omega⟩
    cases hnull : v.hasNullOrEmptyKey with
    | false => rfl
    | true =>
      rw [hnull, Bool.toNat_true] at htoo
      omega
  · rintro ⟨hplain, hlen⟩
    obtain ⟨hser, hden⟩ := h.encode hplain (by omega)
    exact hden.survives hser hlen

/-! ### Parameter lists -/

/-- The values of a list that goes on. -/
theorem shortestAll_append (vs ws : List Value) :
    Value.shortestAll (vs ++ ws) = Value.shortestAll vs + Value.shortestAll ws := by
  induction vs with
  | nil => simp [Value.shortestAll]
  | cons v vs ih => simp only [List.cons_append, Value.shortestAll, ih, Nat.add_assoc]

/-- The values of objects are taken one by one. -/
theorem valueAll_append (ts ts' : List NymphType) :
    valueAll (ts ++ ts') = valueAll ts ++ valueAll ts' := by
  simp only [valueAll_eq_map, List.map_append]

/-- A parameter loop that does not report corruption stops before the last byte, with at least
the shortest encodings of the values it appended behind it. -/
theorem takes_parseParameters {binmsg : Bytes} (hlen : binmsg.length < 2 ^ 32) (fuel : ℕ) {p : ℕ}
    (m : NymphMessage) (hp : p < binmsg.length) (hp31 : p < 2 ^ 31) :
    ReadsInside binmsg (parseParameters u fuel binmsg (cursor p) m) fun m' =>
      m'.corrupt = false → ∃ q, q < binmsg.length ∧ q < 2 ^ 31 ∧
        p + Value.shortestAll (valueAll m'.values) ≤
          q + Value.shortestAll (valueAll m.values) := by
  induction fuel generalizing p m with
  | zero => exact .fault trivial
  | succ fuel ih =>
    rw [parseParameters, pastEnd_eq_isNone]
    split_ifs with hend
    · exact .pure fun _ => ⟨p, hp, hp31, le_rfl⟩
    · apply ensures_readByte_bind (fun _ => trivial)
      intro tc htc
      split_ifs with hnone
      · exact .pure fun _ => ⟨p, hp, hp31, le_rfl⟩
      · rw [int32_cursor_succ]
        apply ((parse_takes hlen u fuel).value _ tc p hp.le htc).bind
        rintro val ⟨q, hindex, hq, hqend⟩
        refine Ensures.tell_bind fun _ => ⟨trivial, ?_⟩
        rw [hindex, pastEnd_eq_isNone]
        split_ifs with hend'
        · exact .pure fun h => by cases h
        · obtain ⟨tc', htc'⟩ : ∃ b, Buffer.get? binmsg (cursor q) = some b := by
            simpa [Option.ne_none_iff_exists'] using hend'
          obtain ⟨hq31, hqlen⟩ := lt_length_of_get? hlen hqend htc'
          refine (ih (m.pushLinked val.value) hqlen hq31).mono ?_ (fun _ h => h)
          intro m' hm' hcorrupt
          obtain ⟨e, he, he31, hle⟩ := hm' hcorrupt
          refine ⟨e, he, he31, ?_⟩
          simp only [pushLinked, addReference, valueAll_append, shortestAll_append, valueAll,
            value_linked, Value.shortestAll] at hle
          omega

/-- The values of the grammar before the terminator are read as parameters. -/
theorem DenotesAll.readsParameters {binmsg bs : Bytes} {vs : List Value} {p : ℕ}
    (hbs : DenotesAll bs vs) (h : Holds binmsg p (bs ++ [NymphInternalTypes.none.toByte]))
    (hp : p + bs.length < 2 ^ 31) : ReadsParameters binmsg p false := by
  cases hbs with
  | nil => exact .done (get?_cursor_of_holds h (by omega))
  | cons hv hvs =>
    rw [List.append_assoc] at h
    obtain ⟨hb, hbs⟩ := Holds.append_iff.mp h
    rw [List.length_append] at hp
    obtain ⟨tc, htc⟩ := (hv.reads hb (by omega)).typecode
    obtain ⟨tc', rest, hrest⟩ := List.exists_cons_of_ne_nil
      (List.append_ne_nil_of_right_ne_nil _ (List.cons_ne_nil _ _))
    have htc' := get?_cursor_of_holds (hrest ▸ hbs) (by omega)
    refine .more htc ?_ (hv.reads hb (by omega)) htc' (hvs.readsParameters hbs (by omega))
    rw [cursor_eq (by omega)] at htc
    exact hv.typecode_ne_none hb htc

/-- Built parameters are decoded exactly if there is no null and no empty key in them and the
index reaches the end of the message. -/
theorem BuildsAll.parametersSurvive_iff {pre : Bytes} {vs : List Value} {ts : List NymphType}
    (h : BuildsAll vs ts) (hpre : pre.length < 2 ^ 31)
    (hlen : (pre ++ (serializeAll ts ++ [NymphInternalTypes.none.toByte])).length < 2 ^ 32) :
    ParametersSurvive u pre vs ts ↔
      Value.hasNullOrEmptyKeyAll vs = false ∧
        pre.length + (Value.encodeAll vs).length < 2 ^ 31 := by
  constructor
  · intro hs
    obtain ⟨fuel, hrun⟩ := hs (ofMethodId ⟨0, 0⟩ 0) rfl rfl
    have hp : pre.length <
        (pre ++ (serializeAll ts ++ [NymphInternalTypes.none.toByte])).length := by
      simp only [List.length_append, List.length_singleton]
      omega
    rw [← cursor_eq hpre] at hrun
    obtain ⟨m', -, ⟨⟨hcorrupt, hvalues⟩, htakes⟩, -⟩ :=
      hrun.ensured (takes_parseParameters hlen fuel (ofMethodId ⟨0, 0⟩ 0) hp hpre)
    obtain ⟨q, hq, hq31, hle⟩ := htakes hcorrupt
    have htoo := h.length_serialize
    have henc := Value.length_encodeAll_le vs
    have hnil : Value.shortestAll (valueAll (ofMethodId ⟨0, 0⟩ 0).values) = 0 := rfl
    rw [hvalues, hnil] at hle
    simp only [List.length_append, List.length_singleton] at hq
    refine ⟨?_, by omega⟩
    cases hnull : Value.hasNullOrEmptyKeyAll vs with
    | false => rfl
    | true =>
      rw [hnull, Bool.toNat_true] at htoo
      omega
  · rintro ⟨hplain, hbound⟩ m hm hcorrupt
    obtain ⟨hser, hden⟩ := h.encode hplain (by omega)
    rw [hser]
    have hholds := Holds.append pre (Value.encodeAll vs ++ [NymphInternalTypes.none.toByte]) []
    rw [List.append_nil] at hholds
    obtain ⟨fuel, hruns⟩ := parseParameters_runs (u := u) (hden.readsParameters hholds hbound)
    refine ⟨fuel + (Value.encodeAll vs).length + 1, ?_⟩
    obtain ⟨ts', rc, hresult, hvalues⟩ := parseParameters_accepts (u := u) hden
      (fuel + (Value.encodeAll vs).length + 1) m (by omega) hholds hbound
    obtain ⟨m', -, -, hlogs⟩ := hruns (fuel + (Value.encodeAll vs).length + 1) (by omega) m
    rw [cursor_eq hpre] at hlogs
    refine ⟨_, hresult, ⟨hcorrupt, ?_⟩, hlogs⟩
    rw [hm, List.nil_append, hvalues]

end

/-- What is built, as a value of its own or as the parameters of a message, is decoded from
what it serialises to exactly if there is no null and no empty key in it and the index reaches
its end. -/
theorem survives_iff_noNullOrEmptyKey (u : ℤ → Uninit) {v : Value} {t : NymphType}
    {pre : Bytes} {vs : List Value} {ts : List NymphType} (hv : Builds v t) (hvs : BuildsAll vs ts)
    (hpre : pre.length < 2 ^ 31)
    (hlen : (pre ++ (serializeAll ts ++ [NymphInternalTypes.none.toByte])).length < 2 ^ 32) :
    (Survives u v t ↔ v.hasNullOrEmptyKey = false ∧ v.encode.length < 2 ^ 31) ∧
      (ParametersSurvive u pre vs ts ↔ Value.hasNullOrEmptyKeyAll vs = false ∧
        pre.length + (Value.encodeAll vs).length < 2 ^ 31) :=
  ⟨hv.survives_iff, hvs.parametersSurvive_iff hpre hlen⟩

/-- The array [true], and the parameter list with that array behind a header, are decoded. -/
theorem survives_arrayTrue :
    Survives (fun _ => ⟨0, 0⟩) (.array [.boolean true])
        (ofVector ⟨0, 0⟩ [ofBool ⟨0, 0⟩ true] false) ∧
      ParametersSurvive (fun _ => ⟨0, 0⟩) (List.replicate 17 0) [.array [.boolean true]]
        [ofVector ⟨0, 0⟩ [ofBool ⟨0, 0⟩ true] false] := by
  have hv : Builds (.array [.boolean true]) (ofVector ⟨0, 0⟩ [ofBool ⟨0, 0⟩ true] false) :=
    .array _ _ (.cons (.boolean _ _) .nil)
  obtain ⟨hvalue, hparameters⟩ := survives_iff_noNullOrEmptyKey (fun _ => ⟨0, 0⟩) hv
    (.cons hv .nil) (by decide : (List.replicate 17 (0 : UInt8)).length < 2 ^ 31) (by decide)
  exact ⟨hvalue.mpr ⟨rfl, by decide⟩, hparameters.mpr ⟨rfl, by decide⟩⟩

/-- The array [null], the struct with an empty key and the parameter list null, true are not. -/
theorem not_survives_null :
    ¬Survives (fun _ => ⟨0, 0⟩) (.array [.null]) (ofVector ⟨0, 0⟩ [fresh ⟨0, 0⟩] false) ∧
      ¬Survives (fun _ => ⟨0, 0⟩) (.struct [([], .boolean true)])
        (ofMap ⟨0, 0⟩ [.mk [] (ofString [] false) (ofBool ⟨0, 0⟩ true)] false) ∧
      ¬ParametersSurvive (fun _ => ⟨0, 0⟩) (List.replicate 17 0) [.null, .boolean true]
        [fresh ⟨0, 0⟩, ofBool ⟨0, 0⟩ true] := by
  have harray : Builds (.array [.null]) (ofVector ⟨0, 0⟩ [fresh ⟨0, 0⟩] false) :=
    .array _ _ (.cons (.null _) .nil)
  have hstruct : Builds (.struct [([], .boolean true)])
      (ofMap ⟨0, 0⟩ [.mk [] (ofString [] false) (ofBool ⟨0, 0⟩ true)] false) :=
    .struct _ _ (.cons (.string _ _) (.boolean _ _) .nil) (List.pairwise_singleton _ _)
  have hlist : BuildsAll [.null, .boolean true] [fresh ⟨0, 0⟩, ofBool ⟨0, 0⟩ true] :=
    .cons (.null _) (.cons (.boolean _ _) .nil)
  refine ⟨fun h => ?_, fun h => ?_, fun h => ?_⟩
  · cases (harray.survives_iff.mp h).1
  · cases (hstruct.survives_iff.mp h).1
  · cases ((hlist.parametersSurvive_iff (by decide) (by decide)).mp h).1

end NymphRpc
