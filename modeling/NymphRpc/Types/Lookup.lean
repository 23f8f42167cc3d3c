import NymphRpc.Types.ParseAccepts

/-!
# Looking values up

`getStructValue` and `getArray` lead from a parsed value to what is inside it. Neither looks at the
type of the object: where it is another, they read another member of the union, and nothing is
defined. A struct on the wire may have its pairs in any order and a key more than once; the parser
keeps the first pair of each key, so that is what is found under it, however deep the struct is
nested.
-/

namespace NymphRpc

open Buffer NymphType

/-! ### The getters -/

/-- What a step into a value does for which it was not made. -/
inductive GetterFault
  | otherMember
  | outOfRange
  deriving DecidableEq

namespace NymphType

/-- `getStructValue`, which is false if the map has no such key. -/
def getStructValue (key : Bytes) : NymphType → Except GetterFault (Option NymphType)
  | struct _ pairs => .ok ((OrderedMap.findEntry NymphPair.name key pairs).map NymphPair.value)
  | _ => .error .otherMember

/-- `getArray`. -/
def getArray : NymphType → Except GetterFault (List NymphType)
  | array _ vector => .ok vector
  | _ => .error .otherMember

end NymphType

/-- One step into a value: the value under a key, or the element at an index. -/
inductive Selector
  | key (k : Bytes)
  | index (i : ℕ)

/-- What a getter leads to. -/
def NymphType.select (t : NymphType) : Selector → Except GetterFault (Option NymphType)
  | .key k => t.getStructValue k
  | .index i => do
    let vector ← t.getArray
    match vector[i]? with
    | some inner => .ok (some inner)
    | none => .error .outOfRange

/-- What several lead to, one after the other, up to a key that is not there. -/
def NymphType.descend (t : NymphType) : List Selector → Except GetterFault (Option NymphType)
  | [] => .ok (some t)
  | s :: path => do
    match ← t.select s with
    | some inner => inner.descend path
    | none => .ok none

/-- The value that some steps lead to, each of which fits the value it is made into; or nothing,
where a struct does not have the key. -/
inductive Value.Leads : Value → List Selector → Option Value → Prop
  | here (v : Value) : Leads v [] (some v)
  | field {fs k f path r} (hf : OrderedMap.findEntry Prod.fst k fs = some f)
      (h : Leads f.2 path r) : Leads (.struct fs) (.key k :: path) r
  | missing {fs k path} (hf : OrderedMap.findEntry Prod.fst k fs = none) :
      Leads (.struct fs) (.key k :: path) none
  | element {vs i v path r} (hv : vs[i]? = some v) (h : Leads v path r) :
      Leads (.array vs) (.index i :: path) r

/-! ### Objects and values -/

/-- The entry of a key stands for the pair of the key. -/
theorem findEntry_valuePairs (key : Bytes) (pairs : List NymphPair) :
    OrderedMap.findEntry Prod.fst key (valuePairs pairs) =
      (OrderedMap.findEntry NymphPair.name key pairs).map fun p => (p.name, p.value.value) := by
  induction pairs with
  | nil => rfl
  | cons p pairs ih =>
    cases p with
    | mk name keyObject value =>
      rw [OrderedMap.findEntry, OrderedMap.findEntry] at ih
      rw [valuePairs, OrderedMap.findEntry, OrderedMap.findEntry, List.find?_cons, List.find?_cons]
      by_cases hname : name = key
      · simp [hname, NymphPair.name, NymphPair.value]
      · simpa [hname, NymphPair.name] using ih

/-- The object at an index stands for the value there. -/
theorem getElem?_valueAll (vector : List NymphType) (i : ℕ) :
    (valueAll vector)[i]? = vector[i]?.map value := by
  rw [valueAll_eq_map, List.getElem?_map]

/-- A key leads on from its entry, if there is one. -/
theorem descend_struct (m : Members) (pairs : List NymphPair) (k : Bytes) (path : List Selector) :
    (NymphType.struct m pairs).descend (.key k :: path) =
      match OrderedMap.findEntry NymphPair.name k pairs with
      | some p => p.value.descend path
      | none => .ok none := by
  rw [descend, select, getStructValue]
  cases OrderedMap.findEntry NymphPair.name k pairs <;> rfl

/-- An index leads on from the element, if there is one. -/
theorem descend_array (m : Members) (vector : List NymphType) (i : ℕ) (path : List Selector) :
    (NymphType.array m vector).descend (.index i :: path) =
      match vector[i]? with
      | some inner => inner.descend path
      | none => .error .outOfRange := by
  rw [descend, select, getArray]
  change (Except.bind (match vector[i]? with | some _ => _ | none => _) _) = _
  cases vector[i]? <;> rfl

/-- What the getters lead to is the object for the value that the steps lead to. -/
theorem leads_of_descend {t : NymphType} {path : List Selector} {found : Option NymphType}
    (h : t.descend path = .ok found) : t.value.Leads path (found.map value) := by
  induction path generalizing t with
  | nil =>
    cases h
    exact .here _
  | cons s path ih =>
    cases s with
    | key k =>
      cases t with
      | struct m pairs =>
        rw [descend_struct] at h
        have hvalue := findEntry_valuePairs k pairs
        cases hfind : OrderedMap.findEntry NymphPair.name k pairs with
        | none =>
          rw [hfind] at h hvalue
          cases h
          exact .missing hvalue
        | some p =>
          rw [hfind] at h hvalue
          exact .field hvalue (ih h)
      | null | boolean | scalar | string | array => cases h
    | index i =>
      cases t with
      | array m vector =>
        rw [descend_array] at h
        have hvalue := getElem?_valueAll vector i
        cases hget : vector[i]? with
        | none =>
          rw [hget] at h
          cases h
        | some inner =>
          rw [hget] at h hvalue
          exact .element hvalue (ih h)
      | null | boolean | scalar | string | struct => cases h

/-- Where all steps fit, the getters lead to the object for the value. -/
theorem descend_of_leads {v : Value} {path : List Selector} {r : Option Value}
    (h : v.Leads path r) {t : NymphType} (ht : t.value = v) :
    ∃ found, t.descend path = .ok found ∧ found.map value = r := by
  induction h generalizing t with
  | here v => exact ⟨some t, rfl, congrArg some ht⟩
  | field hf h ih =>
    cases t with
    | struct m pairs =>
      cases ht
      rw [findEntry_valuePairs] at hf
      obtain ⟨p, hfind, rfl⟩ := Option.map_eq_some_iff.mp hf
      rw [descend_struct, hfind]
      exact ih rfl
    | null | boolean | scalar | string | array => cases ht
  | missing hf =>
    cases t with
    | struct m pairs =>
      cases ht
      rw [findEntry_valuePairs, Option.map_eq_none_iff] at hf
      rw [descend_struct, hf]
      exact ⟨none, rfl, rfl⟩
    | null | boolean | scalar | string | array => cases ht
  | element hv h ih =>
    cases t with
    | array m vector =>
      cases ht
      rw [getElem?_valueAll] at hv
      obtain ⟨inner, hget, hinner⟩ := Option.map_eq_some_iff.mp hv
      rw [descend_array, hget]
      exact ih hinner
    | null | boolean | scalar | string | struct => cases ht

/-- Under a key of a struct is the first pair of the key. -/
theorem findEntry_collectPairs (key : Bytes) (fs : List (Bytes × Value)) :
    OrderedMap.findEntry Prod.fst key (collectPairs fs) =
      OrderedMap.findEntry Prod.fst key fs :=
  OrderedMap.findEntry_foldl_insertEntry fs List.Pairwise.nil

/-! ### Parsed values -/

/-- The getters find in a parsed struct what its bytes say. Whatever pairs the struct has, in
whatever order, each key any number of times, the parser succeeds. From the parsed object a key
that no pair has leads to nothing. A path that begins with any other key leads to an object for
the value to which the rest of it leads from the first pair of the key, or to nothing at a key that
is not there; and each of its steps fits just if each step of the rest does. -/
theorem descend_parsed {bs : Bytes} {fs : List (Bytes × Value)} (h : DenotesPairs bs fs)
    (u : ℤ → Uninit) {fuel : ℕ} {binmsg : Bytes} {p : ℕ} (hfuel : bs.length + 2 ≤ fuel)
    (hholds : Holds binmsg p
      (NymphInternalTypes.struct.toByte :: (bs ++ [NymphInternalTypes.none.toByte])))
    (hbound : p + (bs.length + 2) < 2 ^ 31) (u₀ : Uninit) :
    ∃ t, (parseValue u fuel (fresh u₀) NymphInternalTypes.struct.toByte binmsg
        (int32 (p + 1))).result = .ok ⟨true, t, ((p + (bs.length + 2) : ℕ) : ℤ)⟩ ∧
      (∀ key path, OrderedMap.findEntry Prod.fst key fs = none →
        t.descend (.key key :: path) = .ok none) ∧
      ∀ key f path r, OrderedMap.findEntry Prod.fst key fs = some f →
        ((∃ found, t.descend (.key key :: path) = .ok found ∧ found.map value = r) ↔
          f.2.Leads path r) := by
  have hlength : (NymphInternalTypes.struct.toByte ::
      (bs ++ [NymphInternalTypes.none.toByte])).length = bs.length + 2 := by
    simp
  obtain ⟨tc, htc, hparse⟩ := (Denotes.struct h).parsesAs (u := u) fuel
    (hlength.le.trans hfuel) hholds (by rw [hlength]; exact hbound)
  cases htc.symm.trans hholds.get?
  obtain ⟨t, ht, hvalue⟩ := hparse u₀
  rw [hlength] at ht
  refine ⟨t, ht, fun key path hnone => ?_, fun key f path r hf => ?_⟩
  · rw [← findEntry_collectPairs] at hnone
    obtain ⟨found, hfound, hmissing⟩ := descend_of_leads (.missing hnone) hvalue
    rw [hfound, Option.map_eq_none_iff.mp hmissing]
  · rw [← findEntry_collectPairs] at hf
    constructor
    · rintro ⟨found, hfound, hr⟩
      have hleads := leads_of_descend hfound
      rw [hvalue, hr] at hleads
      cases hleads with
      | field hf' hrest =>
        cases hf.symm.trans hf'
        exact hrest
      | missing hnone => cases hf.symm.trans hnone
    · intro hleads
      exact descend_of_leads (.field hf hleads) hvalue

/-- The key 'b' with an array of true and false, the key 'a' with null, and 'b' again with true. -/
def arrayAndNull : List (Bytes × Value) :=
  [([0x62], .array [.boolean true, .boolean false]), ([0x61], .null), ([0x62], .boolean true)]

/-- In a struct of these pairs the second element of the array is found under 'b', and nothing under
'c'; but it has no third element. -/
theorem descend_parsed_array : ∃ bs t, DenotesPairs bs arrayAndNull ∧
    (parseValue (fun _ => ⟨7, 7⟩) (bs.length + 2) (fresh ⟨9, 9⟩) NymphInternalTypes.struct.toByte
      (NymphInternalTypes.struct.toByte :: (bs ++ [NymphInternalTypes.none.toByte])) 1).result =
        .ok ⟨true, t, ((0 + (bs.length + 2) : ℕ) : ℤ)⟩ ∧
      (∃ found, t.descend [.key [0x62], .index 1] = .ok found ∧
        found.map value = some (.boolean false)) ∧
      t.descend [.key [0x63], .index 1] = .ok none ∧
      ¬∃ found, t.descend [.key [0x62], .index 2] = .ok found := by
  have hpairs : DenotesPairs _ arrayAndNull :=
    .cons .uint8 [0x62] (by decide) (.array (.cons .booleanTrue (.cons .booleanFalse .nil))
      (by decide)) (.cons .uint64 [0x61] (by decide) .null
        (.cons .uint16 [0x62] (by decide) .booleanTrue .nil))
  obtain ⟨t, ht, hnone, hsome⟩ := descend_parsed hpairs (fun _ => ⟨7, 7⟩) le_rfl (Holds.self _ [])
    (by decide) ⟨9, 9⟩
  rw [List.append_nil] at ht
  refine ⟨_, t, hpairs, ht, ?_, hnone [0x63] [.index 1] rfl, ?_⟩
  · exact (hsome [0x62] _ [.index 1] _ rfl).mpr (.element rfl (.here _))
  · rintro ⟨found, hfound⟩
    have hleads := (hsome [0x62] _ [.index 2] _ rfl).mp ⟨found, hfound, rfl⟩
    cases hleads with
    | element hv => cases hv

end NymphRpc
