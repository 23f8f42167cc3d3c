import NymphRpc.Types.Objects
import Mathlib.Data.List.Forall2
import Mathlib.Algebra.Order.BigOperators.Group.List

/-!
# Exact sizes of objects

If the recorded size of every object agrees with what its union holds, one level deep, then no
object leads back to itself, since the sizes decrease along the pointers, and `serialize()` writes
exactly `bytes()`. A call keeps this as long as it records no wrong size and does not change the
size of an object that another holds a pointer to.
-/

namespace NymphRpc

open LittleEndian NymphType

namespace Objects

/-- The recorded size of an object is that of its union over the recorded sizes behind it. -/
def Agrees (objs : Objects) (o : Object) : Prop :=
  o.members.length.toNat = match o.data with
    | .null => 0
    | .boolean _ => 1
    | .scalar k _ => 1 + k.width
    | .chars chars => (serializeString o.members chars).length
    | .vector elements => objs.sizes elements + 10
    | .pairs ps => objs.sizes (ps.flatMap fun p => [p.key, p.value]) + 2

/-- What is kept of every object: its pointers lead to objects, no empty string was set in it, and
its size agrees with its union. -/
structure Settled (objs : Objects) (o : Object) : Prop where
  live : ∀ c ∈ o.data.pointers, c < objs.length
  emptyString : o.members.emptyString = false
  agrees : Agrees objs o

section

variable {objs objs' : Objects} {o : Object} {p : ℕ}

/-- The size of an object. -/
theorem bytes_of_getElem? (h : objs[p]? = some o) : objs.bytes p = o.members.length := by
  rw [bytes, h]
  rfl

/-- Sizes that are the same behind each pointer. -/
theorem sizes_congr {ps : List ℕ} (h : ∀ c ∈ ps, objs'.bytes c = objs.bytes c) :
    objs'.sizes ps = objs.sizes ps := by
  rw [sizes, sizes]
  congr 1
  exact List.map_congr_left fun c hc => by rw [h c hc]

/-- An object stays settled while the sizes behind its pointers stay. -/
theorem Settled.congr (h : Settled objs o) (hlength : objs.length ≤ objs'.length)
    (hbytes : ∀ c ∈ o.data.pointers, objs'.bytes c = objs.bytes c) : Settled objs' o := by
  obtain ⟨hlive, hempty, hagrees⟩ := h
  obtain ⟨m, d⟩ := o
  refine ⟨fun c hc => (hlive c hc).trans_le hlength, hempty, ?_⟩
  cases d with
  | null | boolean _ | scalar _ _ | chars _ => exact hagrees
  | vector elements =>
    have hsizes : objs'.sizes elements = objs.sizes elements := sizes_congr hbytes
    exact hagrees.trans (congrArg (· + 10) hsizes.symm)
  | pairs ps =>
    have hsizes : objs'.sizes (ps.flatMap fun p => [p.key, p.value]) =
        objs.sizes (ps.flatMap fun p => [p.key, p.value]) := sizes_congr hbytes
    exact hagrees.trans (congrArg (· + 2) hsizes.symm)

end

/-- The size behind a pointer is part of the sizes. -/
theorem bytes_le_sizes (objs : Objects) {c : ℕ} {ps : List ℕ} (h : c ∈ ps) :
    (objs.bytes c).toNat ≤ objs.sizes ps :=
  List.le_sum_of_mem (List.mem_map_of_mem h)

/-- A function that finds a result for every element finds the list of them. -/
theorem exists_mapM {α β : Type} {f : α → Option β} {R : α → β → Prop} {l : List α}
    (h : ∀ a ∈ l, ∃ b, f a = some b ∧ R a b) : ∃ bs, l.mapM f = some bs ∧ List.Forall₂ R l bs := by
  induction l with
  | nil => exact ⟨[], rfl, .nil⟩
  | cons a l ih =>
    rw [List.forall_mem_cons] at h
    obtain ⟨b, hb, hab⟩ := h.1
    obtain ⟨bs, hbs, hlbs⟩ := ih h.2
    exact ⟨b :: bs, by simp [List.mapM_cons, hb, hbs], .cons hab hlbs⟩

section

variable {objs : Objects}

/-- A value is written in the size recorded behind its pointer. -/
def WrittenIn (objs : Objects) (c : ℕ) (t : NymphType) : Prop :=
  t.serialize.length = (objs.bytes c).toNat

/-- Values that are each written in their sizes. -/
theorem length_serializeAll {cs : List ℕ} {ts : List NymphType}
    (h : List.Forall₂ objs.WrittenIn cs ts) : (serializeAll ts).length = objs.sizes cs := by
  induction h with
  | nil => rfl
  | cons ht _ ih =>
    rw [serializeAll, List.length_append, ht, ih, sizes, sizes, List.map_cons, List.sum_cons]

/-- Entries whose keys and values are each written in their sizes. -/
theorem length_serializePairs {ps : List PairPtr} {ts : List NymphPair}
    (h : List.Forall₂ (fun p t => objs.WrittenIn p.key t.key ∧ objs.WrittenIn p.value t.value)
      ps ts) :
    (serializePairs ts).length = objs.sizes (ps.flatMap fun p => [p.key, p.value]) := by
  induction h with
  | nil => rfl
  | @cons p t ps ts ht _ ih =>
    obtain ⟨name, key, value⟩ := t
    obtain ⟨hkey, hvalue⟩ := ht
    simp only [NymphPair.key, NymphPair.value, WrittenIn] at hkey hvalue
    rw [serializePairs, List.length_append, List.length_append, hkey, hvalue, ih]
    simp only [sizes, List.flatMap_cons, List.map_append, List.sum_append, List.map_cons,
      List.map_nil, List.sum_cons, List.sum_nil]
    omega

/-- Among settled objects the pointers can be followed as far as the sizes reach, and every value
is written in its size. -/
theorem follow_of_settled (h : ∀ (p : ℕ) o, objs[p]? = some o → Settled objs o) (fuel : ℕ) {p : ℕ}
    (hp : p < objs.length) (hfuel : (objs.bytes p).toNat < fuel) :
    ∃ t, objs.follow fuel p = some t ∧ objs.WrittenIn p t := by
  induction fuel generalizing p with
  | zero => omega
  | succ fuel ih =>
    obtain ⟨o, ho⟩ : ∃ o, objs[p]? = some o := ⟨_, List.getElem?_eq_getElem hp⟩
    have hbytes := bytes_of_getElem? ho
    obtain ⟨hlive, -, hagrees⟩ := h p o ho
    have hfollow : ∀ c ∈ o.data.pointers, (objs.bytes c).toNat < (objs.bytes p).toNat →
        ∃ t, objs.follow fuel c = some t ∧ objs.WrittenIn c t :=
      fun c hc hlt => ih (hlive c hc) (by omega)
    obtain ⟨m, d⟩ := o
    rw [follow, ho, Option.bind_some]
    simp only [WrittenIn, hbytes] at hfollow ⊢
    cases d with
    | null => exact ⟨_, rfl, hagrees.symm⟩
    | boolean b => exact ⟨_, rfl, hagrees.symm⟩
    | scalar k bits =>
      have hlength : m.length.toNat = 1 + k.width := hagrees
      refine ⟨_, rfl, ?_⟩
      rw [NymphType.serialize, List.length_cons, toBytes_length, hlength, Nat.add_comm]
    | chars chars => exact ⟨_, rfl, hagrees.symm⟩
    | vector elements =>
      have hlength : m.length.toNat = objs.sizes elements + 10 := hagrees
      have hmem : ∀ c ∈ elements, ∃ t, objs.follow fuel c = some t ∧ objs.WrittenIn c t := by
        intro c hc
        have hle := objs.bytes_le_sizes hc
        exact hfollow c hc (by omega)
      obtain ⟨ts, hts, hwritten⟩ := exists_mapM hmem
      refine ⟨.array m ts, congrArg (Option.map (NymphType.array m)) hts, ?_⟩
      simp only [NymphType.serialize, List.length_cons, List.length_append, toBytes_length,
        length_serializeAll hwritten, List.length_nil, hlength]
      omega
    | pairs ps =>
      have hlength : m.length.toNat = objs.sizes (ps.flatMap fun p => [p.key, p.value]) + 2 :=
        hagrees
      have hmem : ∀ q ∈ ps, ∃ t, ((objs.follow fuel q.key).bind fun key =>
          (objs.follow fuel q.value).map (NymphPair.mk q.name key)) = some t ∧
            objs.WrittenIn q.key t.key ∧ objs.WrittenIn q.value t.value := by
        intro q hq
        have hkey : q.key ∈ ps.flatMap fun p => [p.key, p.value] :=
          List.mem_flatMap.mpr ⟨q, hq, by simp⟩
        have hvalue : q.value ∈ ps.flatMap fun p => [p.key, p.value] :=
          List.mem_flatMap.mpr ⟨q, hq, by simp⟩
        have hlekey := objs.bytes_le_sizes hkey
        have hlevalue := objs.bytes_le_sizes hvalue
        obtain ⟨key, hfollowKey, hwrittenKey⟩ := hfollow _ hkey (by omega)
        obtain ⟨value, hfollowValue, hwrittenValue⟩ := hfollow _ hvalue (by omega)
        refine ⟨.mk q.name key value, ?_, hwrittenKey, hwrittenValue⟩
        rw [hfollowKey, hfollowValue]
        rfl
      obtain ⟨ts, hts, hwritten⟩ := exists_mapM hmem
      refine ⟨.struct m ts, congrArg (Option.map (NymphType.struct m)) hts, ?_⟩
      simp only [NymphType.serialize, List.length_cons, List.length_append,
        length_serializePairs hwritten, List.length_nil, hlength]

/-- Adding up sizes over 64 bits gives their sum, for an object that is none of its elements. -/
theorem addBytes_toNat {p : ℕ} {cs : List ℕ} (hp : p ∉ cs) (length : UInt64)
    (hsize : length.toNat + objs.sizes cs < 2 ^ 64) :
    (addBytes objs p length cs).toNat = length.toNat + objs.sizes cs := by
  induction cs generalizing length with
  | nil => rfl
  | cons c cs ih =>
    rw [List.mem_cons, not_or] at hp
    have hcons : objs.sizes (c :: cs) = (objs.bytes c).toNat + objs.sizes cs := by
      simp [sizes]
    rw [hcons] at hsize ⊢
    have hadd : (length + objs.bytes c).toNat = length.toNat + (objs.bytes c).toNat := by
      rw [UInt64.toNat_add]
      omega
    rw [addBytes, if_neg (fun h => hp.1 h.symm), ih hp.2 _ (by omega), hadd]
    omega

/-- The recorded size of an array or a struct is the sum of the sizes in it and of what is around
them. -/
theorem addBytes_add_toNat {p : ℕ} {cs : List ℕ} (hp : p ∉ cs) (around : UInt64)
    (hsize : objs.sizes cs + around.toNat < 2 ^ 64) :
    (addBytes objs p 0 cs + around).toNat = objs.sizes cs + around.toNat := by
  have hzero : (0 : UInt64).toNat = 0 := rfl
  rw [UInt64.toNat_add, addBytes_toNat hp 0 (by omega), hzero]
  omega

/-- A string that is not empty is written in the size of its characters. -/
theorem length_serializeString {m : Members} {v : Bytes} {n : ℕ} (hlen : m.strLength.toNat = n)
    (hle : n ≤ v.length) (hpos : n ≠ 0) (hempty : m.emptyString = false)
    (hlength : m.length.toNat = Value.stringSize n) :
    m.length.toNat = (serializeString m (.block v 0)).length := by
  subst hlen
  have hzero : m.strLength ≠ 0 := fun h => hpos (by rw [h]; rfl)
  have hmeasured : Measured (.string m (.block v 0)) :=
    Measured.string (CharPtr.read_isSome hle) (by simp [hempty, hzero]) hlength
  have hcount : (NymphType.string m (.block v 0)).emptyStrings = 0 := if_neg hzero
  have htotal := hmeasured.length
  rw [hcount] at htotal
  exact htotal.symm

/-- Setting a sizable value records its size, which agrees with the new union. -/
theorem setMembers_agrees {p : ℕ} {m : Members} {a : Argument} (hdefined : a.Defined objs)
    (hsizable : a.Sizable objs) (hp : p ∉ a.data.pointers) (hempty : m.emptyString = false) :
    (setMembers objs p m a).length.toNat = a.size objs ∧
      (setMembers objs p m a).emptyString = false ∧
      Agrees objs ⟨setMembers objs p m a, a.data⟩ := by
  cases a with
  | bool v => exact ⟨rfl, hempty, rfl⟩
  | scalar k v =>
    have hk := k.width_bounds
    have hlength : (UInt64.ofNat (1 + k.width)).toNat = 1 + k.width := by
      rw [UInt64.toNat_ofNat']
      omega
    exact ⟨hlength, hempty, hlength⟩
  | chars v bytes own =>
    have hflag : (m.emptyString || decide (bytes = 0)) = false := by
      rw [hempty, decide_eq_false hsizable]
      rfl
    have hpos : bytes.toNat ≠ 0 := fun h => hsizable (UInt32.toNat_inj.mp h)
    have hlength := binaryStringLength_toUInt64 bytes
    exact ⟨hlength, hflag, length_serializeString rfl hdefined hpos hflag hlength⟩
  | string v own =>
    obtain ⟨hne, hlt⟩ := hsizable
    have hstr : (UInt32.ofNat v.length).toNat = v.length := uint32_ofNat_toNat hlt
    have hflag : (m.emptyString || decide (UInt32.ofNat v.length = 0)) = false := by
      rw [hempty, decide_length_eq_zero hlt, decide_eq_false hne]
      rfl
    have hpos : v.length ≠ 0 := fun h => hne (List.length_eq_zero_iff.mp h)
    have hlength := binaryStringLength_toNat hlt
    exact ⟨hlength, hflag, length_serializeString hstr le_rfl hpos hflag hlength⟩
  | vector v own =>
    have hsum := addBytes_add_toNat hp 10 hsizable
    exact ⟨hsum, hempty, hsum⟩
  | pairs v own =>
    have hsum := addBytes_add_toNat hp 2 hsizable
    exact ⟨hsum, hempty, hsum⟩

/-- The pointers of a defined argument lead to objects. -/
theorem live_of_defined {a : Argument} (h : a.Defined objs) :
    ∀ c ∈ a.data.pointers, c < objs.length := by
  cases a with
  | bool _ | scalar _ _ | chars _ _ _ | string _ _ => exact nofun
  | vector v own => exact h
  | pairs v own =>
    intro c hc
    obtain ⟨p, hp, hcp⟩ := List.mem_flatMap.mp hc
    rcases List.mem_pair.mp hcp with rfl | rfl
    · exact (h p hp).1
    · exact (h p hp).2

/-- Setting a value changes that object alone. -/
theorem getElem?_setValue_of_ne {p q : ℕ} (a : Argument) (h : q ≠ p) :
    (objs.setValue p a)[q]? = objs[q]? := by
  exact List.getElem?_modify_ne _ _ h.symm

/-- Setting a value changes the size of that object alone. -/
theorem bytes_setValue_of_ne {p c : ℕ} (a : Argument) (h : c ≠ p) :
    (objs.setValue p a).bytes c = objs.bytes c := by
  rw [bytes, bytes, getElem?_setValue_of_ne a h]

/-- Setting a sizable value settles the object, and the others stay settled if the size stays
where they hold a pointer to it. -/
theorem settled_setValue {p : ℕ} {a : Argument} (hp : p < objs.length)
    (hothers : ∀ (q : ℕ) o, objs[q]? = some o → q ≠ p → Settled objs o)
    (hempty : ∀ o, objs[p]? = some o → o.members.emptyString = false) (hdefined : a.Defined objs)
    (hsizable : a.Sizable objs) (hself : p ∉ a.data.pointers)
    (hkeep : ∀ (q : ℕ) o, objs[q]? = some o → q ≠ p → p ∈ o.data.pointers →
      a.size objs = (objs.bytes p).toNat) :
    ∀ (q : ℕ) o, (objs.setValue p a)[q]? = some o → Settled (objs.setValue p a) o := by
  obtain ⟨old, hold⟩ : ∃ o, objs[p]? = some o := ⟨_, List.getElem?_eq_getElem hp⟩
  have hnew : (objs.setValue p a)[p]? = some ⟨setMembers objs p old.members a, a.data⟩ := by
    rw [setValue, List.getElem?_modify_eq, hold]
    rfl
  have hlength : objs.length ≤ (objs.setValue p a).length := by
    rw [setValue, List.length_modify]
  obtain ⟨hsize, hflag, hagrees⟩ := setMembers_agrees hdefined hsizable hself (hempty old hold)
  intro q o hq
  by_cases hqp : q = p
  · subst hqp
    rw [hnew] at hq
    cases hq
    apply Settled.congr ⟨live_of_defined hdefined, hflag, hagrees⟩ hlength
    intro c hc
    exact bytes_setValue_of_ne a fun h => hself (h ▸ hc)
  · have hq' : objs[q]? = some o := by
      rwa [getElem?_setValue_of_ne a hqp] at hq
    apply (hothers q o hq' hqp).congr hlength
    intro c hc
    by_cases hcp : c = p
    · subst hcp
      rw [bytes_of_getElem? hnew]
      exact UInt64.toNat_inj.mp (hsize.trans (hkeep q o hq' hqp hc))
    · exact bytes_setValue_of_ne a hcp

/-- The objects before a new one keep their sizes. -/
theorem bytes_new_of_lt (u : Uninit) {c : ℕ} (h : c < objs.length) :
    (objs.new u).bytes c = objs.bytes c := by
  rw [bytes, bytes, new, List.getElem?_append_left h]

/-- The objects before a new one are settled as they were. -/
theorem settled_new (h : ∀ (p : ℕ) o, objs[p]? = some o → Settled objs o) (u : Uninit) (q : ℕ)
    (o : Object) (hq : (objs.new u)[q]? = some o) (hne : q ≠ objs.length) :
    (∀ c ∈ o.data.pointers, c < objs.length) ∧ Settled (objs.new u) o := by
  have hlt : q < objs.length := by
    have hbound : q < (objs.new u).length := (List.getElem?_eq_some_iff.mp hq).1
    rw [new, List.length_append, List.length_singleton] at hbound
    omega
  rw [new, List.getElem?_append_left hlt] at hq
  have hsettled := h q o hq
  refine ⟨hsettled.live, hsettled.congr (by simp [new]) fun c hc => ?_⟩
  exact bytes_new_of_lt u (hsettled.live c hc)

/-- A new object takes nothing from the arguments of a call. -/
theorem defined_new {a : Argument} (h : a.Defined objs) (u : Uninit) : a.Defined (objs.new u) := by
  have hle : objs.length ≤ (objs.new u).length := by simp [new]
  cases a with
  | bool _ | scalar _ _ | chars _ _ _ | string _ _ => exact h
  | vector v own => exact fun c hc => (h c hc).trans_le hle
  | pairs v own => exact fun p hp => ⟨(h p hp).1.trans_le hle, (h p hp).2.trans_le hle⟩

/-- A new object changes nothing about the size of an argument. -/
theorem size_new {a : Argument} (h : a.Defined objs) (u : Uninit) :
    a.size (objs.new u) = a.size objs := by
  have hsizes : (objs.new u).sizes a.data.pointers = objs.sizes a.data.pointers :=
    sizes_congr fun c hc => bytes_new_of_lt u (live_of_defined h c hc)
  cases a with
  | bool _ | scalar _ _ | chars _ _ _ | string _ _ => rfl
  | vector v own => exact congrArg (· + 10) hsizes
  | pairs v own => exact congrArg (· + 2) hsizes

/-- A new object changes nothing about whether an argument is sizable. -/
theorem sizable_new {a : Argument} (h : a.Defined objs) (hsizable : a.Sizable objs) (u : Uninit) :
    a.Sizable (objs.new u) := by
  have hsize := size_new h u
  cases a with
  | bool _ | scalar _ _ | chars _ _ _ | string _ _ => exact hsizable
  | vector v own | pairs v own => exact hsize.trans_lt hsizable

/-- A call that keeps the sizes keeps all objects settled. -/
theorem settled_apply {c : ObjectCall} (h : ∀ (p : ℕ) o, objs[p]? = some o → Settled objs o)
    (hdefined : c.Defined objs) (hkeeps : c.KeepsSizes objs) :
    ∀ (p : ℕ) o, (c.apply objs)[p]? = some o → Settled (c.apply objs) o := by
  cases c with
  | new u =>
    intro p o hp
    by_cases hne : p = objs.length
    · subst hne
      have ho : o = ⟨⟨u.length, u.strLength, false, false, false⟩, .null⟩ := by
        rw [ObjectCall.apply, new, List.getElem?_concat_length] at hp
        cases hp
        rfl
      subst ho
      exact ⟨nofun, rfl, congrArg UInt64.toNat hkeeps⟩
    · exact (settled_new h u p o hp hne).2
  | make u a =>
    have hlive := live_of_defined hdefined
    refine settled_setValue (by simp [new]) (fun q o hq hne => (settled_new h u q o hq hne).2) ?_
      (defined_new hdefined u) (sizable_new hdefined hkeeps u)
      (fun hmem => absurd (hlive _ hmem) (lt_irrefl _)) ?_
    · intro o ho
      rw [new, List.getElem?_concat_length] at ho
      cases ho
      rfl
    · intro q o hq hne hmem
      exact absurd ((settled_new h u q o hq hne).1 _ hmem) (lt_irrefl _)
  | setValue p a =>
    obtain ⟨hp, ha⟩ := hdefined
    obtain ⟨hsizable, hself, hkeep⟩ := hkeeps
    refine settled_setValue hp (fun q o hq _ => h q o hq) (fun o ho => (h p o ho).emptyString) ha
      hsizable hself fun q o hq _ hmem => hkeep ⟨o, List.mem_of_getElem? hq, hmem⟩

end

section

variable {objs : Objects} {p : ℕ} {t : NymphType}

end

/-- In a run of calls that keep the sizes all objects are settled. -/
theorem Reached.settled {objs : Objects} (h : Reached (fun objs c => c.KeepsSizes objs) objs) :
    ∀ (p : ℕ) o, objs[p]? = some o → Settled objs o := by
  induction h with
  | init => exact nofun
  | call c _ hdefined hkeeps ih => exact settled_apply ih hdefined hkeeps

/-- In a run of calls that keep the sizes every object is exact. -/
theorem Reached.exact {objs : Objects} (h : Reached (fun objs c => c.KeepsSizes objs) objs) {p : ℕ}
    (hp : p < objs.length) : objs.Exact p := by
  obtain ⟨t, hfollow, hwritten⟩ :=
    follow_of_settled h.settled ((objs.bytes p).toNat + 1) hp (Nat.lt_succ_self _)
  exact ⟨_, t, hfollow, hwritten⟩

end Objects

end NymphRpc
