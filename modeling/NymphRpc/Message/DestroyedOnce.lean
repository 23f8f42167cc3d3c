import Mathlib.Data.List.Nodup
import NymphRpc.Message.Destruction
import NymphRpc.Message.Holdings

/-!
# When a message is destroyed once

Destroying an object without links enters one destructor for each object it owns. The links
are all at the top: the reference count of a decoded message is the number of its linked
strings, arrays and structs, so as long as the message is not marked deleted, destroying those
brings the count to zero and deletes the message. `delete msg` does exactly that while the
destructor of the message is running; `discard` marks the message first, and the caller of a
method destroys the response alone.
-/

namespace NymphRpc

open NymphType NymphMessage Traced

/-- A string, an array or a struct, which a message counts while they are linked with it. -/
def Value.counted (v : Value) : Bool :=
  v.valuetype = .array ∨ v.valuetype = .struct ∨ v.valuetype = .string

/-- An object counts as its value does. -/
theorem NymphMessage.counted_value (t : NymphType) : t.value.counted = counted t := by
  cases t <;> rfl

namespace Destruction

/-! ### Objects without links -/

mutual

/-- The objects destroyed with the one at an address. -/
def nodes (a : Address) : NymphType → List Address
  | .array m vector => a :: if m.own then elementNodes a 0 vector else []
  | .struct m pairs => a :: if m.own then pairNodes a 0 pairs else []
  | .string _ _ | .null _ | .boolean _ _ | .scalar _ _ _ => [a]

/-- The objects destroyed with the elements of a vector. -/
def elementNodes (a : Address) : ℕ → List NymphType → List Address
  | _, [] => []
  | j, t :: ts => nodes (a ++ [j]) t ++ elementNodes a (j + 1) ts

/-- The objects destroyed with the entries of a map. -/
def pairNodes (a : Address) : ℕ → List NymphPair → List Address
  | _, [] => []
  | j, .mk _ key value :: ps =>
    nodes (a ++ [j]) key ++ (nodes (a ++ [j + 1]) value ++ pairNodes a (j + 2) ps)

end

@[simp] theorem recordAll_nil (d : Destruction) : d.recordAll [] = d := by
  simp [recordAll]

@[simp] theorem recordAll_recordAll (d : Destruction) (as bs : List Address) :
    (d.recordAll as).recordAll bs = d.recordAll (as ++ bs) := by
  simp [recordAll]

@[simp] theorem record_recordAll (d : Destruction) (a : Address) (as : List Address) :
    (d.record (.object a)).recordAll as = d.recordAll (a :: as) := by
  simp [record, recordAll]

section

variable {destroy : Destruction → Destruction}

mutual

/-- Destroying an unlinked object enters the destructors of the objects it owns. -/
theorem destroyType_unlinked (a : Address) : ∀ {t : NymphType}, t.Unlinked → ∀ d : Destruction,
    destroyType destroy a t d = d.recordAll (nodes a t)
  | .null _, _, _ => rfl
  | .boolean _ _, _, _ => rfl
  | .scalar _ _ _, _, _ => rfl
  | .string m _, h, d => by
    have hlink : m.linkedMsg = false := h
    simp only [destroyType, hlink, Bool.false_eq_true, if_false, nodes]
    rfl
  | .array m vector, h, d => by
    have hlink : m.linkedMsg = false := h.1
    simp only [destroyType, hlink, Bool.false_eq_true, if_false, nodes]
    split_ifs
    · rw [destroyElements_unlinked a h.2, record_recordAll]
    · rfl
  | .struct m pairs, h, d => by
    have hlink : m.linkedMsg = false := h.1
    simp only [destroyType, hlink, Bool.false_eq_true, if_false, nodes]
    split_ifs
    · rw [destroyPairs_unlinked a h.2, record_recordAll]
    · rfl

/-- Destroying unlinked elements. -/
theorem destroyElements_unlinked (a : Address) : ∀ {j : ℕ} {ts : List NymphType}, UnlinkedAll ts →
    ∀ d : Destruction, destroyElements destroy a j ts d = d.recordAll (elementNodes a j ts)
  | _, [], _, d => by simp only [destroyElements, elementNodes, recordAll_nil]
  | j, t :: ts, h, d => by
    rw [destroyElements, destroyType_unlinked _ h.1, destroyElements_unlinked a h.2,
      recordAll_recordAll, elementNodes]

/-- Destroying unlinked entries. -/
theorem destroyPairs_unlinked (a : Address) : ∀ {j : ℕ} {ps : List NymphPair}, UnlinkedPairs ps →
    ∀ d : Destruction, destroyPairs destroy a j ps d = d.recordAll (pairNodes a j ps)
  | _, [], _, d => by simp only [destroyPairs, pairNodes, recordAll_nil]
  | j, .mk _ key value :: ps, h, d => by
    rw [destroyPairs, destroyType_unlinked _ h.1, destroyType_unlinked _ h.2.1,
      destroyPairs_unlinked a h.2.2, recordAll_recordAll, recordAll_recordAll, pairNodes]

end

end

/-- An address hangs below one place of an object only. -/
theorem place_unique {a b : Address} {i j : ℕ} (hi : a ++ [i] <+: b) (hj : a ++ [j] <+: b) :
    i = j := by
  have hprefix := List.prefix_of_prefix_length_le hi hj (by simp)
  simpa using hprefix.eq_of_length (by simp)

/-- Addresses below the place `j` and addresses below later places, each once. -/
theorem append_below {a : Address} {j : ℕ} {as bs : List Address}
    (has : (∀ b ∈ as, a ++ [j] <+: b) ∧ as.Nodup)
    (hbs : (∀ b ∈ bs, ∃ i, j + 1 ≤ i ∧ a ++ [i] <+: b) ∧ bs.Nodup) :
    (∀ b ∈ as ++ bs, ∃ i, j ≤ i ∧ a ++ [i] <+: b) ∧ (as ++ bs).Nodup := by
  obtain ⟨hbelow, hnodup⟩ := has
  obtain ⟨hlater, hnodup'⟩ := hbs
  refine ⟨?_, List.Nodup.append hnodup hnodup' ?_⟩
  · intro b hb
    rcases List.mem_append.mp hb with hmem | hmem
    · exact ⟨j, le_rfl, hbelow b hmem⟩
    · obtain ⟨i, hi, hprefix⟩ := hlater b hmem
      exact ⟨i, by omega, hprefix⟩
  · intro b hb hb'
    obtain ⟨i, hi, hprefix⟩ := hlater b hb'
    have heq := place_unique (hbelow b hb) hprefix
    omega

/-- An object and addresses below its places, each once. -/
theorem cons_below {a : Address} {as : List Address}
    (has : (∀ b ∈ as, ∃ i, 0 ≤ i ∧ a ++ [i] <+: b) ∧ as.Nodup) :
    (∀ b ∈ a :: as, a <+: b) ∧ (a :: as).Nodup := by
  obtain ⟨hbelow, hnodup⟩ := has
  refine ⟨?_, List.nodup_cons.mpr ⟨?_, hnodup⟩⟩
  · intro b hb
    rcases List.mem_cons.mp hb with rfl | hmem
    · exact List.prefix_rfl
    · obtain ⟨i, -, hprefix⟩ := hbelow b hmem
      exact (List.prefix_append a [i]).trans hprefix
  · intro hmem
    obtain ⟨i, -, hprefix⟩ := hbelow a hmem
    have hle := hprefix.length_le
    simp at hle

mutual

/-- The objects destroyed with one all hang below it, and each is destroyed once. -/
theorem nodes_below (a : Address) : ∀ t : NymphType,
    (∀ b ∈ nodes a t, a <+: b) ∧ (nodes a t).Nodup
  | .null _ => by simp [nodes]
  | .boolean _ _ => by simp [nodes]
  | .scalar _ _ _ => by simp [nodes]
  | .string _ _ => by simp [nodes]
  | .array m vector => by
    rw [nodes]
    split_ifs
    · exact cons_below (elementNodes_below a 0 vector)
    · simp
  | .struct m pairs => by
    rw [nodes]
    split_ifs
    · exact cons_below (pairNodes_below a 0 pairs)
    · simp

/-- The objects destroyed with elements hang below places from `j` on, each once. -/
theorem elementNodes_below (a : Address) : ∀ (j : ℕ) (ts : List NymphType),
    (∀ b ∈ elementNodes a j ts, ∃ i, j ≤ i ∧ a ++ [i] <+: b) ∧ (elementNodes a j ts).Nodup
  | _, [] => by simp [elementNodes]
  | j, t :: ts => append_below (nodes_below (a ++ [j]) t) (elementNodes_below a (j + 1) ts)

/-- The objects destroyed with entries hang below places from `j` on, each once. -/
theorem pairNodes_below (a : Address) : ∀ (j : ℕ) (ps : List NymphPair),
    (∀ b ∈ pairNodes a j ps, ∃ i, j ≤ i ∧ a ++ [i] <+: b) ∧ (pairNodes a j ps).Nodup
  | _, [] => by simp [pairNodes]
  | j, .mk _ key value :: ps =>
    append_below (nodes_below (a ++ [j]) key)
      (append_below (nodes_below (a ++ [j + 1]) value) (pairNodes_below a (j + 2) ps))

end

/-! ### Linked objects -/

/-- The objects that one owns. -/
def childNodes (a : Address) (t : NymphType) : List Address := (nodes a t).tail

/-- An object is destroyed before those it owns. -/
theorem nodes_eq_cons (a : Address) (t : NymphType) : nodes a t = a :: childNodes a t := by
  cases t <;> simp [childNodes, nodes]

@[simp] theorem counted_linked (t : NymphType) : counted (linked t) = counted t := by
  simp [counted, linked]

section

variable {destroy : Destruction → Destruction}

/-- Destroying a linked object decrements the reference count if its type counts, and then
enters the destructors of the objects it owns. -/
theorem destroyType_linked (a : Address) {t : NymphType} (h : t.Unlinked) (d : Destruction) :
    destroyType destroy a (linked t) d =
      (if counted t then decrementReferenceCount destroy (d.record (.object a))
        else d.record (.object a)).recordAll (childNodes a t) := by
  cases t with
  | null m => simp [linked, setMembers, destroyType, counted, valuetype, childNodes, nodes]
  | boolean m b => simp [linked, setMembers, destroyType, counted, valuetype, childNodes, nodes]
  | scalar m k bits => simp [linked, setMembers, destroyType, counted, valuetype, childNodes, nodes]
  | string m chars =>
    simp [linked, setMembers, members, destroyType, counted, valuetype, childNodes, nodes]
  | array m vector =>
    have hcounted : counted (.array m vector) = true := by simp [counted, valuetype]
    rw [if_pos hcounted]
    simp only [linked, setMembers, members, destroyType, childNodes, nodes, List.tail_cons, if_true]
    split_ifs with hown
    · rw [destroyElements_unlinked a h.2]
    · rw [recordAll_nil]
  | struct m pairs =>
    have hcounted : counted (.struct m pairs) = true := by simp [counted, valuetype]
    rw [if_pos hcounted]
    simp only [linked, setMembers, members, destroyType, childNodes, nodes, List.tail_cons, if_true]
    split_ifs with hown
    · rw [destroyPairs_unlinked a h.2]
    · rw [recordAll_nil]

/-- A linked object does not touch the reference count if its type does not count or the
message is marked deleted. -/
theorem destroyType_linked_quiet (a : Address) {t : NymphType} (h : t.Unlinked) {d : Destruction}
    (hquiet : counted t = true → d.message.deleted = true) :
    destroyType destroy a (linked t) d = d.recordAll (nodes a t) := by
  rw [destroyType_linked a h, nodes_eq_cons]
  split_ifs with hcounted
  · have hdeleted : (d.record (.object a)).message.deleted = true := hquiet hcounted
    rw [decrementReferenceCount, if_pos hdeleted, record_recordAll]
  · rw [record_recordAll]

/-- The head and the tail of what is left of a list. -/
theorem drop_cons {α : Type} {l rest : List α} {a : α} {i : ℕ} (h : l.drop i = a :: rest) :
    l[i]? = some a ∧ l.drop (i + 1) = rest := by
  constructor
  · have hhead : (l.drop i)[0]? = some a := by simp [h]
    simpa using hhead
  · have htail : (l.drop i).drop 1 = rest := by simp [h]
    simpa using htail

/-- Parameters that leave the reference count alone are destroyed one after the other. -/
theorem destroyValues_quiet : ∀ {ts : List NymphType} {i : ℕ} {d : Destruction},
    d.message.values.drop i = ts.map linked → (∀ t ∈ ts, t.Unlinked) →
      (∀ t ∈ ts, counted t = true → d.message.deleted = true) →
        destroyValues destroy ts.length i d = d.recordAll (elementNodes [0] i ts)
  | [], i, d, _, _, _ => by simp [destroyValues, elementNodes]
  | t :: ts, i, d, hvalues, hunlinked, hquiet => by
    obtain ⟨hget, hrest⟩ := drop_cons hvalues
    rw [List.length_cons, destroyValues, hget]
    simp only
    rw [destroyType_linked_quiet [0, i] (hunlinked t (by simp)) (hquiet t (by simp))]
    rw [destroyValues_quiet (d := d.recordAll (nodes [0, i] t)) hrest
      (fun t' ht' => hunlinked t' (by simp [ht'])) (fun t' ht' => hquiet t' (by simp [ht'])),
      recordAll_recordAll, elementNodes]
    rfl

end

/-- Entering the destructor of the message, and destructors of objects that are all different,
enters each destructor once. -/
theorem nodup_destroyed {as : List Address} (h : as.Nodup) :
    (Destroyed.message :: as.map .object).Nodup := by
  refine List.nodup_cons.mpr ⟨by simp, h.map ?_⟩
  intro a b hab
  cases hab
  rfl

/-- The destructor of a message, up to the members it clears. -/
theorem log_destroyMessage (fuel : ℕ) (m : NymphMessage) :
    (destroyMessage (fuel + 1) ⟨m, []⟩).log = (destroyResponse (destroyMessage fuel)
      (destroyValues (destroyMessage fuel) m.values.length 0 ⟨m, [.message]⟩)).log := rfl

/-- A message that only holds parameters is destroyed once if they leave its count alone. -/
theorem nodup_of_quiet_parameters {m : NymphMessage} {ts : List NymphType} (fuel : ℕ)
    (hvalues : m.values = ts.map linked) (hunlinked : ∀ t ∈ ts, t.Unlinked)
    (hresponse : m.response = none) (hquiet : ∀ t ∈ ts, counted t = true → m.deleted = true) :
    (destroyMessage fuel ⟨m, []⟩).log.Nodup := by
  cases fuel with
  | zero => simp [destroyMessage, record]
  | succ fuel =>
    have hlength : m.values.length = ts.length := by simp [hvalues]
    rw [log_destroyMessage, hlength,
      destroyValues_quiet (d := ⟨m, [.message]⟩) (i := 0) hvalues hunlinked hquiet]
    simp only [destroyResponse, recordAll, hresponse]
    exact nodup_destroyed (elementNodes_below [0] 0 ts).2

/-- A message that only holds a response is destroyed once if that leaves its count alone. -/
theorem nodup_of_quiet_response {m : NymphMessage} {r t : NymphType} (fuel : ℕ)
    (hvalues : m.values = []) (hresponse : m.response = some r) (hunlinked : t.Unlinked)
    (hlink : r = t ∨ r = linked t ∧ (counted t = true → m.deleted = true)) :
    (destroyMessage fuel ⟨m, []⟩).log.Nodup := by
  cases fuel with
  | zero => simp [destroyMessage, record]
  | succ fuel =>
    rw [log_destroyMessage, hvalues]
    simp only [List.length_nil, destroyValues, destroyResponse, hresponse]
    split_ifs
    · have hrun : destroyType (destroyMessage fuel) [1] r ⟨m, [.message]⟩ =
          recordAll ⟨m, [.message]⟩ (nodes [1] t) := by
        rcases hlink with rfl | ⟨rfl, hquiet⟩
        · exact destroyType_unlinked [1] hunlinked _
        · exact destroyType_linked_quiet [1] hunlinked hquiet
      rw [hrun]
      exact nodup_destroyed (nodes_below [1] t).2
    · simp

/-! ### Objects that delete their message -/

/-- How many decrements bring a reference count to zero. -/
def decrements (refCount : UInt32) : ℕ := (refCount - 1).toNat + 1

/-- A count above one is one decrement further from zero. -/
theorem decrements_sub_one {r : UInt32} (h : r - 1 ≠ 0) :
    decrements r = decrements (r - 1) + 1 := by
  have hpos : 1 ≤ r - 1 := by
    rw [UInt32.le_iff_toNat_le]
    have hne : (r - 1).toNat ≠ 0 := fun hzero => h (UInt32.toNat_inj.mp hzero)
    exact Nat.one_le_iff_ne_zero.mpr hne
  have hsub := UInt32.toNat_sub_of_le _ _ hpos
  have hone : (1 : UInt32).toNat = 1 := rfl
  have hle := UInt32.le_iff_toNat_le.mp hpos
  unfold decrements
  omega

/-- The count of so many objects is brought to zero by no more decrements than there are. -/
theorem decrements_ofNat_le {n : ℕ} (h : 1 ≤ n) : decrements (.ofNat n) ≤ n := by
  have hone : (1 : UInt32).toNat = 1 := rfl
  unfold decrements
  rw [UInt32.toNat_sub, UInt32.toNat_ofNat', hone]
  omega

/-- The number of times the destructor of the message was entered. -/
def entries (d : Destruction) : ℕ := d.log.count .message

/-- Entering destructors of objects does not count. -/
@[simp] theorem entries_recordAll (d : Destruction) (as : List Address) :
    (d.recordAll as).entries = d.entries := by
  have hnone : (as.map Destroyed.object).count .message = 0 :=
    List.count_eq_zero.mpr (by simp)
  simp [entries, recordAll, hnone]

/-- Decrementing the count of a message that is not marked deleted enters its destructor when
the count reaches zero. -/
theorem decrementReferenceCount_entries {d : Destruction} (hdeleted : d.message.deleted = false) :
    (decrementReferenceCount (destroyMessage 0) d).message =
        { d.message with refCount := d.message.refCount - 1 } ∧
      (decrementReferenceCount (destroyMessage 0) d).entries =
        d.entries + if d.message.refCount - 1 = 0 then 1 else 0 := by
  rw [decrementReferenceCount, if_neg (by simp [hdeleted])]
  simp only
  split_ifs
  · exact ⟨rfl, by simp [destroyMessage, record, entries]⟩
  · exact ⟨rfl, rfl⟩

/-- Destroying the parameters decrements the count for each of a counted type, and enters the
destructor of the message again when that brings the count to zero. -/
theorem entries_destroyValues : ∀ {ts : List NymphType} {i : ℕ} {d : Destruction},
    d.message.values.drop i = ts.map linked → (∀ t ∈ ts, t.Unlinked) →
      d.message.deleted = false →
        d.entries + (if decrements d.message.refCount ≤ ts.countP counted then 1 else 0) ≤
            (destroyValues (destroyMessage 0) ts.length i d).entries ∧
          (destroyValues (destroyMessage 0) ts.length i d).message.response = d.message.response
  | [], i, d, _, _, _ => by simp [destroyValues, decrements]
  | t :: ts, i, d, hvalues, hunlinked, hdeleted => by
    obtain ⟨hget, hrest⟩ := drop_cons hvalues
    have hunlinked' : ∀ t' ∈ ts, t'.Unlinked := fun t' ht' => hunlinked t' (by simp [ht'])
    rw [List.length_cons, destroyValues, hget]
    simp only
    rw [destroyType_linked [0, i] (hunlinked t (by simp)), List.countP_cons]
    by_cases hcounted : counted t = true
    · rw [if_pos hcounted, if_pos hcounted]
      obtain ⟨hmessage, hentries⟩ := decrementReferenceCount_entries
        (d := d.record (.object [0, i])) hdeleted
      obtain ⟨d', hd'⟩ : ∃ d', d' = (decrementReferenceCount (destroyMessage 0)
        (d.record (.object [0, i]))).recordAll (childNodes [0, i] t) := ⟨_, rfl⟩
      have hmessage' : d'.message = { d.message with refCount := d.message.refCount - 1 } := by
        rw [hd']
        exact hmessage
      have hentries' : d'.entries = d.entries + if d.message.refCount - 1 = 0 then 1 else 0 := by
        rw [hd', entries_recordAll, hentries]
        exact congrArg (· + _) (entries_recordAll d [[0, i]])
      obtain ⟨hle, hresponse⟩ := entries_destroyValues (d := d') (by rw [hmessage']; exact hrest)
        hunlinked' (by rw [hmessage']; exact hdeleted)
      have hcount : d'.message.refCount = d.message.refCount - 1 := by rw [hmessage']
      rw [← hd']
      refine ⟨le_trans ?_ hle, by rw [hresponse, hmessage']⟩
      rw [hentries', hcount]
      by_cases hzero : d.message.refCount - 1 = 0
      · rw [if_pos hzero]
        split_ifs <;> omega
      · have hsub := decrements_sub_one hzero
        rw [if_neg hzero]
        split_ifs <;> omega
    · rw [if_neg hcounted, if_neg hcounted, record_recordAll]
      have hle := entries_destroyValues
        (d := d.recordAll ([0, i] :: childNodes [0, i] t)) hrest hunlinked' hdeleted
      rw [entries_recordAll] at hle
      exact hle

/-- Deleting a message with a parameter of a counted type enters its destructor twice. -/
theorem entries_of_counted_parameter {m : NymphMessage} {ts : List NymphType}
    (h : HoldsParameters m ts) {t : NymphType} (ht : t ∈ ts) (hcounted : counted t = true) :
    2 ≤ (destroyMessage 1 ⟨m, []⟩).log.count .message := by
  have hpos : 1 ≤ ts.countP counted := List.one_le_countP_iff.mpr ⟨t, ht, hcounted⟩
  have hlength : m.values.length = ts.length := by simp [h.values]
  obtain ⟨hle, hresponse⟩ := entries_destroyValues (d := ⟨m, [.message]⟩) (i := 0)
    h.values h.unlinked h.deleted
  have hdecrements : decrements m.refCount ≤ ts.countP counted :=
    h.refCount ▸ decrements_ofNat_le hpos
  rw [log_destroyMessage, hlength, destroyResponse, hresponse, h.response]
  rw [if_pos hdecrements] at hle
  exact hle

/-- Deleting an uncorrupted reply with a response of a counted type enters its destructor
twice. -/
theorem entries_of_counted_response {m : NymphMessage} {t : NymphType} (h : HoldsResponse m t)
    (hcorrupt : m.corrupt = false) (hcounted : counted t = true) :
    2 ≤ (destroyMessage 1 ⟨m, []⟩).log.count .message := by
  have hresponse : m.response = some (linked t) := by simp [h.response, hcorrupt]
  have hcount : m.refCount = 1 := by simp [h.refCount hcorrupt, hcounted]
  obtain ⟨-, hentries⟩ := decrementReferenceCount_entries
    (d := (Destruction.mk m [.message]).record (.object [1])) h.deleted
  have hrun : (destroyMessage 1 ⟨m, []⟩).log = ((decrementReferenceCount (destroyMessage 0)
      ((Destruction.mk m [.message]).record (.object [1]))).recordAll (childNodes [1] t)).log := by
    rw [log_destroyMessage, h.values]
    simp only [List.length_nil, destroyValues, destroyResponse, hresponse, h.owned, if_true,
      destroyType_linked [1] h.unlinked, hcounted]
  rw [hrun]
  change 2 ≤ entries _
  rw [entries_recordAll, hentries]
  simp [record, entries, hcount]

/-- The caller of a method destroys the response of a reply, and with it the message, once. -/
theorem nodup_of_caller {m : NymphMessage} {t : NymphType} (fuel : ℕ) (h : HoldsResponse m t)
    (hcorrupt : m.corrupt = false) : (Disposal.run fuel m .response).Nodup := by
  have hresponse : m.response = some (linked t) := by simp [h.response, hcorrupt]
  have hnodes := nodup_destroyed (nodes_below [1] t).2
  rw [nodes_eq_cons] at hnodes
  have hrun : Disposal.run fuel m .response = (destroyType (destroyMessage fuel) [1] (linked t)
      ⟨{ m with responseOwned := false }, []⟩).log := by
    simp only [Disposal.run, getResponse, hresponse]
  rw [hrun, destroyType_linked [1] h.unlinked]
  by_cases hcounted : counted t = true
  · have hcount : m.refCount - 1 = 0 := by simp [h.refCount hcorrupt, hcounted]
    have hlog : (decrementReferenceCount (destroyMessage fuel)
        (record ⟨{ m with responseOwned := false }, []⟩ (.object [1]))).log =
          [.object [1], .message] := by
      simp only [decrementReferenceCount, record, h.deleted, Bool.false_eq_true, if_false, hcount,
        if_true]
      cases fuel with
      | zero => rfl
      | succ fuel =>
        simp [destroyMessage, record, h.values, destroyValues, destroyResponse, hresponse]
    rw [if_pos hcounted, recordAll, hlog]
    exact (List.Perm.swap _ _ _).nodup_iff.mp hnodes
  · rw [if_neg hcounted, record_recordAll]
    exact (List.nodup_cons.mp hnodes).2

/-- A message that `delete msg` destroys once holds nothing that is linked with it. -/
theorem quiet_of_destroyedOnce {m : NymphMessage} (h : Holding m)
    (honce : DestroyedOnce m .delete) : (∀ t ∈ m.values, counted t = false) ∧
      (m.corrupt = true ∨ ∀ t ∈ m.response, counted t = false) := by
  have hcount : (destroyMessage 1 ⟨m, []⟩).log.count .message ≤ 1 := honce 1 .message
  rcases h with ⟨ts, hts⟩ | ⟨t, ht⟩
  · refine ⟨fun v hv => ?_, .inr (by simp [hts.response])⟩
    rw [hts.values] at hv
    obtain ⟨t, ht, rfl⟩ := List.mem_map.mp hv
    by_contra hcounted
    rw [counted_linked, Bool.not_eq_false] at hcounted
    have htwo := entries_of_counted_parameter hts ht hcounted
    omega
  · refine ⟨by simp [ht.values], ?_⟩
    cases hcorrupt : m.corrupt with
    | true => exact .inl rfl
    | false =>
      refine .inr fun r hr => ?_
      rw [ht.response, hcorrupt] at hr
      cases hr
      by_contra hcounted
      rw [if_neg Bool.false_ne_true, counted_linked, Bool.not_eq_false] at hcounted
      have htwo := entries_of_counted_response ht hcorrupt hcounted
      omega

/-- `delete msg` destroys a message once that holds nothing that is linked with it. -/
theorem nodup_of_delete {m : NymphMessage} (fuel : ℕ) (h : Holding m)
    (hvalues : ∀ t ∈ m.values, counted t = false)
    (hresponse : m.corrupt = true ∨ ∀ t ∈ m.response, counted t = false) :
    (Disposal.run fuel m .delete).Nodup := by
  rcases h with ⟨ts, hts⟩ | ⟨t, ht⟩
  · apply nodup_of_quiet_parameters fuel hts.values hts.unlinked hts.response
    intro t ht hc
    have hnot := hvalues (linked t) (hts.values ▸ List.mem_map_of_mem ht)
    rw [counted_linked, hc] at hnot
    cases hnot
  · apply nodup_of_quiet_response fuel ht.values ht.response ht.unlinked
    cases hcorrupt : m.corrupt with
    | true => exact .inl rfl
    | false =>
      refine .inr ⟨rfl, fun hc => ?_⟩
      rcases hresponse with hcor | hresponse
      · rw [hcorrupt] at hcor
        cases hcor
      · have hnot := hresponse (linked t) (by rw [ht.response, hcorrupt]; rfl)
        rw [counted_linked, hc] at hnot
        cases hnot

/-- `discard()` destroys a message once, whatever it holds: no reference is counted down. -/
theorem nodup_of_discard {m : NymphMessage} (fuel : ℕ) (h : Holding m) :
    (Disposal.run fuel m .discard).Nodup := by
  rcases h with ⟨ts, hts⟩ | ⟨t, ht⟩
  · exact nodup_of_quiet_parameters fuel (m := { m with deleted := true }) hts.values
      hts.unlinked hts.response fun _ _ _ => rfl
  · refine nodup_of_quiet_response fuel (m := { m with deleted := true }) ht.values ht.response
      ht.unlinked ?_
    cases m.corrupt with
    | true => exact .inl rfl
    | false => exact .inr ⟨rfl, fun _ => rfl⟩

/-- The caller of a method destroys what it takes of a message once. -/
theorem nodup_of_response {m : NymphMessage} (fuel : ℕ) (h : Holding m)
    (hcorrupt : m.corrupt = false) : (Disposal.run fuel m .response).Nodup := by
  rcases h with ⟨ts, hts⟩ | ⟨t, ht⟩
  · simp [Disposal.run, getResponse, hts.response]
  · exact nodup_of_caller fuel ht hcorrupt

end Destruction

open Destruction

section

variable {u : ℤ → Uninit} {um : MessageUninit} {fuel : ℕ} {binmsg : Bytes} {m : NymphMessage}
  (h : (decode u um fuel binmsg).result = .ok m)

include h

/-- `delete msg` destroys a reply once that is no string, array or struct. -/
theorem destroyedOnce_of_response {v : Value} (hresponse : m.response.map value = some v)
    (hv : v.counted = false) : DestroyedOnce m .delete := by
  intro n e
  refine List.nodup_iff_count_le_one.mp ?_ e
  have hholding := holding_of_decode h
  refine nodup_of_delete n hholding (fun t ht => ?_) (.inr fun t ht => ?_)
  · rcases hholding with ⟨ts, hts⟩ | ⟨t', ht'⟩
    · rw [hts.response] at hresponse
      cases hresponse
    · rw [ht'.values] at ht
      cases ht
  · rw [Option.mem_def.mp ht] at hresponse
    rw [← counted_value, Option.some.inj hresponse]
    exact hv

/-- It destroys a message once that is no reply and carries no string, array or struct. -/
theorem destroyedOnce_of_parameters (hcorrupt : m.corrupt = false) (hreply : m.isReply = false)
    (hvalues : ∀ v ∈ valueAll m.values, v.counted = false) : DestroyedOnce m .delete := by
  intro n e
  refine List.nodup_iff_count_le_one.mp ?_ e
  refine nodup_of_delete n (holding_of_decode h) (fun t ht => ?_) (.inr fun t ht => ?_)
  · rw [← counted_value]
    exact hvalues _ (valueAll_eq_map _ ▸ List.mem_map_of_mem ht)
  · have hreplied : m.isReply = true :=
      ((routed_of_decode h).response hcorrupt).mpr (Option.ne_none_iff_exists'.mpr ⟨t, ht⟩)
    rw [hreply] at hreplied
    cases hreplied

end

/-- A decoded message is destroyed once exactly if it is disposed of otherwise than by
`delete msg`, or holds no string, array or struct that is linked with it: neither among its
parameters nor as the response of an uncorrupted reply. -/
theorem destroyedOnce_iff {u : ℤ → Uninit} {um : MessageUninit} {fuel : ℕ} {binmsg : Bytes}
    {m : NymphMessage} (h : (decode u um fuel binmsg).result = .ok m) {p : Disposal}
    (hp : Disposes m p) :
    DestroyedOnce m p ↔ (p = .delete → (∀ t ∈ m.values, counted t = false) ∧
      (m.corrupt = true ∨ ∀ t ∈ m.response, counted t = false)) := by
  have hholding := holding_of_decode h
  constructor
  · rintro honce rfl
    exact quiet_of_destroyedOnce hholding honce
  · intro hquiet n e
    refine List.nodup_iff_count_le_one.mp ?_ e
    cases p with
    | delete =>
      obtain ⟨hvalues, hresponse⟩ := hquiet rfl
      exact nodup_of_delete n hholding hvalues hresponse
    | discard => exact nodup_of_discard n hholding
    | response =>
      cases hp with
      | caller hcorrupt _ => exact nodup_of_response n hholding hcorrupt

/-- A reply with the string "a" as its response. -/
def stringReply : Bytes :=
  [0x00, 0, 0, 0, 0, 0x01, 0, 0, 0] ++ List.replicate 16 0x00 ++ [0x10, 0x04, 0x01, 0x61, 0x01]

/-- A handler that discards the reply destroys it once. -/
theorem stringReply_discard :
    ∃ m, (decode (fun _ => ⟨0, 0⟩) ⟨0, 0⟩ 2 stringReply).result = .ok m ∧
      DestroyedOnce m .discard := by
  obtain ⟨m, hm, hcorrupt⟩ : ∃ m, (decode (fun _ => ⟨0, 0⟩) ⟨0, 0⟩ 2 stringReply).result = .ok m ∧
      m.corrupt = false := ⟨_, rfl, rfl⟩
  exact ⟨m, hm, (destroyedOnce_iff hm (.handler hcorrupt)).mpr fun h => by cases h⟩

/-- Deleting the reply because nobody waits for it enters its destructor twice. -/
theorem stringReply_delete :
    ∃ m, (decode (fun _ => ⟨0, 0⟩) ⟨0, 0⟩ 2 stringReply).result = .ok m ∧ Disposes m .delete ∧
      ¬DestroyedOnce m .delete := by
  obtain ⟨m, hm, hcallback, htwice⟩ : ∃ m,
      (decode (fun _ => ⟨0, 0⟩) ⟨0, 0⟩ 2 stringReply).result = .ok m ∧ m.isCallback = false ∧
        (Disposal.run 1 m .delete).count .message = 2 := ⟨_, rfl, rfl, by decide +kernel⟩
  refine ⟨m, hm, .unmatched hcallback, fun h => ?_⟩
  have hone := h 1 .message
  omega

end NymphRpc
