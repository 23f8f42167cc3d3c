import NymphRpc.Types.ParseValue

/-!
# Objects without a link

`linkWithMessage` is only ever called on the values of a message and on its response. The
objects that a parse creates, and all that they own, have no link, and a link set on one of
them later leaves those it owns as they are.
-/

namespace NymphRpc

open NymphType Traced

namespace NymphType

mutual

/-- Neither the object nor anything in it is linked with a message. -/
def Unlinked : NymphType → Prop
  | null m | boolean m _ | scalar m _ _ | string m _ => m.linkedMsg = false
  | array m vector => m.linkedMsg = false ∧ UnlinkedAll vector
  | struct m pairs => m.linkedMsg = false ∧ UnlinkedPairs pairs

/-- None of the elements is linked. -/
def UnlinkedAll : List NymphType → Prop
  | [] => True
  | v :: vs => v.Unlinked ∧ UnlinkedAll vs

/-- None of the keys and values is linked. -/
def UnlinkedPairs : List NymphPair → Prop
  | [] => True
  | .mk _ key value :: ps => key.Unlinked ∧ value.Unlinked ∧ UnlinkedPairs ps

end

/-- An unlinked object has no link itself. -/
theorem Unlinked.linkedMsg {t : NymphType} (h : t.Unlinked) : t.members.linkedMsg = false := by
  cases t <;> simp only [Unlinked] at h <;> first | exact h | exact h.1

/-- Changing other members keeps an object unlinked. -/
theorem Unlinked.setMembers {t : NymphType} (h : t.Unlinked) {m : Members}
    (hm : m.linkedMsg = t.members.linkedMsg) : (t.setMembers m).Unlinked := by
  have hlink := h.linkedMsg
  cases t <;> simp only [Unlinked, NymphType.setMembers, members] at * <;>
    first | exact hm.trans h | exact ⟨hm.trans hlink, h.2⟩

/-- Entries are unlinked one by one. -/
theorem unlinkedPairs_iff (ps : List NymphPair) :
    UnlinkedPairs ps ↔ ∀ p ∈ ps, p.key.Unlinked ∧ p.value.Unlinked := by
  induction ps with
  | nil => simp [UnlinkedPairs]
  | cons p ps ih =>
    obtain ⟨name, key, value⟩ := p
    simp [UnlinkedPairs, ih, NymphPair.key, NymphPair.value, and_assoc]

/-- Inserting an unlinked entry keeps a map unlinked. -/
theorem UnlinkedPairs.insertEntry {ps : List NymphPair} (h : UnlinkedPairs ps) {name : Bytes}
    {key value : NymphType} (hkey : key.Unlinked) (hvalue : value.Unlinked) :
    UnlinkedPairs (OrderedMap.insertEntry NymphPair.name (.mk name key value) ps) := by
  rw [unlinkedPairs_iff] at h ⊢
  intro p hp
  rcases OrderedMap.mem_of_mem_insertEntry hp with rfl | hmem
  · exact ⟨hkey, hvalue⟩
  · exact h p hmem

end NymphType

variable {u : ℤ → Uninit} {binmsg : Bytes}

/-- A computation that returns only values in `post`, whatever it logs. -/
abbrev OnReturn {α : Type} (x : Decode α) (post : α → Prop) : Prop :=
  Ensures (fun _ => True) x post (fun _ => True) (fun _ => True)

/-- What the three functions create is unlinked. -/
structure ParseUnlinked (u : ℤ → Uninit) (fuel : ℕ) : Prop where
  value : ∀ self tc binmsg index, self.Unlinked →
    OnReturn (parseValue u fuel self tc binmsg index) fun r => r.value.Unlinked
  elements : ∀ n binmsg index,
    OnReturn (parseElements u fuel n binmsg index) fun r => UnlinkedAll r.1
  pairs : ∀ binmsg index pairs length, UnlinkedPairs pairs →
    OnReturn (parsePairs u fuel binmsg index pairs length) fun r => UnlinkedPairs r.pairs

/-- What the parser's calls create is unlinked when what the calls below create is. -/
theorem ParseUnlinked.value_succ {fuel : ℕ} (ih : ParseUnlinked u fuel) (self : NymphType)
    (tc : UInt8) (binmsg : Bytes) (index : ℤ) (hself : self.Unlinked) :
    OnReturn (parseValue u (fuel + 1) self tc binmsg index) fun r => r.value.Unlinked := by
  have hlink := hself.linkedMsg
  rw [parseValue]
  cases NymphInternalTypes.ofByte tc with
  | none => exact .pure hself
  | some c =>
    cases c with
    | scalar k => exact ensures_memcpy_bind (fun _ => trivial) fun bs _ => .pure hlink
    | booleanFalse => exact .pure hlink
    | booleanTrue => exact .pure hlink
    | emptyString => exact .pure hlink
    | string =>
      apply ensures_readByte_bind (fun _ => trivial)
      intro tag _
      cases LengthTag.ofByte tag with
      | none => exact .pure hself
      | some t =>
        apply ensures_memcpy_bind (fun _ => trivial)
        intro bs _
        exact .tell_bind fun _ => ⟨trivial, .pure hlink⟩
    | array =>
      apply ensures_memcpy_bind (fun _ => trivial)
      intro count _
      split_ifs
      · exact .fault trivial
      · apply (ih.elements _ _ _).bind
        intro r hr
        exact ensures_readByte_bind (fun _ => trivial) fun _ _ => .pure ⟨hlink, hr⟩
    | struct =>
      apply (ih.pairs _ _ [] 0 trivial).bind
      intro r hr
      split_ifs
      · exact .pure ⟨hlink, hr⟩
      · exact .pure (hself.setMembers rfl)
    | _ => exact .pure hself

/-- The elements of an array are unlinked when what the calls below create is. -/
theorem ParseUnlinked.elements_succ {fuel : ℕ} (ih : ParseUnlinked u fuel) (n : ℕ)
    (binmsg : Bytes) (index : ℤ) :
    OnReturn (parseElements u (fuel + 1) n binmsg index) fun r => UnlinkedAll r.1 := by
  cases n with
  | zero => exact .pure trivial
  | succ n =>
    rw [parseElements]
    apply ensures_readByte_bind (fun _ => trivial)
    intro tc _
    apply (ih.value (fresh (u index)) _ _ _ rfl).bind
    intro el hel
    refine .tell_bind fun _ => ⟨trivial, ?_⟩
    exact (ih.elements _ _ _).bind fun r hr => .pure ⟨hel, hr⟩

/-- The entries of a struct are unlinked when what the calls below create is. -/
theorem ParseUnlinked.pairs_succ {fuel : ℕ} (ih : ParseUnlinked u fuel) (binmsg : Bytes)
    (index : ℤ) (pairs : List NymphPair) (length : UInt64) (hpairs : UnlinkedPairs pairs) :
    OnReturn (parsePairs u (fuel + 1) binmsg index pairs length)
      fun r => UnlinkedPairs r.pairs := by
  rw [parsePairs]
  apply ensures_readByte_bind (fun _ => trivial)
  intro tc _
  split_ifs
  · exact .pure hpairs
  · exact .pure hpairs
  · apply (ih.value (fresh (u index)) _ _ _ rfl).bind
    intro key hkey
    refine .tell_bind fun _ => ⟨trivial, ?_⟩
    split_ifs
    · apply ensures_readByte_bind (fun _ => trivial)
      intro tc _
      apply (ih.value (fresh (u key.index)) _ _ _ rfl).bind
      intro val hval
      refine .tell_bind fun _ => ⟨trivial, ?_⟩
      split_ifs
      · apply ensures_readString_bind (fun _ => trivial)
        intro name
        exact ih.pairs _ _ _ _ (hpairs.insertEntry hkey hval)
      · exact .pure hpairs
    · exact .pure hpairs

/-- What a parse creates is unlinked, at any fuel. -/
theorem parse_unlinked (u : ℤ → Uninit) (fuel : ℕ) : ParseUnlinked u fuel := by
  induction fuel with
  | zero =>
    refine ⟨?_, ?_, ?_⟩
    · intro self tc binmsg index _
      exact .fault trivial
    · intro n binmsg index
      exact .fault trivial
    · intro binmsg index pairs length _
      exact .fault trivial
  | succ fuel ih => exact ⟨ih.value_succ, ih.elements_succ, ih.pairs_succ⟩

end NymphRpc
