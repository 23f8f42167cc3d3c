import Mathlib.Data.List.Basic
import Mathlib.Data.List.Pairwise

/-!
# Ordered maps as sorted lists

The associative containers of C++ keep at most one entry for each key and iterate in key
order, and inserting under a present key leaves the old entry in place. The list operations
below work on any entry type with a key function; a map bundles a list of key-value pairs
with the proof that its keys strictly increase, so an unordered or repeated table cannot
be built.
-/

namespace OrderedMap

variable {α κ β : Type}

section KeyedList

variable (key : α → κ)

/-- Keys strictly increase along the list. -/
def Sorted [Ord κ] (l : List α) : Prop := l.Pairwise fun a b => compare (key a) (key b) = .lt

/-- Insert at the place its key demands, keeping an entry that already has the key. -/
def insertEntry [Ord κ] (a : α) : List α → List α
  | [] => [a]
  | b :: rest =>
    match compare (key a) (key b) with
    | .lt => a :: b :: rest
    | .eq => b :: rest
    | .gt => b :: insertEntry a rest

/-- The entry with the given key. -/
def findEntry [DecidableEq κ] (k : κ) (l : List α) : Option α := l.find? fun a => decide (key a = k)

/-- The list without the entry of the given key. -/
def eraseEntry [DecidableEq κ] (k : κ) (l : List α) : List α := l.filter fun a => decide (key a ≠ k)

variable {key}

/-- An inserted list holds nothing but its old entries and the new one. -/
theorem mem_of_mem_insertEntry [Ord κ] {a b : α} {l : List α} (h : b ∈ insertEntry key a l) :
    b = a ∨ b ∈ l := by
  induction l with
  | nil => simpa [insertEntry] using h
  | cons c rest ih =>
    unfold insertEntry at h
    split at h
    · simpa using h
    · exact Or.inr h
    · rcases List.mem_cons.mp h with rfl | h
      · exact Or.inr List.mem_cons_self
      · rcases ih h with rfl | h
        · exact Or.inl rfl
        · exact Or.inr (List.mem_cons_of_mem _ h)

/-- Insertion keeps the keys increasing. -/
theorem Sorted.insertEntry [Ord κ] [Std.TransOrd κ] {a : α} {l : List α} (h : Sorted key l) :
    Sorted key (insertEntry key a l) := by
  induction l with
  | nil => exact List.pairwise_singleton _ _
  | cons b rest ih =>
    obtain ⟨hb, hrest⟩ := List.pairwise_cons.mp h
    unfold OrderedMap.insertEntry
    split
    case h_1 hlt =>
      refine List.pairwise_cons.mpr ⟨?_, h⟩
      intro c hc
      rcases List.mem_cons.mp hc with rfl | hc
      · exact hlt
      · exact Std.TransCmp.lt_trans hlt (hb c hc)
    case h_2 => exact h
    case h_3 hgt =>
      refine List.pairwise_cons.mpr ⟨?_, ih hrest⟩
      intro c hc
      rcases mem_of_mem_insertEntry hc with rfl | hc
      · exact Std.OrientedCmp.gt_iff_lt.mp hgt
      · exact hb c hc

/-- Erasure keeps the keys increasing. -/
theorem Sorted.eraseEntry [Ord κ] [DecidableEq κ] {k : κ} {l : List α} (h : Sorted key l) :
    Sorted key (eraseEntry key k l) :=
  List.Pairwise.filter _ h

/-- No key occurs twice in a sorted list. -/
theorem Sorted.nodup [Ord κ] [Std.LawfulEqOrd κ] {l : List α} (h : Sorted key l) :
    (l.map key).Nodup := by
  refine List.pairwise_map.mpr (h.imp fun hlt heq => ?_)
  rw [heq, Std.compare_self] at hlt
  cases hlt

/-- In a sorted list an entry is determined by its key. -/
theorem Sorted.eq_of_key_eq [Ord κ] [Std.LawfulEqOrd κ] {l : List α} (h : Sorted key l)
    {a b : α} (ha : a ∈ l) (hb : b ∈ l) (hkey : key a = key b) : a = b := by
  induction l with
  | nil => cases ha
  | cons c rest ih =>
    obtain ⟨hc, hrest⟩ := List.pairwise_cons.mp h
    rcases List.mem_cons.mp ha with rfl | ha' <;> rcases List.mem_cons.mp hb with rfl | hb'
    · rfl
    · have hlt := hc b hb'
      rw [hkey, Std.compare_self] at hlt
      cases hlt
    · have hlt := hc a ha'
      rw [hkey, Std.compare_self] at hlt
      cases hlt
    · exact ih hrest ha' hb'

/-- In a sorted list, looking an entry's key up finds that entry. -/
theorem Sorted.findEntry_eq_some [Ord κ] [Std.LawfulEqOrd κ] [DecidableEq κ] {l : List α}
    (h : Sorted key l) {a : α} (ha : a ∈ l) : findEntry key (key a) l = some a := by
  have hsome : (findEntry key (key a) l).isSome := by
    rw [findEntry, List.find?_isSome]
    exact ⟨a, ha, by simp⟩
  obtain ⟨b, hb⟩ := Option.isSome_iff_exists.mp hsome
  have hkey : key b = key a := by simpa using List.find?_some hb
  rw [hb, h.eq_of_key_eq (List.mem_of_find?_eq_some hb) ha hkey]

/-- A found entry is in the list and has the key. -/
theorem mem_of_findEntry [DecidableEq κ] {k : κ} {l : List α} {a : α}
    (h : findEntry key k l = some a) : a ∈ l ∧ key a = k :=
  ⟨List.mem_of_find?_eq_some h, by simpa using List.find?_some h⟩

/-- Lookup fails exactly on the keys no entry has. -/
theorem findEntry_eq_none [DecidableEq κ] {k : κ} {l : List α} :
    findEntry key k l = none ↔ ∀ a ∈ l, key a ≠ k := by
  simp [findEntry]

/-- Insertion under a key changes only the lookup of that key, and only if it was absent. -/
theorem findEntry_insertEntry [Ord κ] [Std.TransOrd κ] [Std.LawfulEqOrd κ] [DecidableEq κ]
    {k : κ} {a : α} {l : List α} (h : Sorted key l) :
    findEntry key k (insertEntry key a l) =
      if key a = k then (findEntry key k l).or (some a) else findEntry key k l := by
  induction l with
  | nil => by_cases hk : key a = k <;> simp [insertEntry, findEntry, hk]
  | cons b rest ih =>
    obtain ⟨hb, hrest⟩ := List.pairwise_cons.mp h
    unfold insertEntry
    split
    case h_1 hlt =>
      by_cases hk : key a = k
      · have habsent : findEntry key k (b :: rest) = none := by
          rw [findEntry_eq_none]
          intro c hc heq
          have hac : compare (key a) (key c) = .lt := by
            rcases List.mem_cons.mp hc with rfl | hc
            · exact hlt
            · exact Std.TransCmp.lt_trans hlt (hb c hc)
          rw [hk, heq, Std.compare_self] at hac
          cases hac
        rw [habsent, if_pos hk]
        simp [findEntry, hk]
      · simp [findEntry, hk]
    case h_2 heq =>
      have hkey : key a = key b := Std.LawfulEqCmp.compare_eq_iff_eq.mp heq
      by_cases hk : key b = k <;> simp [findEntry, hkey, hk]
    case h_3 hgt =>
      have hstep := ih hrest
      by_cases hbk : key b = k
      · have hne : key a ≠ k := by
          rintro rfl
          rw [hbk, Std.compare_self] at hgt
          cases hgt
        simp [findEntry, hbk, hne]
      · simpa [findEntry, hbk] using hstep

/-- Entries that are inserted one after the other are found under a key where the first of them
was, unless there was one before. -/
theorem findEntry_foldl_insertEntry [Ord κ] [Std.TransOrd κ] [Std.LawfulEqOrd κ] [DecidableEq κ]
    {k : κ} (l : List α) {entries : List α} (h : Sorted key entries) :
    findEntry key k (l.foldl (fun entries a => insertEntry key a entries) entries) =
      (findEntry key k entries).or (findEntry key k l) := by
  induction l generalizing entries with
  | nil => rw [List.foldl_nil, findEntry, findEntry, List.find?_nil, Option.or_none]
  | cons a l ih =>
    rw [List.foldl_cons, ih h.insertEntry, findEntry_insertEntry h]
    by_cases hk : key a = k
    · have hfirst : findEntry key k (a :: l) = some a := by simp [findEntry, hk]
      rw [if_pos hk, hfirst, Option.or_assoc, Option.some_or]
    · have hnext : findEntry key k (a :: l) = findEntry key k l := by simp [findEntry, hk]
      rw [if_neg hk, hnext]

/-- Erasing a key removes exactly its lookup. -/
theorem findEntry_eraseEntry [DecidableEq κ] {k k' : κ} {l : List α} :
    findEntry key k' (eraseEntry key k l) = if k' = k then none else findEntry key k' l := by
  induction l with
  | nil => simp [findEntry, eraseEntry]
  | cons b rest ih =>
    unfold findEntry eraseEntry at ih ⊢
    by_cases hb : key b = k
    · by_cases hk : k' = k
      · simp [hk]
      · have hne : ¬k = k' := fun h => hk h.symm
        simpa [List.filter_cons, hb, hk, hne] using ih
    · by_cases hbk : key b = k'
      · have hne : ¬k' = k := by rintro rfl; exact hb hbk
        simp [hbk, hne]
      · simpa [List.filter_cons, hb, hbk] using ih

/-- An entry whose key exceeds every present key goes to the end. -/
theorem insertEntry_eq_append [Ord κ] [Std.OrientedOrd κ] {a : α} {l : List α}
    (h : ∀ b ∈ l, compare (key b) (key a) = .lt) : insertEntry key a l = l ++ [a] := by
  induction l with
  | nil => rfl
  | cons b rest ih =>
    have hgt : compare (key a) (key b) = .gt :=
      Std.OrientedCmp.gt_iff_lt.mpr (h b List.mem_cons_self)
    rw [insertEntry, hgt]
    simp [ih fun c hc => h c (List.mem_cons_of_mem _ hc)]

/-- Inserting an entry with a new key adds it and keeps the others. -/
theorem insertEntry_perm [Ord κ] [Std.LawfulEqOrd κ] {a : α} {l : List α}
    (h : ∀ b ∈ l, key b ≠ key a) : (insertEntry key a l).Perm (a :: l) := by
  induction l with
  | nil => exact List.Perm.refl _
  | cons b rest ih =>
    have hrest := ih fun c hc => h c (List.mem_cons_of_mem _ hc)
    rw [insertEntry]
    split
    case h_1 => exact List.Perm.refl _
    case h_2 heq =>
      exact absurd (Std.LawfulEqCmp.compare_eq_iff_eq.mp heq).symm (h b List.mem_cons_self)
    case h_3 => exact (hrest.cons b).trans (List.Perm.swap a b rest)

/-- Inserting the entries of a sorted list in order rebuilds the list. -/
theorem foldl_insertEntry_append [Ord κ] [Std.OrientedOrd κ] {l rest : List α}
    (h : Sorted key (l ++ rest)) :
    rest.foldl (fun acc a => insertEntry key a acc) l = l ++ rest := by
  induction rest generalizing l with
  | nil => simp
  | cons a rest ih =>
    have hlt : ∀ b ∈ l, compare (key b) (key a) = .lt := fun b hb =>
      (List.pairwise_append.mp h).2.2 b hb a List.mem_cons_self
    rw [List.foldl_cons, insertEntry_eq_append hlt, ih (by simpa using h)]
    simp

end KeyedList

/-- A map: entries in key order, one for each key. -/
structure Map (κ β : Type) [Ord κ] where
  entries : List (κ × β)
  sorted : Sorted Prod.fst entries

namespace Map

variable [Ord κ]

/-- The map without entries. -/
def empty : Map κ β := ⟨[], .nil⟩

/-- The value of a key. -/
def find? [DecidableEq κ] (m : Map κ β) (k : κ) : Option β :=
  (findEntry Prod.fst k m.entries).map Prod.snd

/-- Insert a value unless the key has one. -/
def insert [Std.TransOrd κ] (m : Map κ β) (k : κ) (b : β) : Map κ β :=
  ⟨insertEntry Prod.fst (k, b) m.entries, m.sorted.insertEntry⟩

/-- Erase a key. -/
def erase [DecidableEq κ] (m : Map κ β) (k : κ) : Map κ β :=
  ⟨eraseEntry Prod.fst k m.entries, m.sorted.eraseEntry⟩

@[simp, grind =] theorem find?_empty [DecidableEq κ] (k : κ) :
    (empty : Map κ β).find? k = none := rfl

@[grind =] theorem find?_insert [DecidableEq κ] [Std.TransOrd κ] [Std.LawfulEqOrd κ]
    (m : Map κ β) (k k' : κ) (b : β) :
    (m.insert k b).find? k' = if k = k' then (m.find? k').or (some b) else m.find? k' := by
  rw [find?, insert, findEntry_insertEntry m.sorted]
  split_ifs
  · rw [find?]
    cases findEntry Prod.fst k' m.entries <;> rfl
  · rfl

@[grind =] theorem find?_erase [DecidableEq κ] (m : Map κ β) (k k' : κ) :
    (m.erase k).find? k' = if k' = k then none else m.find? k' := by
  rw [find?, erase, findEntry_eraseEntry]
  split_ifs <;> rfl

/-- The entries are the keys with their values. -/
theorem mem_entries [DecidableEq κ] [Std.LawfulEqOrd κ] {m : Map κ β} {k : κ} {b : β} :
    (k, b) ∈ m.entries ↔ m.find? k = some b := by
  constructor
  · intro h
    rw [find?, m.sorted.findEntry_eq_some h]
    rfl
  · intro h
    obtain ⟨a, ha, rfl⟩ := Option.map_eq_some_iff.mp h
    obtain ⟨hmem, rfl⟩ := mem_of_findEntry ha
    exact hmem

end Map

end OrderedMap
