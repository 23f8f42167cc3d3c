import NymphRpc.Base.OrderedMap

/-!
# Histories of calls

A state and the calls that change it, one after the other. A property of states that each call
keeps exactly under a condition holds in all states of a history exactly if every call meets the
condition.

The calls on a map insert and erase. An insertion keeps the value that a key has, so the map holds
what was inserted last as long as no key is inserted while it has another value.
-/

namespace Histories

variable {σ α : Type}

/-- Every call of a history has the property, in the state it is made in. -/
def Throughout (step : σ → α → σ) (P : σ → α → Prop) : σ → List α → Prop
  | _, [] => True
  | s, a :: l => P s a ∧ Throughout step P (step s a) l

/-- The property holds in all states of a history. -/
def Always (step : σ → α → σ) (I : σ → Prop) (s : σ) (l : List α) : Prop :=
  ∀ pre, pre <+: l → I (pre.foldl step s)

/-- A property that each call keeps exactly under a condition holds in all states exactly if every
call meets the condition. -/
theorem always_iff {step : σ → α → σ} {I : σ → Prop} {P : σ → α → Prop}
    (hstep : ∀ s a, I s → (I (step s a) ↔ P s a)) {s : σ} (hs : I s) (l : List α) :
    Always step I s l ↔ Throughout step P s l := by
  induction l generalizing s with
  | nil =>
    refine iff_of_true ?_ trivial
    intro pre hpre
    rw [List.prefix_nil.mp hpre]
    exact hs
  | cons a l ih =>
    rw [Throughout]
    constructor
    · intro hall
      have hnext : I (step s a) := hall [a] ⟨l, rfl⟩
      refine ⟨(hstep s a hs).mp hnext, (ih hnext).mp ?_⟩
      intro pre hpre
      exact hall (a :: pre) (List.cons_prefix_cons.mpr ⟨rfl, hpre⟩)
    · rintro ⟨ha, hrest⟩ pre hpre
      have hnext := (hstep s a hs).mpr ha
      cases pre with
      | nil => exact hs
      | cons a' pre =>
        obtain ⟨rfl, hshorter⟩ := List.cons_prefix_cons.mp hpre
        exact (ih hnext).mpr hrest pre hshorter

/-- A history seen through a function that the calls commute with. -/
theorem throughout_map {τ : Type} {step : σ → α → σ} {step' : τ → α → τ} (f : σ → τ)
    (hstep : ∀ s a, f (step s a) = step' (f s) a) (P : τ → α → Prop) (s : σ) (l : List α) :
    Throughout step (fun s a => P (f s) a) s l ↔ Throughout step' P (f s) l := by
  induction l generalizing s with
  | nil => exact Iff.rfl
  | cons a l ih =>
    rw [Throughout, Throughout, ih, hstep]

/-- Two states that are changed by the same calls. -/
theorem foldl_prod {τ : Type} (step : σ → α → σ) (step' : τ → α → τ) (s : σ) (t : τ)
    (l : List α) : l.foldl (fun p a => (step p.1 a, step' p.2 a)) (s, t) =
      (l.foldl step s, l.foldl step' t) := by
  induction l generalizing s t with
  | nil => rfl
  | cons a l ih => exact ih _ _

end Histories

namespace OrderedMap

open Histories

variable {κ β : Type}

/-- A call on a map. -/
inductive MapCall (κ β : Type)
  | insert (k : κ) (b : β)
  | erase (k : κ)

/-- What a call leaves in a map that every insertion writes to. -/
def MapCall.write [DecidableEq κ] (f : κ → Option β) : MapCall κ β → κ → Option β
  | insert k b, k' => if k = k' then some b else f k'
  | erase k, k' => if k = k' then none else f k'

/-- What was inserted last under each key, and not erased since. -/
def lastWritten [DecidableEq κ] (calls : List (MapCall κ β)) : κ → Option β :=
  calls.foldl MapCall.write fun _ => none

namespace Map

variable [Ord κ] [DecidableEq κ] [Std.TransOrd κ]

/-- Make a call. -/
def apply (m : Map κ β) : MapCall κ β → Map κ β
  | .insert k b => m.insert k b
  | .erase k => m.erase k

/-- An inserted key has no value, or the one that is inserted. -/
def Writes (m : Map κ β) : MapCall κ β → Prop
  | .insert k b => m.find? k = none ∨ m.find? k = some b
  | .erase _ => True

/-- A call does what it does to a map that every insertion writes to exactly if an inserted key
has no other value. -/
theorem find?_apply_iff [Std.LawfulEqOrd κ] (m : Map κ β) (call : MapCall κ β) :
    (∀ k, (m.apply call).find? k = call.write m.find? k) ↔ m.Writes call := by
  cases call with
  | insert k b =>
    rw [Writes]
    constructor
    · intro h
      have hk := h k
      rw [apply, find?_insert, if_pos rfl, MapCall.write, if_pos rfl] at hk
      exact Option.or_eq_some_iff.mp hk |>.symm.imp And.left id
    · intro h k'
      rw [apply, find?_insert, MapCall.write]
      split_ifs with hk
      · subst hk
        rcases h with h | h <;> rw [h] <;> rfl
      · rfl
  | erase k =>
    refine iff_of_true ?_ trivial
    intro k'
    rw [apply, find?_erase, MapCall.write]
    simp only [eq_comm]

/-- A map holds what was inserted last in all states of a history exactly if no key is inserted
while it has another value. The calls may be of any kind that stands for calls on the map. -/
theorem find?_eq_lastWritten_iff [Std.LawfulEqOrd κ] {α : Type} (f : α → MapCall κ β)
    (calls : List α) :
    (∀ pre, pre <+: calls → ∀ k,
      (pre.foldl (fun m a => m.apply (f a)) (empty : Map κ β)).find? k =
        lastWritten (pre.map f) k) ↔
    Throughout (fun m a => m.apply (f a)) (fun m a => m.Writes (f a)) (empty : Map κ β) calls := by
  -- the map and the values that were written last, side by side
  let both : Map κ β × (κ → Option β) → α → Map κ β × (κ → Option β) :=
    fun p a => (p.1.apply (f a), MapCall.write p.2 (f a))
  let Agree : Map κ β × (κ → Option β) → Prop := fun p => ∀ k, p.1.find? k = p.2 k
  have hstep : ∀ p a, Agree p → (Agree (both p a) ↔ p.1.Writes (f a)) := by
    intro p a hp
    have hwritten : p.2 = p.1.find? := funext fun k => (hp k).symm
    rw [← find?_apply_iff, ← hwritten]
  have hboth := always_iff hstep (s := (empty, fun _ => none)) (fun _ => rfl) calls
  have hfirst : Throughout both (fun p a => p.1.Writes (f a)) (empty, fun _ => none) calls ↔
      Throughout (fun m a => m.apply (f a)) (fun m a => m.Writes (f a)) (empty : Map κ β) calls :=
    throughout_map Prod.fst (fun _ _ => rfl) (fun (m : Map κ β) a => m.Writes (f a)) _ _
  rw [← hfirst, ← hboth]
  refine forall_congr' fun pre => imp_congr_right fun _ => forall_congr' fun k => ?_
  have hpair : pre.foldl both (empty, fun _ => none) =
      (pre.foldl (fun m a => m.apply (f a)) empty,
        pre.foldl (fun g a => MapCall.write g (f a)) fun _ => none) :=
    foldl_prod (fun m a => Map.apply m (f a)) (fun g a => MapCall.write g (f a)) _ _ pre
  rw [hpair, lastWritten, List.foldl_map]

end Map

end OrderedMap
