import Mathlib.Algebra.Order.BigOperators.Group.Finset
import Mathlib.Data.Nat.Notation
import Mathlib.Logic.Relation
import Mathlib.Order.GameAdd
import Mathlib.Order.WellFounded

/-!
# Runs of a step relation

What one step preserves holds along a run, and a system whose steps are steps of another one runs
like it. A rank that every step lowers leads to a state in which nothing can happen any more,
whatever is done first; the rank of many parts that take steps one at a time is the sum of theirs.
-/

namespace Runs

open Relation

variable {σ τ β : Type} {step : σ → σ → Prop} {s s' : σ}

/-- What each step preserves is preserved by a run. -/
theorem invariant {I : σ → Prop} (hstep : ∀ s s', I s → step s s' → I s') (hs : I s)
    (hrun : ReflTransGen step s s') : I s' := by
  induction hrun with
  | refl => exact hs
  | tail _ h ih => exact hstep _ _ ih h

/-- If every step is a run of another system, as seen through a function, so is every run. -/
theorem simulates {step' : τ → τ → Prop} (f : σ → τ) {I : σ → Prop}
    (hstep : ∀ s s', I s → step s s' → I s')
    (hsim : ∀ s s', I s → step s s' → ReflTransGen step' (f s) (f s')) (hs : I s)
    (hrun : ReflTransGen step s s') : ReflTransGen step' (f s) (f s') := by
  induction hrun with
  | refl => exact .refl
  | tail hrun h ih => exact ih.trans (hsim _ _ (invariant hstep hs hrun) h)

/-- Nothing can happen any more. -/
def AtRest (step : σ → σ → Prop) (s : σ) : Prop := ∀ s', ¬step s s'

/-- Whatever steps are taken, they come to an end, and then the property holds. -/
structure ComesToRest (step : σ → σ → Prop) (P : σ → Prop) (s : σ) : Prop where
  ends : Acc (fun t' t => step t t') s
  rest : ∀ t, ReflTransGen step s t → AtRest step t → P t

/-- A rank that every step lowers ends every run. -/
theorem acc_of_rank [Preorder β] [WellFoundedLT β] {I : σ → Prop} (rank : σ → β)
    (hstep : ∀ s s', I s → step s s' → I s')
    (hrank : ∀ s s', I s → step s s' → rank s' < rank s) (hs : I s) :
    Acc (fun t' t => step t t') s := by
  induction hn : rank s using WellFoundedLT.induction generalizing s with
  | _ n ih =>
    constructor
    intro s' h
    exact ih (rank s') (hn ▸ hrank s s' hs h) (hstep s s' hs h) rfl

/-- A system of two parts, of which one takes a step at a time, comes to an end if both do. -/
theorem acc_of_parts {α γ : Type} {r : α → α → Prop} {q : γ → γ → Prop} (f : σ → α) (g : σ → γ)
    (hstep : ∀ s s', step s s' → r (f s) (f s') ∧ g s' = g s ∨ q (g s) (g s') ∧ f s' = f s)
    (hf : Acc (fun a' a => r a a') (f s)) (hg : Acc (fun b' b => q b b') (g s)) :
    Acc (fun t' t => step t t') s := by
  apply Subrelation.accessible (r := InvImage (Prod.GameAdd _ _) fun s => (f s, g s)) _
    (InvImage.accessible _ (hf.prod_gameAdd hg))
  intro t' t h
  rw [InvImage, Prod.gameAdd_mk_iff]
  exact hstep t t' h

/-- A system with such a rank comes to rest. -/
theorem comesToRest_of_rank [Preorder β] [WellFoundedLT β] {I P : σ → Prop} (rank : σ → β)
    (hstep : ∀ s s', I s → step s s' → I s')
    (hrank : ∀ s s', I s → step s s' → rank s' < rank s)
    (hrest : ∀ s, I s → AtRest step s → P s) (hs : I s) : ComesToRest step P s where
  ends := acc_of_rank rank hstep hrank hs
  rest t hrun ht := hrest t (invariant hstep hs hrun) ht

/-- A run that cannot go on for ever can be taken to its end. -/
theorem exists_rest_of_acc (h : Acc (fun t' t => step t t') s) :
    ∃ t, ReflTransGen step s t ∧ AtRest step t := by
  induction h with
  | intro s _ ih =>
    by_cases hs : AtRest step s
    · exact ⟨s, .refl, hs⟩
    · obtain ⟨s', h⟩ := not_forall_not.mp hs
      obtain ⟨t, hrun, ht⟩ := ih s' h
      exact ⟨t, .head h hrun, ht⟩

/-- What comes to rest can get there. -/
theorem ComesToRest.exists_run {P : σ → Prop} (h : ComesToRest step P s) :
    ∃ t, ReflTransGen step s t ∧ AtRest step t ∧ P t := by
  obtain ⟨t, hrun, ht⟩ := exists_rest_of_acc h.ends
  exact ⟨t, hrun, ht, h.rest t hrun ht⟩

/-- If some part gets on and none falls back, the sum of what is before them falls. -/
theorem sum_lt {f g : ℕ → ℕ} {n : ℕ} (hle : ∀ i, g i ≤ f i) (hlt : ∃ i < n, g i < f i) :
    ∑ i ∈ Finset.range n, g i < ∑ i ∈ Finset.range n, f i := by
  obtain ⟨i, hi, hg⟩ := hlt
  exact Finset.sum_lt_sum (fun i _ => hle i) ⟨i, Finset.mem_range.mpr hi, hg⟩

end Runs
