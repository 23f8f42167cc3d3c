import Mathlib.Data.Finset.Max
import NymphRpc.Base.Runs

/-!
# Recursive mutexes

Threads that lock and unlock mutexes and do work in between. A mutex is recursive: the thread that
has it can lock it again, and all others wait. If each thread locks the mutexes in an order, apart
from those it has, then the threads come to an end in whatever order they take their steps; and
while a thread keeps a mutex, no other does the work that the mutex guards.
-/

namespace Locks

open Relation

/-- What a thread does next. -/
inductive Action (L ω : Type)
  | lock (l : L)
  | unlock (l : L)
  | work (a : ω)

/-- The mutexes that a thread has, each as often as it is locked, and what is left to do. -/
structure Thread (L ω : Type) where
  held : List L
  todo : List (Action L ω)

/-- The threads, and the work that was done, with the thread that has done it. -/
structure System (L ω : Type) where
  threads : ℕ → Thread L ω
  log : List (ℕ × ω)

variable {L ω β : Type} {s s' : System L ω}

/-- A thread is replaced. -/
def System.set (s : System L ω) (i : ℕ) (x : Thread L ω) : System L ω :=
  { s with threads := Function.update s.threads i x }

@[simp] theorem System.threads_set (s : System L ω) (i j : ℕ) (x : Thread L ω) :
    (s.set i x).threads j = if j = i then x else s.threads j := by
  simp only [System.set, Function.update_apply]

@[simp] theorem System.log_set (s : System L ω) (i : ℕ) (x : Thread L ω) :
    (s.set i x).log = s.log := rfl

/-- No other thread has the mutex. -/
def System.Free (s : System L ω) (i : ℕ) (l : L) : Prop := ∀ j, j ≠ i → l ∉ (s.threads j).held

/-- A step of a thread. -/
inductive Step [DecidableEq L] : System L ω → System L ω → Prop
  | lock {s : System L ω} (i : ℕ) (l : L) (rest : List (Action L ω))
      (hi : (s.threads i).todo = .lock l :: rest) (hfree : s.Free i l) :
      Step s (s.set i ⟨l :: (s.threads i).held, rest⟩)
  | unlock {s : System L ω} (i : ℕ) (l : L) (rest : List (Action L ω))
      (hi : (s.threads i).todo = .unlock l :: rest) :
      Step s (s.set i ⟨(s.threads i).held.erase l, rest⟩)
  | work {s : System L ω} (i : ℕ) (a : ω) (rest : List (Action L ω))
      (hi : (s.threads i).todo = .work a :: rest) :
      Step s { s.set i ⟨(s.threads i).held, rest⟩ with log := s.log ++ [(i, a)] }

/-- No two threads have one mutex. -/
def Exclusive (s : System L ω) : Prop :=
  ∀ i j l, l ∈ (s.threads i).held → l ∈ (s.threads j).held → i = j

/-- All threads but the first so many have finished. -/
def Bounded (n : ℕ) (s : System L ω) : Prop := ∀ i, n ≤ i → (s.threads i).todo = []

/-- They stay apart if a thread goes on with no more mutexes than it has. -/
theorem Exclusive.set (hs : Exclusive s) {k : ℕ} {x : Thread L ω}
    (hsub : ∀ l ∈ x.held, l ∈ (s.threads k).held) : Exclusive (s.set k x) := by
  have hold : ∀ i l, l ∈ ((s.set k x).threads i).held → l ∈ (s.threads i).held := by
    intro i l hl
    rw [System.threads_set] at hl
    split_ifs at hl with heq
    · exact heq ▸ hsub l hl
    · exact hl
  intro i j l hi hj
  exact hs i j l (hold i l hi) (hold j l hj)

section

variable [DecidableEq L]

/-- A mutex is locked only while it is free. -/
theorem exclusive_step (hs : Exclusive s) (h : Step s s') : Exclusive s' := by
  cases h with
  | lock k m rest hk hfree =>
    intro i j l hi hj
    have hother : ∀ i', i' ≠ k → l ∈ (s.threads i').held → l ≠ m := by
      rintro i' hne hheld rfl
      exact hfree i' hne hheld
    have hsame := hs i j l
    grind [System.threads_set]
  | unlock k m rest hk => exact hs.set fun l hl => List.mem_of_mem_erase hl
  | work k a rest hk => exact hs.set fun l hl => hl

/-- No thread starts again. -/
theorem bounded_step {n : ℕ} (hs : Bounded n s) (h : Step s s') : Bounded n s' := by
  intro i hi
  have hdone := hs i hi
  cases h with
  | lock k _ _ hk | unlock k _ _ hk | work k _ _ hk =>
    have hne : i ≠ k := by
      rintro rfl
      rw [hdone] at hk
      cases hk
    simpa [hne] using hdone

/-! ### The order of the mutexes -/

section

variable [LinearOrder β] (order : L → β) (guard : ω → L)

/-- A thread that has these mutexes locks another only if it comes after all of them, unlocks what
it has, does only work whose mutex it has, and ends with none. -/
def Ordered : List L → List (Action L ω) → Prop
  | held, [] => held = []
  | held, .lock l :: rest =>
    (l ∈ held ∨ ∀ k ∈ held, order k < order l) ∧ Ordered (l :: held) rest
  | held, .unlock l :: rest => l ∈ held ∧ Ordered (held.erase l) rest
  | held, .work a :: rest => guard a ∈ held ∧ Ordered held rest

/-- All threads keep the order. -/
def Disciplined (s : System L ω) : Prop :=
  ∀ i, Ordered order guard (s.threads i).held (s.threads i).todo

variable {order guard}

/-- The order is kept. -/
theorem disciplined_step (hs : Disciplined order guard s) (h : Step s s') :
    Disciplined order guard s' := by
  intro i
  have hi := hs i
  cases h with
  | lock k _ _ hk | unlock k _ _ hk | work k _ _ hk =>
    by_cases heq : i = k
    · subst heq
      rw [hk] at hi
      simpa using hi.2
    · simpa [heq] using hi

/-- A thread that is not at a mutex of another thread can take a step. -/
theorem exists_step_or_waits {i : ℕ} (hi : (s.threads i).todo ≠ []) :
    (∃ s', Step s s') ∨ ∃ l rest, (s.threads i).todo = .lock l :: rest ∧
      ∃ j, j ≠ i ∧ l ∈ (s.threads j).held := by
  cases htodo : (s.threads i).todo with
  | nil => exact absurd htodo hi
  | cons a rest =>
    cases a with
    | unlock l => exact .inl ⟨_, .unlock i l rest htodo⟩
    | work a => exact .inl ⟨_, .work i a rest htodo⟩
    | lock l =>
      by_cases hfree : s.Free i l
      · exact .inl ⟨_, .lock i l rest htodo hfree⟩
      · rw [System.Free] at hfree
        push Not at hfree
        exact .inr ⟨l, rest, rfl, hfree⟩

/-- Threads that keep the order do not wait for each other: while one has something to do, one can
take a step. -/
theorem exists_step {n : ℕ} (hn : Bounded n s) (hexclusive : Exclusive s)
    (hs : Disciplined order guard s) {i : ℕ} (hi : (s.threads i).todo ≠ []) :
    ∃ s', Step s s' := by
  by_contra hstuck
  have hwaits : ∀ i, ∃ l j, (s.threads i).todo ≠ [] →
      (∃ rest, (s.threads i).todo = .lock l :: rest) ∧ j ≠ i ∧ l ∈ (s.threads j).held := by
    obtain ⟨l, -⟩ := (exists_step_or_waits hi).resolve_left hstuck
    intro i
    by_cases hi : (s.threads i).todo = []
    · exact ⟨l, 0, fun h => absurd hi h⟩
    · obtain ⟨l, rest, htodo, j, hj, hl⟩ := (exists_step_or_waits hi).resolve_left hstuck
      exact ⟨l, j, fun _ => ⟨⟨rest, htodo⟩, hj, hl⟩⟩
  choose waitsFor holder hwaits using hwaits
  -- of the threads that are not done, the one whose mutex comes last
  have hlt : ∀ i, (s.threads i).todo ≠ [] → i < n := by
    intro i hi
    by_contra hge
    exact hi (hn i (not_lt.mp hge))
  let active := (Finset.range n).filter fun i => (s.threads i).todo ≠ []
  have hactive : ∀ i, (s.threads i).todo ≠ [] → i ∈ active :=
    fun i hi => Finset.mem_filter.mpr ⟨Finset.mem_range.mpr (hlt i hi), hi⟩
  obtain ⟨m, hm, hlast⟩ :=
    active.exists_max_image (fun i => order (waitsFor i)) ⟨i, hactive i hi⟩
  obtain ⟨-, hm⟩ := Finset.mem_filter.mp hm
  obtain ⟨-, -, hheld⟩ := hwaits m hm
  have hj : (s.threads (holder m)).todo ≠ [] := by
    intro hdone
    have hnone := hs (holder m)
    rw [hdone, Ordered] at hnone
    rw [hnone] at hheld
    cases hheld
  obtain ⟨⟨rest, htodo⟩, hother, hheld'⟩ := hwaits (holder m) hj
  have hordered := hs (holder m)
  rw [htodo, Ordered] at hordered
  rcases hordered.1 with hself | hafter
  · exact hother (hexclusive _ _ _ hheld' hself)
  · exact absurd (hafter _ hheld) (not_lt.mpr (hlast _ (hactive _ hj)))

/-- Every step leaves less to do. -/
theorem rank_lt {n : ℕ} (hn : Bounded n s) (h : Step s s') :
    ∑ i ∈ Finset.range n, (s'.threads i).todo.length <
      ∑ i ∈ Finset.range n, (s.threads i).todo.length := by
  cases h with
  | lock k _ _ hk | unlock k _ _ hk | work k _ _ hk =>
    refine Runs.sum_lt (fun i => ?_) ⟨k, ?_, by simp [hk]⟩
    · by_cases heq : i = k
      · subst heq
        simp [hk]
      · simp [heq]
    · by_contra hge
      rw [hn k (not_lt.mp hge)] at hk
      cases hk

/-- Threads that keep the order come to an end, and then all mutexes are free. -/
theorem comesToRest {n : ℕ} (hn : Bounded n s) (hexclusive : Exclusive s)
    (hs : Disciplined order guard s) :
    Runs.ComesToRest Step
      (fun t : System L ω => ∀ i, (t.threads i).todo = [] ∧ (t.threads i).held = []) s := by
  refine Runs.comesToRest_of_rank
    (I := fun s => Bounded n s ∧ Exclusive s ∧ Disciplined order guard s)
    (fun s => ∑ i ∈ Finset.range n, (s.threads i).todo.length) ?_ ?_ ?_ ⟨hn, hexclusive, hs⟩
  · rintro s s' ⟨hn, hexclusive, hs⟩ h
    exact ⟨bounded_step hn h, exclusive_step hexclusive h, disciplined_step hs h⟩
  · rintro s s' ⟨hn, -, -⟩ h
    exact rank_lt hn h
  · rintro s ⟨hn, hexclusive, hs⟩ hrest i
    have hdone : (s.threads i).todo = [] := by
      by_contra hi
      obtain ⟨s', h⟩ := exists_step hn hexclusive hs hi
      exact hrest s' h
    have hi := hs i
    rw [hdone, Ordered] at hi
    exact ⟨hdone, hi⟩

/-- While a thread has a mutex, all work that the mutex guards is its own. -/
theorem log_step {i : ℕ} {l : L} (hexclusive : Exclusive s) (hs : Disciplined order guard s)
    (hi : l ∈ (s.threads i).held) (h : Step s s') :
    ∃ added, s'.log = s.log ++ added ∧ ∀ e ∈ added, guard e.2 = l → e.1 = i := by
  cases h with
  | lock | unlock => exact ⟨[], by simp⟩
  | work k a rest hk =>
    refine ⟨[(k, a)], rfl, ?_⟩
    rintro e he rfl
    obtain rfl := List.mem_singleton.mp he
    have hordered := hs k
    rw [hk, Ordered] at hordered
    exact hexclusive _ _ _ hordered.1 hi

end

end

end Locks
