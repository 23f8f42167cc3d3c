import Mathlib.Data.List.Nodup
import NymphRpc.Dispatcher.Dispatcher

/-!
# Every request is in one place

A request goes from its call to the requests queue or straight to a worker, from the queue to a
worker, and with that worker to its end. A step moves one request or none. What keeps two
requests apart is that the worker whose request is set is still waiting: the queue of the workers
holds waiting workers only, apart from the one at the front while `workersMutex` is kept over it,
and that one cannot come back to the queue before it is taken out.
-/

namespace NymphRpc

/-- Where a request can be. -/
inductive Place
  | call
  | queued
  | assigned (w : ℕ)
  | processing (w : ℕ)
  | finished

namespace Dispatcher

/-- The request is at the place. -/
def At (s : Dispatcher) (r : ℕ) : Place → Prop
  | .call => s.calls r = .entered ∨ s.calls r = .deferred
  | .queued => r ∈ s.requests
  | .assigned w => (s.allWorkers w).ready = true ∧ (s.allWorkers w).request = r
  | .processing w => (s.allWorkers w).phase = .processing r
  | .finished => r ∈ s.finished

section

variable (s : Dispatcher) (r w : ℕ)

@[simp, grind =] theorem at_call :
    s.At r .call ↔ s.calls r = .entered ∨ s.calls r = .deferred := Iff.rfl

@[simp, grind =] theorem at_queued : s.At r .queued ↔ r ∈ s.requests := Iff.rfl

@[simp, grind =] theorem at_assigned : s.At r (.assigned w) ↔
    (s.allWorkers w).ready = true ∧ (s.allWorkers w).request = r := Iff.rfl

@[simp, grind =] theorem at_processing :
    s.At r (.processing w) ↔ (s.allWorkers w).phase = .processing r := Iff.rfl

@[simp, grind =] theorem at_finished : s.At r .finished ↔ r ∈ s.finished := Iff.rfl

end

/-- The worker has a request that it has not finished. -/
def Busy (s : Dispatcher) (w : ℕ) : Prop :=
  (s.allWorkers w).ready = true ∨ ∃ r, (s.allWorkers w).phase = .processing r

variable {poolSize : ℕ} {s s' : Dispatcher}

/-- What is known of the workers and their queue. -/
structure Pooled (poolSize : ℕ) (s : Dispatcher) : Prop where
  threads : s.threads ≤ poolSize
  created : ∀ w, s.threads ≤ w →
    (s.allWorkers w).phase = .absent ∧ (s.allWorkers w).ready = false
  ready : ∀ w, (s.allWorkers w).ready = true →
    (s.allWorkers w).phase = .running ∨ (s.allWorkers w).phase = .waiting
  processing : ∀ w r, (s.allWorkers w).phase = .processing r → (s.allWorkers w).request = r
  front : ∀ r w, s.calls r = .setting w → s.workersMutex = some r ∧ s.workers.head? = some w
  waiting : ∀ w ∈ s.workers,
    (s.allWorkers w).phase = .waiting ∧ (s.allWorkers w).ready = false ∨
      s.workersMutex ≠ none ∧ s.workers.head? = some w
  nodup : s.workers.Nodup

namespace Pooled

section

variable (hs : s.Pooled poolSize)

include hs

/-- While nobody keeps `workersMutex` the queue holds waiting workers only. -/
theorem waiting_of_free (hfree : s.workersMutex = none) {w : ℕ} (hw : w ∈ s.workers) :
    (s.allWorkers w).phase = .waiting ∧ (s.allWorkers w).ready = false := by
  rcases hs.waiting w hw with hwaiting | ⟨hkept, -⟩
  · exact hwaiting
  · exact absurd hfree hkept

/-- The workers behind the front are others than the one at the front. -/
theorem mem_of_mem_tail {w : ℕ} (hw : w ∈ s.workers.tail) :
    w ∈ s.workers ∧ s.workers.head? ≠ some w := by
  have hnodup := hs.nodup
  cases hworkers : s.workers with
  | nil =>
    rw [hworkers] at hw
    cases hw
  | cons front rest =>
    rw [hworkers, List.nodup_cons] at hnodup
    rw [hworkers] at hw
    refine ⟨List.mem_cons_of_mem _ hw, fun hfront => hnodup.1 ?_⟩
    cases hfront
    exact hw

/-- A worker that is ready is not in `addWorker`. -/
theorem not_ready {w : ℕ}
    (hw : (s.allWorkers w).phase = .adding ∨ (s.allWorkers w).phase = .parking) :
    (s.allWorkers w).ready = false := by
  by_contra hready
  rcases hs.ready w (by simpa using hready) with hphase | hphase
  all_goals
    rw [hphase] at hw
    simp at hw

variable (h : DispatchStep poolSize s s')

include h

/-- There are never more workers than the pool holds. -/
theorem threads_step : s'.threads ≤ poolSize := by
  have hle := hs.threads
  cases h <;> grind

/-- A worker that was not created does nothing. -/
theorem created_step (w : ℕ) (hw : s'.threads ≤ w) :
    (s'.allWorkers w).phase = .absent ∧ (s'.allWorkers w).ready = false := by
  have hcreated := hs.created w
  have hwaiting : ∀ {w}, s.workersMutex = none → w ∈ s.workers →
      (s.allWorkers w).phase = .waiting := fun hfree hw => (hs.waiting_of_free hfree hw).1
  cases h <;> grind [Worker.setRequest]

/-- A worker gets its request before it looks for one. -/
theorem ready_step (w : ℕ) (hw : (s'.allWorkers w).ready = true) :
    (s'.allWorkers w).phase = .running ∨ (s'.allWorkers w).phase = .waiting := by
  have hready := hs.ready w
  have hwaiting : ∀ {w}, s.workersMutex = none → w ∈ s.workers →
      (s.allWorkers w).phase = .waiting := fun hfree hw => (hs.waiting_of_free hfree hw).1
  cases h <;> grind [Worker.setRequest]

/-- A worker that executes a request has that request. -/
theorem processing_step (w r : ℕ) (hw : (s'.allWorkers w).phase = .processing r) :
    (s'.allWorkers w).request = r := by
  have hprocessing := hs.processing
  have hwaiting : ∀ {w}, s.workersMutex = none → w ∈ s.workers →
      (s.allWorkers w).phase = .waiting := fun hfree hw => (hs.waiting_of_free hfree hw).1
  cases h <;> grind [Worker.setRequest]

/-- Whoever sets a request keeps `workersMutex`, and the worker stays at the front. -/
theorem front_step (r w : ℕ) (hr : s'.calls r = .setting w) :
    s'.workersMutex = some r ∧ s'.workers.head? = some w := by
  have hfront := hs.front
  cases h <;> grind

/-- The other workers in the queue wait. -/
theorem waiting_step (w : ℕ) (hw : w ∈ s'.workers) :
    (s'.allWorkers w).phase = .waiting ∧ (s'.allWorkers w).ready = false ∨
      s'.workersMutex ≠ none ∧ s'.workers.head? = some w := by
  have hwaiting := hs.waiting
  have hcreated := hs.created
  have hready := hs.ready
  have hnodup := hs.nodup
  have hadding := fun w => hs.not_ready (w := w)
  have htail := fun w => hs.mem_of_mem_tail (w := w)
  cases h <;> grind [Worker.setRequest]

/-- No worker is in the queue twice. -/
theorem nodup_step : s'.workers.Nodup := by
  have hnodup := hs.nodup
  have hwaiting : ∀ {w}, s.workersMutex = none → w ∈ s.workers →
      (s.allWorkers w).phase = .waiting := fun hfree hw => (hs.waiting_of_free hfree hw).1
  cases h <;> grind

/-- The invariant survives every step. -/
theorem step : s'.Pooled poolSize where
  threads := hs.threads_step h
  created := hs.created_step h
  ready := hs.ready_step h
  processing := hs.processing_step h
  front := hs.front_step h
  waiting := hs.waiting_step h
  nodup := hs.nodup_step h

end

end Pooled

/-- Every request that was passed is at one place, and in no queue twice. -/
structure Placed (s : Dispatcher) : Prop where
  unique : ∀ r p q, s.At r p → s.At r q → p = q
  passed : ∀ r, s.calls r ≠ .notCalled ↔ ∃ p, s.At r p
  requests : s.requests.Nodup
  finished : s.finished.Nodup

/-- The request comes to a place, and no other request moves. -/
structure Moves (s s' : Dispatcher) (r : ℕ) (q : Place) : Prop where
  others : ∀ i, i ≠ r → ∀ p, s'.At i p ↔ s.At i p
  moved : ∀ p, s'.At r p ↔ p = q
  calls : ∀ i, i ≠ r → s'.calls i = s.calls i
  passed : s'.calls r ≠ .notCalled

namespace Placed

section

variable (hp : s.Placed)

include hp

/-- A request at a place is at no other. -/
theorem only {r : ℕ} {q : Place} (hr : s.At r q) (p : Place) : s.At r p ↔ p = q :=
  ⟨fun h => hp.unique r p q h hr, fun h => h ▸ hr⟩

/-- Moving one request keeps all at one place. -/
theorem move {r : ℕ} {q : Place} (h : Moves s s' r q) (hrequests : s'.requests.Nodup)
    (hfinished : s'.finished.Nodup) : s'.Placed where
  unique i p p' hp' hp'' := by
    by_cases hi : i = r
    · subst hi
      rw [h.moved] at hp' hp''
      rw [hp', hp'']
    · rw [h.others i hi] at hp' hp''
      exact hp.unique i p p' hp' hp''
  passed i := by
    by_cases hi : i = r
    · subst hi
      exact ⟨fun _ => ⟨q, (h.moved q).mpr rfl⟩, fun _ => h.passed⟩
    · rw [h.calls i hi, hp.passed i]
      exact exists_congr fun p => (h.others i hi p).symm
  requests := hrequests
  finished := hfinished

/-- A step that moves no request keeps all at one place. -/
theorem stay (h : ∀ i p, s'.At i p ↔ s.At i p)
    (hcalls : ∀ i, s'.calls i = .notCalled ↔ s.calls i = .notCalled)
    (hrequests : s'.requests = s.requests) (hfinished : s'.finished = s.finished) : s'.Placed where
  unique i p q hp' hq := hp.unique i p q ((h i p).mp hp') ((h i q).mp hq)
  passed i := by
    rw [ne_eq, hcalls i]
    exact (hp.passed i).trans (exists_congr fun p => (h i p).symm)
  requests := hrequests ▸ hp.requests
  finished := hfinished ▸ hp.finished

/-- A request that was not passed is nowhere. -/
theorem nowhere {r : ℕ} (hr : s.calls r = .notCalled) (p : Place) : ¬s.At r p :=
  fun h => (hp.passed r).mpr ⟨p, h⟩ hr

/-- Every request that was passed stays at one place. -/
theorem step (hs : s.Pooled poolSize) (h : DispatchStep poolSize s s') : s'.Placed := by
  have hwaiting : ∀ {w}, s.workersMutex = none → w ∈ s.workers →
      (s.allWorkers w).phase = .waiting ∧ (s.allWorkers w).ready = false := fun hfree hw =>
    hs.waiting_of_free hfree hw
  cases h with
  | addRequest r hr =>
    have hno := hp.nowhere hr
    refine hp.move (r := r) (q := .call) ⟨fun i hi p => ?_, fun p => ?_, ?_, ?_⟩
      hp.requests hp.finished
    · cases p <;> grind
    · have hno' := hno p
      cases p <;> grind
    · grind
    · grind
  | setRequest r w rest hr hfree hw =>
    have honly := hp.only (r := r) (q := .call) (.inl hr)
    refine hp.move (r := r) (q := .assigned w) ⟨fun i hi p => ?_, fun p => ?_, ?_, ?_⟩
      hp.requests hp.finished
    · cases p <;> grind [Worker.setRequest]
    · have honly' := honly p
      cases p <;> grind [Worker.setRequest]
    · grind
    · grind
  | pop r w hr =>
    refine hp.stay (fun i p => ?_) (fun i => ?_) rfl rfl
    · cases p <;> grind
    · grind
  | create r hr hfree hw hpool =>
    have honly := hp.only (r := r) (q := .call) (.inl hr)
    have hcreated := hs.created s.threads (Nat.le_refl _)
    refine hp.move (r := r) (q := .assigned s.threads) ⟨fun i hi p => ?_, fun p => ?_, ?_, ?_⟩
      hp.requests hp.finished
    · cases p <;> grind [Worker.setRequest]
    · have honly' := honly p
      cases p <;> grind [Worker.setRequest]
    · grind
    · grind
  | defer r hr hfree hw hpool =>
    refine hp.stay (fun i p => ?_) (fun i => ?_) rfl rfl
    · cases p <;> grind
    · grind
  | push r hr =>
    have honly := hp.only (r := r) (q := .call) (.inr hr)
    have hnot : r ∉ s.requests := fun hmem => by cases (honly .queued).mp hmem
    refine hp.move (r := r) (q := .queued) ⟨fun i hi p => ?_, fun p => ?_, ?_, ?_⟩
      ?_ hp.finished
    · cases p <;> grind
    · have honly' := honly p
      cases p <;> grind
    · grind
    · grind
    · exact List.Nodup.append hp.requests (List.nodup_singleton r) (by simpa using hnot)
  | process w hw hready =>
    have honly := hp.only (q := .assigned w) ⟨hready, rfl⟩
    refine hp.move (r := (s.allWorkers w).request) (q := .processing w)
      ⟨fun i hi p => ?_, fun p => ?_, ?_, ?_⟩ hp.requests hp.finished
    · cases p <;> grind
    · have honly' := honly p
      cases p <;> grind
    · grind
    · exact (hp.passed _).mpr ⟨.assigned w, hready, rfl⟩
  | finish w r hw =>
    have honly := hp.only (r := r) (q := .processing w) hw
    have hrequest := hs.processing w r hw
    have hnot : r ∉ s.finished := fun hmem => by cases (honly .finished).mp hmem
    refine hp.move (r := r) (q := .finished) ⟨fun i hi p => ?_, fun p => ?_, ?_, ?_⟩
      hp.requests ?_
    · cases p <;> grind
    · have honly' := honly p
      cases p <;> grind
    · grind
    · exact (hp.passed _).mpr ⟨.processing w, hw⟩
    · rw [hrequest]
      exact List.Nodup.append hp.finished (List.nodup_singleton r) (by simpa using hnot)
  | pull w r rest hw hr =>
    have honly := hp.only (r := r) (q := .queued) (by simp [hr])
    have hready := hs.not_ready (.inl hw)
    have hnodup := hp.requests
    refine hp.move (r := r) (q := .assigned w) ⟨fun i hi p => ?_, fun p => ?_, ?_, ?_⟩
      ?_ hp.finished
    · cases p <;> grind [Worker.setRequest]
    · have honly' := honly p
      cases p <;> grind [Worker.setRequest]
    · grind
    · exact (hp.passed _).mpr ⟨.queued, by simp [hr]⟩
    · rw [hr] at hnodup
      exact (List.nodup_cons.mp hnodup).2
  | skip w hw hready | seeNone w hw hr | park w hw hfree | wake w hw hready =>
    refine hp.stay (fun i p => ?_) (fun i => ?_) rfl rfl
    · cases p <;> grind
    · grind

end

end Placed

/-- A step leaves the request of a busy worker alone. -/
theorem request_step (hs : s.Pooled poolSize) (h : DispatchStep poolSize s s') {w : ℕ}
    (hw : s.Busy w) : (s'.allWorkers w).request = (s.allWorkers w).request := by
  have hwaiting : ∀ {w}, s.workersMutex = none → w ∈ s.workers →
      (s.allWorkers w).phase = .waiting ∧ (s.allWorkers w).ready = false := fun hfree hw =>
    hs.waiting_of_free hfree hw
  have hcreated := hs.created
  have hadding := fun w => hs.not_ready (w := w)
  rcases hw with hready | ⟨r, hr⟩
  · cases h <;> grind [Worker.setRequest]
  · cases h <;> grind [Worker.setRequest]

/-- There are no workers and no requests after `init`. -/
theorem pooled_initial : initial.Pooled poolSize := by
  constructor <;> simp [initial]

/-- No request was passed before the first call. -/
theorem placed_initial : initial.Placed := by
  have hnowhere : ∀ r p, ¬initial.At r p := by
    intro r p
    cases p <;> simp [initial]
  exact ⟨fun r p _ hp _ => absurd hp (hnowhere r p),
    fun r => ⟨fun h => absurd rfl h, fun ⟨p, hp⟩ => absurd hp (hnowhere r p)⟩,
    List.nodup_nil, List.nodup_nil⟩

/-- The invariants hold in every state the dispatcher can get into. -/
theorem Reachable.invariant (h : s.Reachable poolSize) : s.Pooled poolSize ∧ s.Placed := by
  induction h with
  | refl => exact ⟨pooled_initial, placed_initial⟩
  | tail _ hstep ih => exact ⟨ih.1.step hstep, ih.2.step ih.1 hstep⟩

end Dispatcher

open Dispatcher

/-- The dispatcher neither loses, duplicates nor overwrites a request: every request that was
passed to `addRequest` is in one place, and once in a queue; a worker with a request that it has
not finished is given no other; no worker is in the queue twice, and there are no more workers
than the pool holds. -/
theorem requests_kept {poolSize : ℕ} {s : Dispatcher} (hs : s.Reachable poolSize) :
    (∀ r, s.calls r ≠ .notCalled → ∃! p, s.At r p) ∧ s.requests.Nodup ∧ s.finished.Nodup ∧
      (∀ w s', s.Busy w → DispatchStep poolSize s s' →
        (s'.allWorkers w).request = (s.allWorkers w).request) ∧
      s.workers.Nodup ∧ s.threads ≤ poolSize ∧
      ∀ w, s.threads ≤ w → (s.allWorkers w).phase = .absent := by
  obtain ⟨hpooled, hplaced⟩ := hs.invariant
  refine ⟨fun r hr => ?_, hplaced.requests, hplaced.finished,
    fun w s' hw hstep => request_step hpooled hstep hw, hpooled.nodup, hpooled.threads,
    fun w hw => (hpooled.created w hw).1⟩
  obtain ⟨p, hp⟩ := (hplaced.passed r).mp hr
  exact ⟨p, hp, fun q hq => hplaced.unique r q p hq hp⟩

/-- A request that creates the only worker of a pool is finished by it, and is nowhere else. -/
theorem requests_kept_run : ∃ s : Dispatcher, s.Reachable 1 ∧ s.At 0 .finished ∧
    ∃! p, s.At 0 p := by
  have hcreated := ((Relation.ReflTransGen.refl (r := DispatchStep 1) (a := initial)).tail
    (.addRequest 0 rfl)).tail (.create 0 rfl rfl rfl Nat.zero_lt_one)
  have hfinished := (hcreated.tail (.process 0 rfl rfl)).tail (.finish 0 0 rfl)
  exact ⟨_, hfinished, List.mem_singleton.mpr rfl,
    (requests_kept hfinished).1 0 AddRequestPhase.noConfusion⟩

end NymphRpc
