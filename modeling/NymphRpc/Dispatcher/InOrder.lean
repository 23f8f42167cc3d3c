import NymphRpc.Dispatcher.Finished

/-!
# Requests in order

A pool of one worker keeps the order of requests that are passed one after the other, if no gaps
overlap: a request goes straight to the worker only when the queue is empty and the worker has
nothing left, and the queue gives them out as they came. Which requests are to be kept in order is
a relation here; a request may only be passed when `addRequest` has returned for those before it.
-/

namespace NymphRpc

namespace Dispatcher

variable {s s' : Dispatcher} {before before' : ℕ → ℕ → Prop}

/-- A worker has been given the request. -/
def Given (s : Dispatcher) (r : ℕ) : Prop :=
  (∃ w, (s.allWorkers w).ready = true ∧ (s.allWorkers w).request = r) ∨
    (∃ w, (s.allWorkers w).phase = .processing r) ∨ r ∈ s.finished

/-- A request that was given to a worker had those before it finished, and the queue has no request
behind one that comes after it. -/
structure InOrder (before : ℕ → ℕ → Prop) (s : Dispatcher) : Prop where
  returned : ∀ r r', before r r' → s.calls r' ≠ .notCalled → s.calls r = .returned
  given : ∀ r r', before r r' → s.Given r' → r ∈ s.finished
  requests : s.requests.Pairwise fun r r' => ¬before r' r

/-- A request that was given was passed. -/
theorem Placed.called_of_given (hp : s.Placed) {r : ℕ} (hr : s.Given r) :
    s.calls r ≠ .notCalled := by
  apply (hp.passed r).mpr
  rcases hr with ⟨w, hw⟩ | ⟨w, hw⟩ | hfinished
  · exact ⟨.assigned w, hw⟩
  · exact ⟨.processing w, hw⟩
  · exact ⟨.finished, hfinished⟩

/-- The order can be extended by requests that were not passed yet. -/
theorem InOrder.extend (hs : s.InOrder before) (hp : s.Placed)
    (h : ∀ r r', before' r r' → before r r' ∨ s.calls r' = .notCalled) : s.InOrder before' where
  returned r r' hbefore hr' := hs.returned r r' ((h r r' hbefore).resolve_right hr') hr'
  given r r' hbefore hr' :=
    hs.given r r' ((h r r' hbefore).resolve_right (hp.called_of_given hr')) hr'
  requests := by
    refine hs.requests.imp_of_mem ?_
    intro r r' hr hr' hnot hbefore
    have hcalled : s.calls r ≠ .notCalled := (hp.passed r).mpr ⟨.queued, hr⟩
    exact hnot ((h r' r hbefore).resolve_right hcalled)

/-- What has returned, is not in the queue and that no worker has left, is finished. -/
theorem Placed.finished_of_idle (hp : s.Placed) {r : ℕ} (hr : s.calls r = .returned)
    (hqueue : r ∉ s.requests)
    (hidle : ∀ w, (s.allWorkers w).ready = false ∧ ∀ i, (s.allWorkers w).phase ≠ .processing i) :
    r ∈ s.finished := by
  obtain ⟨p, hplace⟩ := (hp.passed r).mp (by simp [hr])
  cases p with
  | finished => exact hplace
  | queued => exact absurd hplace hqueue
  | call => simp [hr] at hplace
  | assigned w => exact absurd hplace.1 (by simp [(hidle w).1])
  | processing w => exact absurd hplace ((hidle w).2 r)

/-- In a pool of one worker, no worker has anything left if this one has not. -/
theorem Pooled.idle_of_one (hs : s.Pooled 1) {w : ℕ} (hw : (s.allWorkers w).phase ≠ .absent)
    (hready : (s.allWorkers w).ready = false)
    (hprocessing : ∀ i, (s.allWorkers w).phase ≠ .processing i) (j : ℕ) :
    (s.allWorkers j).ready = false ∧ ∀ i, (s.allWorkers j).phase ≠ .processing i := by
  have hle := hs.threads
  have hlt : w < s.threads := by
    by_contra hge
    exact hw (hs.created w (by omega)).1
  by_cases hj : j = w
  · rw [hj]
    exact ⟨hready, hprocessing⟩
  · obtain ⟨hphase, hready'⟩ := hs.created j (by omega)
    exact ⟨hready', by simp [hphase]⟩

/-- A call that has returned stays so. -/
theorem returned_step {poolSize : ℕ} (h : DispatchStep poolSize s s') {r : ℕ}
    (hr : s.calls r = .returned) : s'.calls r = .returned := by
  cases h <;> grind

/-- A request is given to a worker that waits, or to a new one, or to one that takes it from the
front of the queue. -/
theorem given_step {poolSize : ℕ} (hs : s.Pooled poolSize) (h : DispatchStep poolSize s s') {r : ℕ}
    (hr : s'.Given r) : s.Given r ∨
      (∃ w rest, s.calls r = .entered ∧ s.workersMutex = none ∧ s.workers = w :: rest) ∨
      s.calls r = .entered ∧ s.workers = [] ∧ s.threads < poolSize ∨
      ∃ w rest, (s.allWorkers w).phase = .adding ∧ s.requests = r :: rest := by
  have hprocessing := hs.processing
  by_cases hold : s.Given r
  · exact .inl hold
  obtain ⟨hassigned, hstarted, hfinished⟩ : (∀ w, (s.allWorkers w).ready = true →
      (s.allWorkers w).request ≠ r) ∧ (∀ w, (s.allWorkers w).phase ≠ .processing r) ∧
      r ∉ s.finished := by
    unfold Given at hold
    push Not at hold
    exact hold
  cases h with
  | setRequest i w rest hi hfree hw =>
    have hsame : i = r := by
      rcases hr with ⟨j, hj⟩ | ⟨j, hj⟩ | hj <;> grind [Worker.setRequest]
    subst hsame
    exact .inr (.inl ⟨w, rest, hi, hfree, hw⟩)
  | create i hi hfree hw hpool =>
    have hsame : i = r := by
      rcases hr with ⟨j, hj⟩ | ⟨j, hj⟩ | hj <;> grind [Worker.setRequest]
    subst hsame
    exact .inr (.inr (.inl ⟨hi, hw, hpool⟩))
  | pull w i rest hw hi =>
    have hsame : i = r := by
      rcases hr with ⟨j, hj⟩ | ⟨j, hj⟩ | hj <;> grind [Worker.setRequest]
    subst hsame
    exact .inr (.inr (.inr ⟨w, rest, hw, hi⟩))
  | _ =>
    exfalso
    rcases hr with ⟨j, hj⟩ | ⟨j, hj⟩ | hj <;> grind

namespace InOrder

section

variable (hs : s.InOrder before) (hplaced : s.Placed) (h : DispatchStep 1 s s')

include hs hplaced h

/-- A request is given to a worker when those before it are finished. -/
theorem given_step (hpooled : s.Pooled 1) (hwaits : s.Waits 1) (hempty : s.OneEmpty)
    (hirrefl : ∀ r, ¬before r r) (r r' : ℕ) (hbefore : before r r') (hr' : s'.Given r') :
    r ∈ s'.finished := by
  apply mem_finished_step h
  rcases Dispatcher.given_step hpooled h hr' with
    hold | ⟨w, rest, hentered, hfree, hworkers⟩ | ⟨hentered, hworkers, hthreads⟩ |
      ⟨w, rest, hadding, hrequests⟩
  · exact hs.given r r' hbefore hold
  · -- the worker waits, so it has nothing left, and the queue is empty
    have hreturned := hs.returned r r' hbefore (by simp [hentered])
    obtain ⟨hphase, hready⟩ :=
      hpooled.waiting_of_free hfree (w := w) (hworkers ▸ List.mem_cons_self)
    have hqueue : s.requests = [] := hempty.queues.resolve_right (by simp [hworkers])
    exact hplaced.finished_of_idle hreturned (by simp [hqueue])
      (hpooled.idle_of_one (w := w) (by simp [hphase]) hready (by simp [hphase]))
  · -- there is no worker yet, so nothing was passed before
    have hreturned := hs.returned r r' hbefore (by simp [hentered])
    have hqueue : s.requests = [] := by
      by_contra hne
      have hfull := hwaits.full (.inr hne)
      omega
    refine hplaced.finished_of_idle hreturned (by simp [hqueue]) fun j => ?_
    obtain ⟨hphase, hready⟩ := hpooled.created j (by omega)
    exact ⟨hready, by simp [hphase]⟩
  · -- the worker looks for a request, so it has nothing left
    have hcalled : s.calls r' ≠ .notCalled :=
      (hplaced.passed r').mpr ⟨.queued, by simp [hrequests]⟩
    have hreturned := hs.returned r r' hbefore hcalled
    have hqueue : r ∉ s.requests := by
      have hpairwise := hs.requests
      rw [hrequests, List.pairwise_cons] at hpairwise
      rw [hrequests, List.mem_cons]
      rintro (rfl | hmem)
      · exact hirrefl r hbefore
      · exact hpairwise.1 r hmem hbefore
    exact hplaced.finished_of_idle hreturned hqueue
      (hpooled.idle_of_one (w := w) (by simp [hadding]) (hpooled.not_ready (.inl hadding))
        (by simp [hadding]))

/-- The queue stays in order. -/
theorem requests_step : s'.requests.Pairwise fun r r' => ¬before r' r := by
  have hrequests := hs.requests
  cases h with
  | push i hi =>
    refine List.pairwise_append.mpr ⟨hrequests, List.pairwise_singleton _ _, ?_⟩
    intro r hr r' hr' hbefore
    obtain rfl := List.mem_singleton.mp hr'
    have hreturned := hs.returned r' r hbefore ((hplaced.passed r).mpr ⟨.queued, hr⟩)
    rw [hi] at hreturned
    cases hreturned
  | pull w i rest hw hi =>
    rw [hi] at hrequests
    exact (List.pairwise_cons.mp hrequests).2
  | _ => exact hrequests

/-- A step keeps the order, if a request is passed only when `addRequest` has returned for those
before it. -/
theorem step (hpooled : s.Pooled 1) (hwaits : s.Waits 1) (hempty : s.OneEmpty)
    (hirrefl : ∀ r, ¬before r r) (hpass : ∀ r', s.calls r' = .notCalled →
      s'.calls r' ≠ .notCalled → ∀ r, before r r' → s.calls r = .returned) : s'.InOrder before where
  returned r r' hbefore hr' := by
    apply returned_step h
    by_cases hcalled : s.calls r' = .notCalled
    · exact hpass r' hcalled hr' r hbefore
    · exact hs.returned r r' hbefore hcalled
  given := hs.given_step hplaced h hpooled hwaits hempty hirrefl
  requests := hs.requests_step hplaced h

end

end InOrder

end Dispatcher

end NymphRpc
