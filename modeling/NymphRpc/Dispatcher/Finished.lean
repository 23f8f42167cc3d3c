import Mathlib.Data.Prod.Lex
import NymphRpc.Base.Runs
import NymphRpc.Dispatcher.Gaps
import NymphRpc.Dispatcher.Placement

/-!
# Where the dispatcher comes to rest

If no more requests are passed the dispatcher comes to rest, since a request only gets nearer to
its end and a worker only looks for another one once. What is left then is a request in its queue
beside a full pool of waiting workers, and only overlapping gaps leave one.
-/

namespace NymphRpc

/-- How many sections are before the call. -/
@[grind] def AddRequestPhase.ahead : AddRequestPhase → ℕ
  | notCalled | returned => 0
  | setting _ | deferred => 1
  | entered => 2

/-- How many steps the worker can take before it needs a request. -/
@[grind] def Worker.ahead (w : Worker) : ℕ :=
  match w.phase with
  | .absent => 0
  | .waiting => if w.ready then 7 else 0
  | .running => if w.ready then 6 else 5
  | .processing _ => 5
  | .adding => 4
  | .parking => 3

/-- The call keeps `workersMutex`. -/
@[grind] def AddRequestPhase.sets : AddRequestPhase → Bool
  | setting _ => true
  | notCalled | entered | deferred | returned => false

namespace Dispatcher

variable {poolSize : ℕ} {s s' : Dispatcher}

/-- Who keeps `workersMutex`, which workers are in the queue, and what a queued request says about
the pool. -/
structure Waits (poolSize : ℕ) (s : Dispatcher) : Prop where
  kept : ∀ r, s.workersMutex = some r → (s.calls r).sets
  setting : ∀ r w, s.calls r = .setting w → (s.allWorkers w).phase = .waiting →
    (s.allWorkers w).ready = true
  parked : ∀ w, (s.allWorkers w).phase = .waiting → (s.allWorkers w).ready = false →
    w ∈ s.workers
  full : (∃ r, s.calls r = .deferred) ∨ s.requests ≠ [] → poolSize ≤ s.threads
  present : ∀ w, w < s.threads → (s.allWorkers w).phase ≠ .absent

namespace Waits

section

variable (hw : s.Waits poolSize) (hs : s.Pooled poolSize) (h : DispatchStep poolSize s s')

include hw h

/-- Only a call that sets a request keeps `workersMutex`. -/
theorem kept_step (r : ℕ) (hr : s'.workersMutex = some r) : (s'.calls r).sets := by
  have hkept := hw.kept
  cases h <;> grind

/-- Only a full pool leaves a request to the queue. -/
theorem full_step (hfull : (∃ r, s'.calls r = .deferred) ∨ s'.requests ≠ []) :
    poolSize ≤ s'.threads := by
  have hfull' := hw.full
  cases h <;> grind

/-- A worker that was created is there. -/
theorem present_step (w : ℕ) (hlt : w < s'.threads) : (s'.allWorkers w).phase ≠ .absent := by
  have hpresent := hw.present w
  cases h <;> grind [Worker.setRequest]

include hs

/-- The worker whose request is set does not wait for one. -/
theorem setting_step (r w : ℕ) (hr : s'.calls r = .setting w)
    (hwaiting : (s'.allWorkers w).phase = .waiting) : (s'.allWorkers w).ready = true := by
  have hsetting := hw.setting
  have hfront := hs.front
  cases h <;> grind [Worker.setRequest]

/-- A worker that waits for a request is in the queue. -/
theorem parked_step (w : ℕ) (hwaiting : (s'.allWorkers w).phase = .waiting)
    (hready : (s'.allWorkers w).ready = false) : w ∈ s'.workers := by
  have hparked := hw.parked
  have hsetting := hw.setting
  have hfront := hs.front
  cases h with
  | pop r i hr =>
    obtain ⟨-, hhead⟩ := hfront r i hr
    have hmem := hparked w hwaiting hready
    have hne : w ≠ i := by
      rintro rfl
      have hset := hsetting r w hr hwaiting
      grind
    cases hworkers : s.workers with
    | nil =>
      rw [hworkers] at hmem
      cases hmem
    | cons front rest =>
      rw [hworkers] at hmem hhead
      grind
  | _ => grind [Worker.setRequest]

/-- The invariant survives every step. -/
theorem step : s'.Waits poolSize where
  kept := hw.kept_step h
  setting := hw.setting_step hs h
  parked := hw.parked_step hs h
  full := hw.full_step h
  present := hw.present_step h

end

end Waits

/-- Nobody waits after `init`. -/
theorem waits_initial : initial.Waits poolSize := by
  constructor <;> simp [initial]

/-- The invariant holds in every state the dispatcher can get into. -/
theorem Reachable.waits (hs : s.Reachable poolSize) : s.Waits poolSize := by
  induction hs with
  | refl => exact waits_initial
  | tail hrun h ih => exact ih.step (Reachable.invariant hrun).1 h

/-- A worker executes the request, or it was finished. -/
def Started (s : Dispatcher) (r : ℕ) : Prop :=
  (∃ w, (s.allWorkers w).phase = .processing r) ∨ r ∈ s.finished

/-- A finished request stays finished. -/
theorem mem_finished_step (h : DispatchStep poolSize s s') {r : ℕ} (hr : r ∈ s.finished) :
    r ∈ s'.finished := by
  cases h <;> grind

/-- What was started stays so. -/
theorem started_step (hs : s.Pooled poolSize) (h : DispatchStep poolSize s s') {r : ℕ}
    (hr : s.Started r) : s'.Started r := by
  rcases hr with ⟨w, hw⟩ | hfinished
  · have hcreated := hs.created
    have hprocessing := hs.processing w r hw
    cases h with
    | finish i k hi =>
      by_cases heq : i = w
      · subst heq
        exact .inr (List.mem_append_right _ (List.mem_singleton.mpr hprocessing.symm))
      · exact .inl ⟨w, by grind⟩
    | _ => exact .inl ⟨w, by grind [Worker.setRequest]⟩
  · exact .inr (mem_finished_step h hfinished)

/-- A worker begins to execute a request that was assigned to it. -/
theorem executing_step (h : DispatchStep poolSize s s') {w r : ℕ}
    (hw : (s'.allWorkers w).phase = .processing r) : (s.allWorkers w).phase = .processing r ∨
      (s.allWorkers w).phase = .running ∧ s.At r (.assigned w) := by
  cases h <;> grind [Worker.setRequest]

/-- A request is finished by the worker that executes it. -/
theorem finished_step (hs : s.Pooled poolSize) (h : DispatchStep poolSize s s') {r : ℕ}
    (hr : r ∈ s'.finished) : s.Started r := by
  have hprocessing := hs.processing
  cases h with
  | finish w i hw => 
    rcases List.mem_append.mp hr with hold | hnew
    · exact .inr hold
    · obtain rfl := List.mem_singleton.mp hnew
      rw [hprocessing w i hw]
      exact .inl ⟨w, hw⟩
  | _ => exact .inr hr

/-! ### Every run comes to an end -/

/-- A step by which no request is passed. -/
structure Onward (poolSize : ℕ) (s s' : Dispatcher) : Prop where
  step : DispatchStep poolSize s s'
  notCalled : ∀ r, s.calls r = .notCalled → s'.calls r = .notCalled

/-- No request is passed, and none is taken back. -/
theorem Onward.notCalled_iff (h : Onward poolSize s s') (r : ℕ) :
    s'.calls r = .notCalled ↔ s.calls r = .notCalled := by
  refine ⟨fun hr => ?_, h.notCalled r⟩
  obtain ⟨hstep, -⟩ := h
  cases hstep <;> grind

/-- Only so many requests were passed. -/
theorem Reachable.bounded (hs : s.Reachable poolSize) :
    ∃ n, ∀ r, n ≤ r → s.calls r = .notCalled := by
  induction hs with
  | refl => exact ⟨0, fun _ _ => rfl⟩
  | tail _ h ih =>
    obtain ⟨n, hn⟩ := ih
    cases h with
    | addRequest r => exact ⟨max n (r + 1), by grind⟩
    | _ => exact ⟨n, by grind⟩

/-- What is before the first calls, the requests in the queue, and what is before the workers. -/
def rank (poolSize n : ℕ) (s : Dispatcher) : ℕ ×ₗ ℕ ×ₗ ℕ :=
  toLex (∑ r ∈ Finset.range n, (s.calls r).ahead,
    toLex (s.requests.length, ∑ w ∈ Finset.range poolSize, (s.allWorkers w).ahead))

namespace Onward

/-- A call gets on, or a request leaves the queue, or a worker gets on. -/
theorem ahead (h : Onward poolSize s s') (hs : s.Pooled poolSize) :
    (∃ r, s'.calls r ≠ s.calls r ∧ (s'.calls r).ahead < (s.calls r).ahead ∧
        ∀ i, i ≠ r → s'.calls i = s.calls i) ∨
      s'.calls = s.calls ∧ (s'.requests.length < s.requests.length ∨
        s'.requests = s.requests ∧ ∃ w, (s'.allWorkers w).ahead < (s.allWorkers w).ahead ∧
          ∀ i, i ≠ w → s'.allWorkers i = s.allWorkers i) := by
  have hadding := fun w => hs.not_ready (w := w)
  obtain ⟨hstep, hnotCalled⟩ := h
  cases hstep with
  | addRequest r hr => grind
  | setRequest r | pop r | create r | defer r | push r => exact .inl ⟨r, by grind⟩
  | pull w r rest hw hr => exact .inr ⟨rfl, .inl (by grind)⟩
  | process w | finish w | skip w | seeNone w | park w | wake w =>
    exact .inr ⟨rfl, .inr ⟨rfl, w, by grind⟩⟩

/-- Every step leaves fewer. -/
theorem rank_lt (h : Onward poolSize s s') (hs : s.Pooled poolSize) {n : ℕ}
    (hn : ∀ r, n ≤ r → s.calls r = .notCalled) : s'.rank poolSize n < s.rank poolSize n := by
  rw [rank, rank, Prod.Lex.toLex_lt_toLex, Prod.Lex.toLex_lt_toLex]
  rcases h.ahead hs with ⟨r, -, hlt, hothers⟩ | ⟨hcalls, hlength | ⟨hrequests, w, hlt, hothers⟩⟩
  · refine .inl (Runs.sum_lt (fun i => ?_) ⟨r, ?_, hlt⟩)
    · by_cases hi : i = r
      · rw [hi]
        exact hlt.le
      · rw [hothers i hi]
    · by_contra hge
      rw [hn r (by omega)] at hlt
      cases hlt
  · exact .inr ⟨by rw [hcalls], .inl hlength⟩
  · refine .inr ⟨by rw [hcalls], .inr ⟨by rw [hrequests], Runs.sum_lt (fun i => ?_) ⟨w, ?_, hlt⟩⟩⟩
    · by_cases hi : i = w
      · rw [hi]
        exact hlt.le
      · rw [hothers i hi]
    · by_contra hge
      -- no worker was created beyond the size of the pool
      have habsent := (hs.created w (by have hle := hs.threads; omega)).1
      rw [Worker.ahead, Worker.ahead, habsent] at hlt
      cases hlt

end Onward

/-- If no request is passed, every run ends. -/
theorem Reachable.ends (hs : s.Reachable poolSize) :
    Acc (fun t' t => Onward poolSize t t') s := by
  obtain ⟨n, hn⟩ := hs.bounded
  refine Runs.acc_of_rank (I := fun t => t.Reachable poolSize ∧ ∀ r, n ≤ r → t.calls r = .notCalled)
    (rank poolSize n) ?_ ?_ ⟨hs, hn⟩
  · rintro t t' ⟨ht, hn⟩ h
    exact ⟨ht.tail h.step, fun r hr => h.notCalled r (hn r hr)⟩
  · rintro t t' ⟨ht, hn⟩ h
    exact h.rank_lt (Reachable.invariant ht).1 hn

/-! ### Where nothing can happen -/

section

variable (hs : s.Reachable poolSize) (hrest : Runs.AtRest (Onward poolSize) s)

include hs hrest

/-- `workersMutex` is free. -/
theorem mutex_of_rest : s.workersMutex = none := by
  cases hmutex : s.workersMutex with
  | none => rfl
  | some r =>
    have hsets := hs.waits.kept r hmutex
    cases hr : s.calls r with
    | setting w => exact absurd ⟨.pop r w hr, by grind⟩ (hrest _)
    | notCalled | entered | deferred | returned =>
      rw [hr] at hsets
      cases hsets

/-- No call is in progress. -/
theorem returned_of_rest {r : ℕ} (hr : s.calls r ≠ .notCalled) : s.calls r = .returned := by
  have hfree := mutex_of_rest hs hrest
  cases hcall : s.calls r with
  | returned => rfl
  | notCalled => exact absurd hcall hr
  | setting w => exact absurd ⟨.pop r w hcall, by grind⟩ (hrest _)
  | deferred => exact absurd ⟨.push r hcall, by grind⟩ (hrest _)
  | entered =>
    cases hworkers : s.workers with
    | cons w rest => exact absurd ⟨.setRequest r w rest hcall hfree hworkers, by grind⟩ (hrest _)
    | nil =>
      rcases Nat.lt_or_ge s.threads poolSize with hlt | hge
      · exact absurd ⟨.create r hcall hfree hworkers hlt, by grind⟩ (hrest _)
      · exact absurd ⟨.defer r hcall hfree hworkers hge, by grind⟩ (hrest _)

/-- Every worker waits for a request. -/
theorem waiting_of_rest {w : ℕ} (hw : w < s.threads) :
    (s.allWorkers w).phase = .waiting ∧ (s.allWorkers w).ready = false := by
  have hfree := mutex_of_rest hs hrest
  have hpresent := hs.waits.present w hw
  cases hphase : (s.allWorkers w).phase with
  | absent => exact absurd hphase hpresent
  | running =>
    cases hready : (s.allWorkers w).ready with
    | true => exact absurd ⟨.process w hphase hready, fun _ h => h⟩ (hrest _)
    | false => exact absurd ⟨.skip w hphase hready, fun _ h => h⟩ (hrest _)
  | processing r => exact absurd ⟨.finish w r hphase, fun _ h => h⟩ (hrest _)
  | adding =>
    cases hr : s.requests with
    | nil => exact absurd ⟨.seeNone w hphase hr, fun _ h => h⟩ (hrest _)
    | cons r rest => exact absurd ⟨.pull w r rest hphase hr, fun _ h => h⟩ (hrest _)
  | parking => exact absurd ⟨.park w hphase hfree, fun _ h => h⟩ (hrest _)
  | waiting =>
    cases hready : (s.allWorkers w).ready with
    | true => exact absurd ⟨.wake w hphase hready, fun _ h => h⟩ (hrest _)
    | false => exact ⟨rfl, rfl⟩

/-- A request that was passed is finished, or it is left in its queue. -/
theorem finished_or_queued {r : ℕ} (hr : s.calls r ≠ .notCalled) :
    r ∈ s.finished ∨ r ∈ s.requests := by
  obtain ⟨hpooled, hplaced⟩ := hs.invariant
  have hidle : ∀ w, (s.allWorkers w).ready = false ∧
      ∀ r, (s.allWorkers w).phase ≠ .processing r := by
    intro w
    rcases Nat.lt_or_ge w s.threads with hlt | hge
    · obtain ⟨hphase, hready⟩ := waiting_of_rest hs hrest hlt
      exact ⟨hready, by simp [hphase]⟩
    · obtain ⟨hphase, hready⟩ := hpooled.created w hge
      exact ⟨hready, by simp [hphase]⟩
  obtain ⟨p, hp⟩ := (hplaced.passed r).mp hr
  cases p with
  | finished => exact .inl hp
  | queued => exact .inr hp
  | call =>
    have hreturned := returned_of_rest hs hrest hr
    rw [at_call, hreturned] at hp
    simp at hp
  | assigned w => exact absurd hp.1 (by simp [(hidle w).1])
  | processing w => exact absurd hp ((hidle w).2 r)

end

end Dispatcher

open Dispatcher

/-- A request that was passed is finished, once, or it is left beside a full pool of workers that
all wait for one. -/
structure Dispatcher.Served (poolSize : ℕ) (s : Dispatcher) (r : ℕ) : Prop where
  placed : r ∈ s.finished ∨ r ∈ s.requests
  once : s.finished.Nodup
  left : r ∈ s.requests → s.threads = poolSize ∧
    ∀ w, w < poolSize → w ∈ s.workers ∧ (s.allWorkers w).ready = false

/-- Where nothing can happen, a request that was passed is finished or left. -/
theorem Dispatcher.served {poolSize : ℕ} {s : Dispatcher} (hs : s.Reachable poolSize)
    (hrest : Runs.AtRest (Onward poolSize) s) {r : ℕ} (hr : s.calls r ≠ .notCalled) :
    s.Served poolSize r := by
  obtain ⟨hpooled, hplaced⟩ := hs.invariant
  refine ⟨finished_or_queued hs hrest hr, hplaced.finished, fun hmem => ?_⟩
  have hfull := hs.waits.full (.inr (List.ne_nil_of_mem hmem))
  have hthreads : s.threads = poolSize := Nat.le_antisymm hpooled.threads hfull
  refine ⟨hthreads, fun w hw => ?_⟩
  obtain ⟨hphase, hready⟩ := waiting_of_rest hs hrest (hthreads ▸ hw)
  exact ⟨hs.waits.parked w hphase hready, hready⟩

/-- The dispatcher comes to rest. From any state it can get into, if no more requests are passed,
its calls and workers come to an end in whatever order they take their steps; and then every
request that was passed is finished, or it is left in its queue while every worker of a full pool
waits for a request. -/
theorem served_of_rest {poolSize : ℕ} {s : Dispatcher} (hs : s.Reachable poolSize) :
    Runs.ComesToRest (Onward poolSize)
      (fun t => ∀ r, s.calls r ≠ .notCalled → t.Served poolSize r) s where
  ends := hs.ends
  rest t hrun hrest := by
    have hstep : ∀ t t', t.Reachable poolSize ∧ (∀ r, s.calls r ≠ .notCalled →
        t.calls r ≠ .notCalled) → Onward poolSize t t' → t'.Reachable poolSize ∧
          ∀ r, s.calls r ≠ .notCalled → t'.calls r ≠ .notCalled := by
      rintro t t' ⟨ht, hcalled⟩ h
      exact ⟨ht.tail h.step, fun r hr => mt (h.notCalled_iff r).mp (hcalled r hr)⟩
    obtain ⟨ht, hcalled⟩ := Runs.invariant hstep ⟨hs, fun _ h => h⟩ hrun
    exact fun r hr => served ht hrest (hcalled r hr)

/-- A request that has just been passed is finished, or left beside waiting workers. -/
theorem served_of_rest_one : ∃ s t : Dispatcher, s.calls 0 = .entered ∧
    Relation.ReflTransGen (Onward 1) s t ∧ t.Served 1 0 := by
  have hs : Dispatcher.Reachable 1 _ := .single (.addRequest 0 rfl)
  obtain ⟨t, hrun, -, hserved⟩ := (served_of_rest hs).exists_run
  exact ⟨_, t, rfl, hrun, hserved 0 (by simp)⟩

/-- Runs without overlapping gaps are runs. -/
theorem Dispatcher.reachable_of_apart {poolSize : ℕ} {s : Dispatcher}
    (hs : Relation.ReflTransGen (ApartStep poolSize) initial s) : s.Reachable poolSize := by
  induction hs with
  | refl => exact .refl
  | tail _ h ih => exact ih.tail h.2

/-- Without overlapping gaps the queue is empty where such a run has come to rest. -/
theorem Dispatcher.requests_of_apart {poolSize : ℕ} (hpool : 0 < poolSize) {s : Dispatcher}
    (hs : Relation.ReflTransGen (ApartStep poolSize) initial s)
    (hrest : Runs.AtRest (Onward poolSize) s) : s.requests = [] := by
  have hreachable := reachable_of_apart hs
  by_contra hne
  -- the pool is full, and its workers wait in the other queue
  have hfull := hreachable.waits.full (.inr hne)
  obtain ⟨hphase, hready⟩ := waiting_of_rest hreachable hrest (Nat.lt_of_lt_of_le hpool hfull)
  have hparked := hreachable.waits.parked 0 hphase hready
  have hempty := (oneEmpty_run hs).queues.resolve_left hne
  rw [hempty] at hparked
  cases hparked

/-- Without overlapping gaps nothing is left: where such a run has come to rest, every request that
was passed is finished. -/
theorem finished_of_apart {poolSize : ℕ} (hpool : 0 < poolSize) {s : Dispatcher}
    (hs : Relation.ReflTransGen (ApartStep poolSize) initial s)
    (hrest : Runs.AtRest (Onward poolSize) s) {r : ℕ} (hr : s.calls r ≠ .notCalled) :
    r ∈ s.finished := by
  rcases finished_or_queued (reachable_of_apart hs) hrest hr with hfinished | hqueued
  · exact hfinished
  · rw [requests_of_apart hpool hs hrest] at hqueued
    cases hqueued

/-- The only worker of a pool finishes the request it was created for. -/
theorem finished_of_apart_one : ∃ s : Dispatcher,
    Relation.ReflTransGen (ApartStep 1) initial s ∧ 0 ∈ s.finished := by
  have hcreated := ((Relation.ReflTransGen.refl (r := ApartStep 1) (a := initial)).tail
    ⟨not_gapsOverlap nofun, .addRequest 0 rfl⟩).tail
    ⟨not_gapsOverlap fun r => by cases r <;> exact AddRequestPhase.noConfusion,
      .create 0 rfl rfl rfl Nat.zero_lt_one⟩
  obtain ⟨t, hrun, hrest⟩ := Runs.exists_rest_of_acc (reachable_of_apart hcreated).ends
  let I (s : Dispatcher) : Prop := Relation.ReflTransGen (ApartStep 1) initial s ∧
    s.calls 0 = .returned ∧ ∀ r, r ≠ 0 → s.calls r = .notCalled
  have hstep : ∀ s s', I s → Onward 1 s s' → I s' := by
    rintro s s' ⟨hs, hzero, hothers⟩ ⟨h, hnotCalled⟩
    refine ⟨hs.tail ⟨not_gapsOverlap fun r => ?_, h⟩, ?_, fun r hr => hnotCalled r (hothers r hr)⟩
    · by_cases hr : r = 0
      · simp [hr, hzero]
      · simp [hothers r hr]
    · cases h <;> grind
  obtain ⟨ht, hzero, -⟩ := Runs.invariant hstep
    ⟨hcreated, rfl, fun r hr => by simp [hr, initial]⟩ hrun
  exact ⟨t, ht, finished_of_apart Nat.zero_lt_one ht hrest (by simp [hzero])⟩

end NymphRpc
