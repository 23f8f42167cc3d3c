import NymphRpc.Dispatcher.Dispatcher

/-!
# A request beside a waiting worker

Between the two sections of `addRequest`, and between those of `addWorker`, no lock is kept. A
call that has seen no worker may push its request after a worker has seen no request, and the
other way round; then the request waits for a worker to look again, while a worker waits for a
request. As long as no call is between its sections while a worker is, one of the queues is empty.
-/

namespace NymphRpc

namespace Dispatcher

/-- A call is between its sections while a worker is between its own. -/
def GapsOverlap (s : Dispatcher) : Prop :=
  (∃ r, s.calls r = .deferred) ∧ ∃ w, (s.allWorkers w).phase = .parking

/-- No call of `addRequest` or `addWorker` is in progress. -/
structure Quiet (s : Dispatcher) : Prop where
  calls : ∀ r, s.calls r = .notCalled ∨ s.calls r = .returned
  workers : ∀ w, (s.allWorkers w).phase ≠ .adding ∧ (s.allWorkers w).phase ≠ .parking

/-- A request waits in its queue while a worker in its own has none. -/
def Stranded (s : Dispatcher) : Prop :=
  s.requests ≠ [] ∧ ∃ w ∈ s.workers, (s.allWorkers w).ready = false

variable {poolSize : ℕ} {s s' : Dispatcher}

/-- One of the queues is empty, and whoever has seen so can rely on it. -/
structure OneEmpty (s : Dispatcher) : Prop where
  deferred : ∀ r, s.calls r = .deferred → s.workers = []
  parking : ∀ w, (s.allWorkers w).phase = .parking → s.requests = []
  queues : s.requests = [] ∨ s.workers = []

/-- A step from a state without overlapping gaps keeps one of the queues empty. -/
theorem OneEmpty.step (hs : s.OneEmpty) (hgaps : ¬s.GapsOverlap)
    (h : DispatchStep poolSize s s') : s'.OneEmpty := by
  obtain ⟨hdeferred, hparking, hqueues⟩ := hs
  have hapart : ∀ r w, s.calls r = .deferred → (s.allWorkers w).phase ≠ .parking :=
    fun r w hr hw => hgaps ⟨⟨r, hr⟩, w, hw⟩
  cases h <;> constructor <;> grind [Worker.setRequest]

/-- Both queues are empty after `init`. -/
theorem oneEmpty_initial : initial.OneEmpty := by
  constructor <;> simp [initial]

/-- A step from a state without overlapping gaps. -/
def ApartStep (poolSize : ℕ) (s s' : Dispatcher) : Prop :=
  ¬s.GapsOverlap ∧ DispatchStep poolSize s s'

/-- Without a call between its sections no gaps overlap. -/
theorem not_gapsOverlap (h : ∀ r, s.calls r ≠ .deferred) : ¬s.GapsOverlap :=
  fun ⟨⟨r, hr⟩, _⟩ => h r hr

/-- Two overlapping gaps that nothing else disturbs leave a request beside a waiting worker. -/
theorem Reachable.strands (hs : s.Reachable poolSize) {r w : ℕ} (hr : s.calls r = .deferred)
    (hw : (s.allWorkers w).phase = .parking)
    (hready : (s.allWorkers w).ready = false) (hfree : s.workersMutex = none)
    (hcalls : ∀ i, i ≠ r → s.calls i = .notCalled ∨ s.calls i = .returned)
    (hworkers : ∀ i, i ≠ w → (s.allWorkers i).phase ≠ .adding ∧ (s.allWorkers i).phase ≠ .parking) :
    ∃ s' : Dispatcher, s'.Reachable poolSize ∧ s'.Quiet ∧ s'.Stranded := by
  refine ⟨_, (hs.tail (.park w hw hfree)).tail (.push r hr), ⟨fun i => ?_, fun i => ?_⟩,
    by simp, w, by simp, ?_⟩
  · have hi := hcalls i
    grind
  · have hi := hworkers i
    grind
  · simpa using hready

/-- Runs without overlapping gaps keep one of the queues empty. -/
theorem oneEmpty_run (h : Relation.ReflTransGen (ApartStep poolSize) initial s) : s.OneEmpty := by
  induction h with
  | refl => exact oneEmpty_initial
  | tail _ hstep ih => exact ih.step hstep.1 hstep.2

end Dispatcher

open Dispatcher

/-- In a run in which no call of `addRequest` is between its sections while a call of `addWorker`
is between its own, no request ever waits beside a waiting worker. -/
theorem not_stranded {poolSize : ℕ} {s : Dispatcher}
    (h : Relation.ReflTransGen (ApartStep poolSize) initial s) : s.Quiet → ¬s.Stranded := by
  rintro - ⟨hrequests, w, hw, -⟩
  rcases (oneEmpty_run h).queues with hempty | hempty
  · exact hrequests hempty
  · rw [hempty] at hw
    cases hw

/-- A request that the only worker of a pool has finished; the worker waits then, and no request
waits beside it. -/
theorem not_stranded_run : ∃ s : Dispatcher,
    Relation.ReflTransGen (ApartStep 1) initial s ∧ s.workers ≠ [] ∧ ¬s.Stranded := by
  have hcreated := ((Relation.ReflTransGen.refl (r := ApartStep 1) (a := initial)).tail
    ⟨not_gapsOverlap nofun, .addRequest 0 rfl⟩).tail
    ⟨not_gapsOverlap fun r => by cases r <;> exact AddRequestPhase.noConfusion,
      .create 0 rfl rfl rfl Nat.zero_lt_one⟩
  have hdone : ∀ r, (Function.update (Function.update (fun _ => .notCalled) 0 .entered) 0 .returned
      : ℕ → AddRequestPhase) r ≠ .deferred :=
    fun r => by cases r <;> exact AddRequestPhase.noConfusion
  have hparked := (((hcreated.tail ⟨not_gapsOverlap hdone, .process 0 rfl rfl⟩).tail
    ⟨not_gapsOverlap hdone, .finish 0 0 rfl⟩).tail ⟨not_gapsOverlap hdone, .seeNone 0 rfl rfl⟩).tail
    ⟨not_gapsOverlap hdone, .park 0 rfl rfl⟩
  refine ⟨_, hparked, List.cons_ne_nil 0 [], not_stranded hparked ⟨fun r => ?_, fun w => ?_⟩⟩
  · cases r
    · exact .inr rfl
    · exact .inl rfl
  · cases w <;> exact ⟨WorkerPhase.noConfusion, WorkerPhase.noConfusion⟩

/-- The only worker of a pool sees no request, and parks, between the sections of a call that has
seen no worker. -/
theorem stranded_gap : ∃ s : Dispatcher, s.Reachable 1 ∧ s.Quiet ∧ s.Stranded := by
  have hcreated := ((Relation.ReflTransGen.refl (r := DispatchStep 1) (a := initial)).tail
    (.addRequest 0 rfl)).tail (.create 0 rfl rfl rfl Nat.zero_lt_one)
  have hdeferred := ((hcreated.tail (.process 0 rfl rfl)).tail (.addRequest 1 rfl)).tail
    (.defer 1 rfl rfl rfl (Nat.le_refl 1))
  have hparking := (hdeferred.tail (.finish 0 0 rfl)).tail (.seeNone 0 rfl rfl)
  refine Reachable.strands hparking (r := 1) (w := 0) rfl rfl rfl rfl (fun i hi => ?_)
    (fun i hi => ?_)
  · rcases i with _ | _ | i
    · exact .inr rfl
    · exact absurd rfl hi
    · exact .inl rfl
  · rcases i with _ | i
    · exact absurd rfl hi
    · exact ⟨WorkerPhase.noConfusion, WorkerPhase.noConfusion⟩

end NymphRpc
