import Mathlib.Data.Nat.Notation
import Mathlib.Logic.Function.Basic
import Mathlib.Logic.Relation
import Mathlib.Tactic.SplitIfs

/-!
# The dispatcher

The threads that call `addRequest` and the workers of the pool. A request is the call that
passed it, and a worker its place among the created ones. A step is a critical section, with one
exception: `addRequest` sets the request of the worker at the front before it takes that worker
out of the queue, and the worker, which reads `ready` without a lock, may wake up in between.
Whether the signal or the time-out wakes it makes no difference, since it looks at `ready` again.

`finished` is no member of the source: it records the requests that were finished.
-/

namespace NymphRpc

/-- How far a call of `addRequest` has come. -/
inductive AddRequestPhase
  | notCalled
  | entered
  /-- The request is set on a worker that is still at the front. -/
  | setting (w : ℕ)
  /-- Neither a worker nor a new thread was available. -/
  | deferred
  | returned

/-- How far a worker has come. -/
inductive WorkerPhase
  | absent
  | running
  | processing (request : ℕ)
  /-- In `addWorker`, before it looks at the requests. -/
  | adding
  /-- In `addWorker`, after it has seen no requests. -/
  | parking
  | waiting

/-- `Worker`. -/
structure Worker where
  request : ℕ
  ready : Bool
  phase : WorkerPhase

/-- `setRequest`. -/
def Worker.setRequest (w : Worker) (request : ℕ) : Worker :=
  { w with request := request, ready := true }

/-- The members of `Dispatcher`, and the threads that use it. -/
structure Dispatcher where
  calls : ℕ → AddRequestPhase
  requests : List ℕ
  workers : List ℕ
  threads : ℕ
  allWorkers : ℕ → Worker
  workersMutex : Option ℕ
  finished : List ℕ

namespace Dispatcher

/-- The dispatcher after `init`. -/
def initial : Dispatcher where
  calls _ := .notCalled
  requests := []
  workers := []
  threads := 0
  allWorkers _ := ⟨0, false, .absent⟩
  workersMutex := none
  finished := []

/-- The call goes on to a phase. -/
def setCall (s : Dispatcher) (r : ℕ) (phase : AddRequestPhase) : Dispatcher :=
  { s with calls := Function.update s.calls r phase }

/-- Change a worker. -/
def setWorker (s : Dispatcher) (w : ℕ) (f : Worker → Worker) : Dispatcher :=
  { s with allWorkers := Function.update s.allWorkers w (f (s.allWorkers w)) }

/-- The worker goes on to a phase. -/
abbrev goTo (s : Dispatcher) (w : ℕ) (phase : WorkerPhase) : Dispatcher :=
  s.setWorker w fun x => { x with phase := phase }

section

variable (s : Dispatcher)

@[simp, grind =] theorem calls_setCall (r i : ℕ) (phase : AddRequestPhase) :
    (s.setCall r phase).calls i = if i = r then phase else s.calls i := by
  simp only [setCall, Function.update_apply]

@[simp, grind =] theorem allWorkers_setCall (r w : ℕ) (phase : AddRequestPhase) :
    (s.setCall r phase).allWorkers w = s.allWorkers w := rfl

@[simp, grind =] theorem requests_setCall (r : ℕ) (phase : AddRequestPhase) :
    (s.setCall r phase).requests = s.requests := rfl

@[simp, grind =] theorem workers_setCall (r : ℕ) (phase : AddRequestPhase) :
    (s.setCall r phase).workers = s.workers := rfl

@[simp, grind =] theorem threads_setCall (r : ℕ) (phase : AddRequestPhase) :
    (s.setCall r phase).threads = s.threads := rfl

@[simp, grind =] theorem workersMutex_setCall (r : ℕ) (phase : AddRequestPhase) :
    (s.setCall r phase).workersMutex = s.workersMutex := rfl

@[simp, grind =] theorem finished_setCall (r : ℕ) (phase : AddRequestPhase) :
    (s.setCall r phase).finished = s.finished := rfl

@[simp, grind =] theorem calls_setWorker (w r : ℕ) (f : Worker → Worker) :
    (s.setWorker w f).calls r = s.calls r := rfl

@[simp, grind =] theorem allWorkers_setWorker (w i : ℕ) (f : Worker → Worker) :
    (s.setWorker w f).allWorkers i = if i = w then f (s.allWorkers i) else s.allWorkers i := by
  simp only [setWorker, Function.update_apply]
  split_ifs with h
  · rw [h]
  · rfl

@[simp, grind =] theorem requests_setWorker (w : ℕ) (f : Worker → Worker) :
    (s.setWorker w f).requests = s.requests := rfl

@[simp, grind =] theorem workers_setWorker (w : ℕ) (f : Worker → Worker) :
    (s.setWorker w f).workers = s.workers := rfl

@[simp, grind =] theorem threads_setWorker (w : ℕ) (f : Worker → Worker) :
    (s.setWorker w f).threads = s.threads := rfl

@[simp, grind =] theorem workersMutex_setWorker (w : ℕ) (f : Worker → Worker) :
    (s.setWorker w f).workersMutex = s.workersMutex := rfl

@[simp, grind =] theorem finished_setWorker (w : ℕ) (f : Worker → Worker) :
    (s.setWorker w f).finished = s.finished := rfl

end

end Dispatcher

open Dispatcher

/-- The steps of the calls and the workers, for a pool of a maximum size. -/
inductive DispatchStep (poolSize : ℕ) : Dispatcher → Dispatcher → Prop
  | addRequest {s : Dispatcher} (r : ℕ) (hr : s.calls r = .notCalled) :
      DispatchStep poolSize s (s.setCall r .entered)
  /-- A worker is waiting: the request is set, and `workersMutex` kept. -/
  | setRequest {s : Dispatcher} (r w : ℕ) (rest : List ℕ) (hr : s.calls r = .entered)
      (hfree : s.workersMutex = none) (hw : s.workers = w :: rest) :
      DispatchStep poolSize s { (s.setCall r (.setting w)).setWorker w fun x => x.setRequest r with
        workersMutex := some r }
  /-- Whatever worker is at the front is taken out of the queue. -/
  | pop {s : Dispatcher} (r w : ℕ) (hr : s.calls r = .setting w) :
      DispatchStep poolSize s { s.setCall r .returned with
        workers := s.workers.tail, workersMutex := none }
  | create {s : Dispatcher} (r : ℕ) (hr : s.calls r = .entered) (hfree : s.workersMutex = none)
      (hw : s.workers = []) (hpool : s.threads < poolSize) :
      DispatchStep poolSize s { (s.setCall r .returned).setWorker s.threads fun _ =>
        Worker.setRequest ⟨0, false, .running⟩ r with threads := s.threads + 1 }
  | defer {s : Dispatcher} (r : ℕ) (hr : s.calls r = .entered) (hfree : s.workersMutex = none)
      (hw : s.workers = []) (hpool : poolSize ≤ s.threads) :
      DispatchStep poolSize s (s.setCall r .deferred)
  /-- The section of `requestsMutex`. -/
  | push {s : Dispatcher} (r : ℕ) (hr : s.calls r = .deferred) :
      DispatchStep poolSize s { s.setCall r .returned with requests := s.requests ++ [r] }
  /-- A worker that has a request starts to execute it. -/
  | process {s : Dispatcher} (w : ℕ) (hw : (s.allWorkers w).phase = .running)
      (hready : (s.allWorkers w).ready = true) :
      DispatchStep poolSize s (s.setWorker w fun x =>
        { x with ready := false, phase := .processing x.request })
  /-- The member is read again. -/
  | finish {s : Dispatcher} (w r : ℕ) (hw : (s.allWorkers w).phase = .processing r) :
      DispatchStep poolSize s { s.goTo w .adding with
        finished := s.finished ++ [(s.allWorkers w).request] }
  | skip {s : Dispatcher} (w : ℕ) (hw : (s.allWorkers w).phase = .running)
      (hready : (s.allWorkers w).ready = false) : DispatchStep poolSize s (s.goTo w .adding)
  /-- The section of `requestsMutex`; the worker does not wait. -/
  | pull {s : Dispatcher} (w r : ℕ) (rest : List ℕ) (hw : (s.allWorkers w).phase = .adding)
      (hr : s.requests = r :: rest) :
      DispatchStep poolSize s { (s.setWorker w fun x => x.setRequest r).goTo w .running with
        requests := rest }
  | seeNone {s : Dispatcher} (w : ℕ) (hw : (s.allWorkers w).phase = .adding)
      (hr : s.requests = []) : DispatchStep poolSize s (s.goTo w .parking)
  /-- The section of `workersMutex`. -/
  | park {s : Dispatcher} (w : ℕ) (hw : (s.allWorkers w).phase = .parking)
      (hfree : s.workersMutex = none) :
      DispatchStep poolSize s { s.goTo w .waiting with workers := s.workers ++ [w] }
  /-- The waiting loop ends when `ready` is seen. -/
  | wake {s : Dispatcher} (w : ℕ) (hw : (s.allWorkers w).phase = .waiting)
      (hready : (s.allWorkers w).ready = true) : DispatchStep poolSize s (s.goTo w .running)

/-- The states the dispatcher can get into. -/
def Dispatcher.Reachable (poolSize : ℕ) (s : Dispatcher) : Prop :=
  Relation.ReflTransGen (DispatchStep poolSize) initial s

end NymphRpc
