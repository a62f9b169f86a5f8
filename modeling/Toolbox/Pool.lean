import Toolbox.Base.Machine

namespace Toolbox.Pool
open Base

/-- The constructor's `threads == 0` becomes 1. -/
def workerCount (threads : Nat) : Nat := if threads = 0 then 1 else threads

/-- Where a call of `enqueue` stands. -/
inductive EnqueuePc where
  | lock
  | push
  | unlock
  | notifyOne
  deriving DecidableEq

/-- Where a worker's loop stands. `test` evaluates the wait predicate under the
mutex, `park` releases the mutex and goes to sleep in one step, `check` is the
`if` after the wait. A task being run may itself be inside a call of `enqueue`. -/
inductive WorkerPc where
  | notStarted
  | lock
  | test
  | park
  | parked
  | relock
  | check
  | take
  | unlockReturn
  | unlockRun (id : Nat)
  | invoke (id : Nat)
  | running (id : Nat) (enqueue : Option EnqueuePc)
  | returned
  deriving DecidableEq

/-- The thread that constructs and destroys the pool. `unwindStop` and
`unwindJoin` are the `jthread` destructors after a failed construction that had
`started` workers. -/
inductive MainPc where
  | constructing (i : Nat)
  | running
  | stopping (i : Nat)
  | notifyAll
  | joining (i : Nat)
  | done
  | unwindStop (i started : Nat)
  | unwindJoin (i started : Nat)
  | failed
  deriving DecidableEq

/-- The threads that take `queue_mutex`. -/
inductive Thread (n k : Nat) where
  | worker (i : Fin n)
  | outside (j : Fin k)
  deriving DecidableEq

/-- `n` workers and `k` other threads that may call `enqueue`. A task is named
by the number of tasks pushed before it. -/
structure State (n k : Nat) where
  tasks : List Nat
  pushed : Nat
  mutex : Option (Thread n k)
  stop : Fin n → Bool
  main : MainPc
  workers : Fin n → WorkerPc
  outside : Fin k → Option EnqueuePc

inductive Act (n k : Nat) where
  | main
  | spawnFails
  | destroy
  | worker (i : Fin n)
  | finish (i : Fin n) (threw : Bool)
  | enqueue (t : Thread n k)
  | enqueuer (t : Thread n k)
  | notifyOne (t : Thread n k) (woken : Option (Fin n))
  | spurious (i : Fin n)

inductive Event (n k : Nat) where
  | pushed (t : Thread n k) (id : Nat)
  | took (i : Fin n) (id : Nat)
  | invoked (i : Fin n) (id : Nat)
  | finished (i : Fin n) (id : Nat) (threw : Bool)
  | returned (i : Fin n)
  | undefined (i : Fin n)

variable {n k : Nat}

namespace State

def atMain (s : State n k) (pc : MainPc) : State n k := { s with main := pc }

def atWorker (s : State n k) (i : Fin n) (pc : WorkerPc) : State n k :=
  { s with workers := Function.update s.workers i pc }

def setMutex (s : State n k) (owner : Option (Thread n k)) : State n k :=
  { s with mutex := owner }

def requestStop (s : State n k) (i : Fin n) : State n k :=
  { s with stop := Function.update s.stop i true }

/-- The call of `enqueue` that a thread is in. -/
def enqueueOf (s : State n k) : Thread n k → Option EnqueuePc
  | .worker i =>
    match s.workers i with
    | .running _ e => e
    | _ => none
  | .outside j => s.outside j

def setEnqueue (s : State n k) (t : Thread n k) (e : Option EnqueuePc) : State n k :=
  match t with
  | .worker i =>
    match s.workers i with
    | .running id _ => s.atWorker i (.running id e)
    | _ => s
  | .outside j => { s with outside := Function.update s.outside j e }

/-- May start a call of `enqueue`: a task that is running, or another thread
while the pool is neither under construction nor under destruction. -/
def MayEnqueue (s : State n k) : Thread n k → Prop
  | .worker i => ∃ id, s.workers i = .running id none
  | .outside j => s.main = .running ∧ s.outside j = none

end State

/-- A woken worker has to take the mutex again and test the predicate. -/
def WorkerPc.woken : WorkerPc → WorkerPc
  | .parked => .relock
  | pc => pc

namespace State

def wake (s : State n k) (i : Fin n) : State n k := s.atWorker i (s.workers i).woken

/-- `condition.notify_all()`. -/
def wakeAll (s : State n k) : State n k := { s with workers := fun i => (s.workers i).woken }

end State

def stepMain (s : State n k) : Option (State n k × List (Event n k)) :=
  match s.main with
  | .constructing i =>
    if h : i < n then some ((s.atWorker ⟨i, h⟩ .lock).atMain (.constructing (i + 1)), [])
    else some (s.atMain .running, [])
  | .running => none
  | .stopping i =>
    if h : i < n then some ((s.requestStop ⟨i, h⟩).atMain (.stopping (i + 1)), [])
    else some (s.atMain .notifyAll, [])
  | .notifyAll => some (s.wakeAll.atMain (.joining 0), [])
  | .joining i =>
    if h : i < n then
      if s.workers ⟨i, h⟩ = .returned then
        some ((s.requestStop ⟨i, h⟩).atMain (.joining (i + 1)), [])
      else none
    else some (s.atMain .done, [])
  | .done => none
  | .unwindStop i started =>
    if h : i < n ∧ i < started then
      some ((s.requestStop ⟨i, h.1⟩).atMain (.unwindJoin i started), [])
    else some (s.atMain .failed, [])
  | .unwindJoin i started =>
    if h : i < n then
      if s.workers ⟨i, h⟩ = .returned then some (s.atMain (.unwindStop (i + 1) started), [])
      else none
    else none
  | .failed => none

/-- Taking from an empty queue is undefined; it is shown as such rather than
left out. -/
def stepWorker (s : State n k) (i : Fin n) : Option (State n k × List (Event n k)) :=
  match s.workers i with
  | .notStarted => none
  | .lock | .relock =>
    if s.mutex = none then some ((s.setMutex (some (.worker i))).atWorker i .test, []) else none
  | .test =>
    if s.stop i = true ∨ s.tasks ≠ [] then some (s.atWorker i .check, [])
    else some (s.atWorker i .park, [])
  | .park => some ((s.setMutex none).atWorker i .parked, [])
  | .parked => none
  | .check =>
    if s.stop i = true ∧ s.tasks = [] then some (s.atWorker i .unlockReturn, [])
    else some (s.atWorker i .take, [])
  | .take =>
    match s.tasks with
    | id :: rest => some ({ s with tasks := rest }.atWorker i (.unlockRun id), [.took i id])
    | [] => some (s.atWorker i .returned, [.undefined i])
  | .unlockReturn => some ((s.setMutex none).atWorker i .returned, [.returned i])
  | .unlockRun id => some ((s.setMutex none).atWorker i (.invoke id), [])
  | .invoke id => some (s.atWorker i (.running id none), [.invoked i id])
  | .running _ _ => none
  | .returned => none

def stepEnqueue (s : State n k) (t : Thread n k) : Option (State n k × List (Event n k)) :=
  match s.enqueueOf t with
  | some .lock =>
    if s.mutex = none then some ((s.setMutex (some t)).setEnqueue t (some .push), []) else none
  | some .push =>
    some ({ s with tasks := s.tasks ++ [s.pushed], pushed := s.pushed + 1 }.setEnqueue t
      (some .unlock), [.pushed t s.pushed])
  | some .unlock => some ((s.setMutex none).setEnqueue t (some .notifyOne), [])
  | some .notifyOne | none => none

/-- `notify_one` wakes one parked worker, if there is one. -/
def stepNotifyOne (s : State n k) (t : Thread n k) (woken : Option (Fin n)) :
    Option (State n k × List (Event n k)) :=
  if s.enqueueOf t = some .notifyOne then
    match woken with
    | some i => if s.workers i = .parked then some ((s.wake i).setEnqueue t none, []) else none
    | none => if ∃ i, s.workers i = .parked then none else some (s.setEnqueue t none, [])
  else none

instance (s : State n k) (t : Thread n k) : Decidable (s.MayEnqueue t) :=
  match t with
  | .worker i =>
    match h : s.workers i with
    | .running id none => isTrue ⟨id, h⟩
    | .running _ (some _) | .notStarted | .lock | .test | .park | .parked | .relock | .check
    | .take | .unlockReturn | .unlockRun _ | .invoke _ | .returned =>
      isFalse (by simp [State.MayEnqueue, h])
  | .outside j => inferInstanceAs (Decidable (s.main = .running ∧ s.outside j = none))

/-- The destructor may only begin when no other thread is inside the pool. A task
that ends by an exception leaves it in its future, so its worker goes on. -/
def step (s : State n k) : Act n k → Option (State n k × List (Event n k))
  | .main => stepMain s
  | .spawnFails =>
    match s.main with
    | .constructing i => if i < n then some (s.atMain (.unwindStop 0 i), []) else none
    | _ => none
  | .destroy =>
    if s.main = .running ∧ ∀ j, s.outside j = none then some (s.atMain (.stopping 0), [])
    else none
  | .worker i => stepWorker s i
  | .finish i threw =>
    match s.workers i with
    | .running id none => some (s.atWorker i .lock, [.finished i id threw])
    | _ => none
  | .enqueue t => if s.MayEnqueue t then some (s.setEnqueue t (some .lock), []) else none
  | .enqueuer t => stepEnqueue s t
  | .notifyOne t woken => stepNotifyOne s t woken
  | .spurious i => if s.workers i = .parked then some (s.wake i, []) else none

/-- A pool of `ThreadPool(threads)` and `k` threads that enqueue from outside. -/
def machine (threads k : Nat) :
    Machine (State (workerCount threads) k) (Act (workerCount threads) k)
      (Event (workerCount threads) k) where
  init := ⟨[], 0, none, fun _ => false, .constructing 0, fun _ => .notStarted, fun _ => none⟩
  step := step

/-- The tasks pushed, taken and invoked so far, in order. -/
def pushes (tr : List (Event n k)) : List Nat :=
  tr.filterMap (fun | .pushed _ id => some id | _ => none)

def takes (tr : List (Event n k)) : List (Fin n × Nat) :=
  tr.filterMap (fun | .took i id => some (i, id) | _ => none)

def invocations (tr : List (Event n k)) : List (Fin n × Nat) :=
  tr.filterMap (fun | .invoked i id => some (i, id) | _ => none)

end Toolbox.Pool
