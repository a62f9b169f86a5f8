import Toolbox.Spmc

namespace Toolbox.Spmc
open Base

inductive SizeCall where
  | sizeApprox
  | empty
  deriving DecidableEq

/-- Where a thread stands that calls `size_approx` or `empty`. -/
inductive ObserverPc where
  | idle
  | loadHead (call : SizeCall)
  | loadTail (call : SizeCall) (h : Nat)
  deriving DecidableEq

/-- A queue with `m` threads that ask for its size. -/
structure Observed (n m : Nat) (T : Type*) where
  queue : State n T
  observers : Fin m → ObserverPc

inductive ObserveAct (n m : Nat) (T : Type*) where
  | queue (a : Act n T)
  | call (k : Fin m) (call : SizeCall)
  | observer (k : Fin m)

/-- `size` is what `size_approx` returns, to its caller or to `empty`. -/
inductive ObserveEvent (n m : Nat) (T : Type*) where
  | queue (e : Event n T)
  | size (k : Fin m) (v : Nat)
  | empty (k : Fin m) (answer : Bool)

/-- `t - h` in a `size_t` of `w` bits. The counters stand for their values modulo
`2 ^ w`, which the difference does not tell apart. -/
def sizeApprox (w h t : Nat) : Nat := Width.sub (some w) t h

variable {n m : Nat} {T : Type*}

def answers (k : Fin m) (v : Nat) : SizeCall → List (ObserveEvent n m T)
  | .sizeApprox => [.size k v]
  | .empty => [.size k v, .empty k (v == 0)]

namespace Observed

def atObserver (s : Observed n m T) (k : Fin m) (pc : ObserverPc) : Observed n m T :=
  { s with observers := Function.update s.observers k pc }

end Observed

def stepObserver (w : Nat) (s : Observed n m T) (k : Fin m) :
    Option (Observed n m T × List (ObserveEvent n m T)) :=
  match s.observers k with
  | .idle => none
  | .loadHead call => some (s.atObserver k (.loadTail call s.queue.head), [])
  | .loadTail call h =>
    some (s.atObserver k .idle, answers k (sizeApprox w h s.queue.tail) call)

def observedStep (w : Nat) (cap : Capacity) (s : Observed n m T) :
    ObserveAct n m T → Option (Observed n m T × List (ObserveEvent n m T))
  | .queue a =>
    (step none cap s.queue a).map (fun p => ({ s with queue := p.1 }, p.2.map .queue))
  | .call k call =>
    match s.observers k with
    | .idle => some (s.atObserver k (.loadHead call), [])
    | _ => none
  | .observer k => stepObserver w s k

/-- The queue, with counters that do not wrap, and the threads that watch it. -/
def observed (n m : Nat) (T : Type*) (w : Nat) (cap : Capacity) :
    Machine (Observed n m T) (ObserveAct n m T) (ObserveEvent n m T) where
  init := ⟨(machine n T none cap).init, fun _ => .idle⟩
  step := observedStep w cap

/-- What `size_approx` returned: the thread and the value. -/
def sizes (tr : List (ObserveEvent n m T)) : List (Fin m × Nat) :=
  tr.filterMap (fun | .size k v => some (k, v) | _ => none)

end Toolbox.Spmc
