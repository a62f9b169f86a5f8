import Toolbox.Base.Client
import Toolbox.Base.Handoff
import Toolbox.Broadcast
import Toolbox.Overwrite
import Toolbox.Spmc
import Toolbox.Spsc

namespace Toolbox
open Base

/-- `try_emplace` and `try_pop` give up, `emplace_wait` and `pop_wait` do not. -/
def Spmc.EmplaceCall.manner : Spmc.EmplaceCall → Handoff.Manner
  | .tryEmplace => .tries
  | .emplaceWait => .waits

def Spmc.PopCall.manner : Spmc.PopCall → Handoff.Manner
  | .tryPop => .tries
  | .popWait => .waits

/-- The calls of `SPMCQueue` and what they return. -/
def Spmc.Event.shown {n : Nat} {T : Type*} : Spmc.Event n T → Option (Handoff.Event n T)
  | .rejected => some .refused
  | .accepted _ => some .pushed
  | .threw => some .threw
  | .called i call => some (.asked i call.manner)
  | .popped i _ v => some (.given i v)
  | .empty i => some (.nothing i)
  | .constructed _ | .produced _ | .looked _ _ | .casFailed _ _ | .claimed _ _ | .destroyed _ _
  | .undefined _ => none

def Spmc.shown {n : Nat} {T : Type*} (a : Spmc.Act n T) (es : List (Spmc.Event n T)) :
    List (Handoff.Event n T) :=
  match a with
  | .emplace call arg => [.offered call.manner arg]
  | _ => es.filterMap Event.shown

/-- The calls of `SPSCQueue` and what they return. -/
def Spsc.Event.shown {T : Type*} : Spsc.Event T → Option (Handoff.Event 1 T)
  | .accepted _ => some .pushed
  | .rejected => some .refused
  | .threw => some .threw
  | .popped v => some (.given 0 v)
  | .empty => some (.nothing 0)

def Spsc.shown {T : Type*} (a : Spsc.Act T) (es : List (Spsc.Event T)) :
    List (Handoff.Event 1 T) :=
  match a with
  | .tryEmplace arg => [.offered .tries arg]
  | .tryPop => [.asked 0 .tries]
  | _ => es.filterMap Event.shown

/-- The calls of `SPMCBroadcastQueue` beside what is seen of their execution. -/
inductive Broadcast.Shown (n : Nat) (T : Type*) where
  | publish (arg : Option T)
  | consume (i : Fin (n + 1)) (call : ConsumeCall)
  | seen (e : Event n T)

def Broadcast.shown {n : Nat} {T : Type*} (a : Broadcast.Act n T) (es : List (Broadcast.Event n T)) :
    List (Broadcast.Shown n T) :=
  match a with
  | .publish arg => [.publish arg]
  | .consume i call => [.consume i call]
  | _ => es.map .seen

/-- The calls of `SPMCOverwriteQueue` beside what is seen of their execution. -/
inductive Overwrite.Shown (n m : Nat) (D : Type*) where
  | publish (arg : Option (Words m D))
  | tryRead (i : Fin n)
  | missed (i : Fin n) (count : Nat)
  | seen (e : Event n m D)

def Overwrite.shown {n m : Nat} {D : Type*} (a : Overwrite.Act n m D)
    (es : List (Overwrite.Event n m D)) : List (Overwrite.Shown n m D) :=
  match a with
  | .publish arg => [.publish arg]
  | .tryRead i _ => [.tryRead i]
  | _ => es.map .seen

/-- The queue together with `missed()`, which only looks at its handle. -/
def Overwrite.called {n m : Nat} {D : Type*}
    (M : Machine (Overwrite.State n m D) (Overwrite.Act n m D) (Overwrite.Event n m D)) :
    Machine (Overwrite.State n m D) (Overwrite.Act n m D ⊕ Fin n) (Overwrite.Shown n m D) where
  init := M.init
  step
    | s, .inl a => (M.relabel shown).step s a
    | s, .inr i => (s.consumers i).map (fun c => (s, [.missed i c.missed]))

end Toolbox
