import Toolbox.Base.Serial
import Toolbox.Broadcast

namespace Toolbox.Broadcast
open Base

variable {n : Nat} {T : Type*}

/-- The least of the first `k` cursors, as the loop of `try_publish` finds it. -/
def scanUpTo (cursors : Fin (n + 1) → Nat) : (k : Nat) → k ≤ n + 1 → Nat
  | 0, _ => 0
  | k + 1, h => scanLeast ⟨k, h⟩ (scanUpTo cursors k (Nat.le_of_succ_le h)) (cursors ⟨k, h⟩)

def scanMin (cursors : Fin (n + 1) → Nat) : Nat := scanUpTo cursors (n + 1) (Nat.le_refl _)

/-- `try_publish` past its gate. -/
def put (w : Width) (cap : Capacity) (s : State n T) : Option T → State n T × List (Event n T)
  | none => (s, [.threw])
  | some v => ({ s.setItem cap s.tail v with tail := w.wrap (s.tail + 1) }, [.published v])

/-- A whole call of `try_publish`, with nothing in between. -/
def tryPublish (w : Width) (cap : Capacity) (s : State n T) (arg : Option T) :
    State n T × List (Event n T) :=
  if looksFull w cap s.tail s.cachedMin then
    let s' := { s with cachedMin := scanMin s.cursors }
    if looksFull w cap s'.tail s'.cachedMin then (s', [.full]) else put w cap s' arg
  else put w cap s arg

/-- A whole call of `try_consume` or `try_copy`; `throws` says that the callback
does. -/
def tryConsume (w : Width) (cap : Capacity) (s : State n T) (i : Fin (n + 1)) (throws : Bool) :
    State n T × List (Event n T) :=
  let pos := s.cursors i
  let item := s.item cap pos
  if s.tail ≤ pos then (s, [.nothing i])
  else if throws then (s, [.entered i pos item, .callbackThrew i pos])
  else (s.setCursor i (w.wrap (pos + 1)),
    [.entered i pos item, .delivered i pos item, .consumed i pos item])

inductive Call (n : Nat) (T : Type*) where
  | tryPublish (arg : Option T)
  | tryConsume (i : Fin (n + 1)) (call : ConsumeCall) (throws : Bool)

def call (w : Width) (cap : Capacity) (s : State n T) : Call n T → State n T × List (Event n T)
  | .tryPublish arg => tryPublish w cap s arg
  | .tryConsume i _ throws => tryConsume w cap s i throws

/-- What a caller sees of the queue: the results of its calls, the items given to
its callbacks and the exceptions that pass through. -/
inductive Answer (T : Type*) where
  | published
  | full
  | threw
  | nothing
  | given (item : T)
  | consumed
  | callbackThrew

def Event.answer : Event n T → Option (Answer T)
  | .threw => some .threw
  | .full => some .full
  | .published _ => some .published
  | .nothing _ => some .nothing
  | .entered _ _ item => some (.given item)
  | .callbackThrew _ _ => some .callbackThrew
  | .delivered _ _ _ => none
  | .consumed _ _ _ => some .consumed

/-- A queue is constructed and then used by `cs`, one complete call after the
other. -/
def answers [Inhabited T] (w : Width) (cap : Capacity) (cs : List (Call n T)) : List (Answer T) :=
  (serial (call w cap) (machine n T w cap).init cs).2.filterMap Event.answer

/-- Fewer than `2 ^ w` items have been published when a consumer calls. Counted
without bound, `tail_` is the number of items published. -/
def InTime (w : Nat) (s : State n T) : Call n T → Prop
  | .tryPublish _ => True
  | .tryConsume _ _ _ => s.tail < 2 ^ w

end Toolbox.Broadcast
