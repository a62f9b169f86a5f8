import Toolbox.Base.RecentLog
import Toolbox.Base.Serial
import Toolbox.Overwrite

namespace Toolbox.Overwrite
open Base RecentLog

variable {n m : Nat} {D : Type*}

/-- A whole call of `publish`, with nothing in between; `T`'s constructor does not
throw. -/
def publish (w : Width) (cap : Capacity) (s : State n m D) (v : Words m D) :
    State n m D × List (Event n m D) :=
  let pos := w.wrap (s.writePos + 1)
  ({ s with slots := cap.set s.slots pos ⟨stable w pos, v⟩, writePos := pos, published := pos },
    [.began (some v), .published pos v])

def makeConsumer (w : Width) (s : State n m D) (i : Fin n) : State n m D × List (Event n m D) :=
  match s.consumers i with
  | none =>
    let start := w.wrap (s.published + 1)
    (s.setConsumer i ⟨start, 0, .idle⟩, [.made i start])
  | some _ => (s, [])

/-- A whole call of `try_read`. Without interference the second load of `seq`
gives what the first one gave. -/
def tryRead (w : Width) (cap : Capacity) (s : State n m D) (i : Fin n) (out : Words m D) :
    State n m D × List (Event n m D) :=
  match s.consumers i with
  | none => (s, [])
  | some c =>
    let s1 := s.seq cap c.pos
    if s1 &&& 1 = 1 then (s, [.empty i out])
    else if s1 >>> 1 < c.pos then (s, [.empty i out])
    else if c.pos < s1 >>> 1 then lappedTo w cap s i c (s1 >>> 1) out
    else (s.setConsumer i ⟨w.wrap (c.pos + 1), c.missed, .idle⟩,
      [.ok i c.pos (s.data cap c.pos)])

inductive Call (n m : Nat) (D : Type*) where
  | publish (v : Words m D)
  | makeConsumer (i : Fin n)
  | tryRead (i : Fin n) (out : Words m D)

def call (w : Width) (cap : Capacity) (s : State n m D) :
    Call n m D → State n m D × List (Event n m D)
  | .publish v => publish w cap s v
  | .makeConsumer i => makeConsumer w s i
  | .tryRead i out => tryRead w cap s i out

/-- What `try_read` tells its caller: the item, `Empty`, or by how much `missed()`
has grown. -/
inductive Result (m : Nat) (D : Type*) where
  | item (v : Words m D)
  | nothing
  | missed (k : Nat)

def Event.result (w : Width) : Event n m D → Option (Result m D)
  | .ok _ _ out => some (.item out)
  | .empty _ _ => some .nothing
  | .lapped _ pos target _ _ => some (.missed (w.sub target pos))
  | .began _ | .threw _ | .published _ _ | .made _ _ => none

/-- A queue is constructed and then used by `cs`, one complete call after the
other. -/
def results [Inhabited D] (w : Width) (cap : Capacity) (cs : List (Call n m D)) :
    List (Result m D) :=
  (serial (call w cap) (machine n m D w cap).init cs).2.filterMap (Event.result w)

/-- What the queue is for: all items ever published, and readers that are given
the last `C` of them and told how many they came too late for. -/
structure Feed (n m : Nat) (D : Type*) where
  log : List (Words m D)
  readers : Fin n → Option Reader

namespace Feed

def init : Feed n m D := ⟨[], fun _ => none⟩

def setReader (x : Feed n m D) (i : Fin n) (r : Reader) : Feed n m D :=
  { x with readers := Function.update x.readers i (some r) }

def result (r : Reader) : Answer (Words m D) → Result m D
  | .item _ v => .item v
  | .nothing => .nothing
  | .skipped target => .missed (target - r.pos)

def call (C : Nat) (x : Feed n m D) : Call n m D → Feed n m D × List (Result m D)
  | .publish v => ({ x with log := x.log ++ [v] }, [])
  | .makeConsumer i =>
    match x.readers i with
    | none => (x.setReader i ⟨x.log.length + 1, 0⟩, [])
    | some _ => (x, [])
  | .tryRead i _ =>
    match x.readers i with
    | none => (x, [])
    | some r => (x.setReader i (read C x.log r).2, [result r (read C x.log r).1])

def results (C : Nat) (cs : List (Call n m D)) : List (Result m D) :=
  (serial (call C) init cs).2

end Feed

/-- Positions survive `pos << 1` in `w` bits. `P` items have been published and a
reader is at `pos`. In the ring its item has `pos` in the lower half of the range.
When its slot holds a later position, the lower half of that is still ahead and
`published_` has not wrapped since `pos`. With nothing to read, its slot is no
leftover from before a wrap. -/
def Readable (w C P pos : Nat) : Prop :=
  if P < pos then pos < 2 ^ w ∨ C ≤ pos % 2 ^ w
  else if P < pos + C then pos % 2 ^ w < 2 ^ (w - 1)
  else pos % 2 ^ w < (P - (P - pos) % C) % 2 ^ (w - 1) ∧ pos / 2 ^ w = P / 2 ^ w

/-- Every read is of a readable position. -/
def Usable (w C : Nat) (x : Feed n m D) : Call n m D → Prop
  | .tryRead i _ => ∀ r, x.readers i = some r → Readable w C x.log.length r.pos
  | .publish _ | .makeConsumer _ => True

end Toolbox.Overwrite
