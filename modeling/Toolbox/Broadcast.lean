import Toolbox.Base.Machine
import Toolbox.SizeT

namespace Toolbox.Broadcast
open Base

def checkAndRoundCapacity (w n : Nat) : Except String RingCapacity :=
  roundCapacity "SPMCBroadcastQueue" (w - 1) n

inductive ConsumeCall where
  | tryConsume
  | tryCopy
  deriving DecidableEq

/-- Where `try_publish` stands, named after the access it makes next. `scan` is
about to load the cursor of consumer `i` and carries the least one seen. `none`
as argument stands for arguments on which `T`'s constructor throws. -/
inductive ProducerPc (n : Nat) (T : Type*) where
  | idle
  | loadTail (arg : Option T)
  | scan (arg : Option T) (t : Nat) (i : Fin (n + 1)) (least : Nat)
  | construct (arg : Option T) (t : Nat)
  | assign (v : T) (t : Nat)
  | storeTail (v : T) (t : Nat)

/-- One activation of `try_consume`. `try_copy` is one whose callback copies the
item. While `callback` runs it holds a reference to the slot of `pos`. -/
inductive Frame (T : Type*) where
  | loadCursor (call : ConsumeCall)
  | loadTail (call : ConsumeCall) (pos : Nat)
  | enter (call : ConsumeCall) (pos : Nat)
  | callback (call : ConsumeCall) (pos : Nat)
  | storeCursor (call : ConsumeCall) (pos : Nat) (item : T)

/-- `N = n + 1` consumers. A consumer's activations are stacked, since a callback
may call the same handle again. -/
structure State (n : Nat) (T : Type*) where
  slots : Nat → T
  tail : Nat
  cachedMin : Nat
  cursors : Fin (n + 1) → Nat
  producer : ProducerPc n T
  consumers : Fin (n + 1) → List (Frame T)

inductive Act (n : Nat) (T : Type*) where
  | publish (arg : Option T)
  | producer
  | consume (i : Fin (n + 1)) (call : ConsumeCall)
  | consumer (i : Fin (n + 1))
  | throws (i : Fin (n + 1))

inductive Event (n : Nat) (T : Type*) where
  | threw
  | full
  | published (v : T)
  | nothing (i : Fin (n + 1))
  | entered (i : Fin (n + 1)) (pos : Nat) (item : T)
  | callbackThrew (i : Fin (n + 1)) (pos : Nat)
  | delivered (i : Fin (n + 1)) (pos : Nat) (item : T)
  | consumed (i : Fin (n + 1)) (pos : Nat) (item : T)

variable {n : Nat} {T : Type*}

namespace State

def atProducer (s : State n T) (pc : ProducerPc n T) : State n T := { s with producer := pc }

def atConsumer (s : State n T) (i : Fin (n + 1)) (stack : List (Frame T)) : State n T :=
  { s with consumers := Function.update s.consumers i stack }

/-- `slots_[pos & mask_]`. -/
def item (cap : Capacity) (s : State n T) (pos : Nat) : T := cap.get s.slots pos

def setItem (cap : Capacity) (s : State n T) (pos : Nat) (v : T) : State n T :=
  { s with slots := cap.set s.slots pos v }

def setCursor (s : State n T) (i : Fin (n + 1)) (pos : Nat) : State n T :=
  { s with cursors := Function.update s.cursors i pos }

end State

/-- The scan's running minimum after loading `c`; the first load starts it. -/
def scanLeast (i : Fin (n + 1)) (least c : Nat) : Nat :=
  if i = 0 then c else if c < least then c else least

/-- `tail - cached_min_ >= capacity_`. -/
def looksFull (w : Width) (cap : Capacity) (t cachedMin : Nat) : Bool :=
  cap.size ≤ w.sub t cachedMin

def stepProducer (w : Width) (cap : Capacity) (s : State n T) :
    Option (State n T × List (Event n T)) :=
  match s.producer with
  | .idle => none
  | .loadTail arg =>
    if looksFull w cap s.tail s.cachedMin then some (s.atProducer (.scan arg s.tail 0 0), [])
    else some (s.atProducer (.construct arg s.tail), [])
  | .scan arg t i least =>
    let least' := scanLeast i least (s.cursors i)
    if h : i.val + 1 < n + 1 then some (s.atProducer (.scan arg t ⟨i.val + 1, h⟩ least'), [])
    else if looksFull w cap t least' then
      some ({ s with cachedMin := least' }.atProducer .idle, [.full])
    else some ({ s with cachedMin := least' }.atProducer (.construct arg t), [])
  | .construct none _ => some (s.atProducer .idle, [.threw])
  | .construct (some v) t => some (s.atProducer (.assign v t), [])
  | .assign v t => some ((s.setItem cap t v).atProducer (.storeTail v t), [])
  | .storeTail v t =>
    some ({ s with tail := w.wrap (t + 1) }.atProducer .idle, [.published v])

def stepConsumer (w : Width) (cap : Capacity) (s : State n T) (i : Fin (n + 1)) :
    Option (State n T × List (Event n T)) :=
  match s.consumers i with
  | [] => none
  | .loadCursor call :: rest =>
    some (s.atConsumer i (.loadTail call (s.cursors i) :: rest), [])
  | .loadTail call pos :: rest =>
    if s.tail ≤ pos then some (s.atConsumer i rest, [.nothing i])
    else some (s.atConsumer i (.enter call pos :: rest), [])
  | .enter call pos :: rest =>
    some (s.atConsumer i (.callback call pos :: rest), [.entered i pos (s.item cap pos)])
  | .callback call pos :: rest =>
    some (s.atConsumer i (.storeCursor call pos (s.item cap pos) :: rest),
      [.delivered i pos (s.item cap pos)])
  | .storeCursor _ pos v :: rest =>
    some ((s.setCursor i (w.wrap (pos + 1))).atConsumer i rest, [.consumed i pos v])

/-- A call on a handle starts when its thread is idle or inside a callback given
to `try_consume`. -/
def step (w : Width) (cap : Capacity) (s : State n T) :
    Act n T → Option (State n T × List (Event n T))
  | .publish arg =>
    match s.producer with
    | .idle => some (s.atProducer (.loadTail arg), [])
    | _ => none
  | .producer => stepProducer w cap s
  | .consume i call =>
    match s.consumers i with
    | [] => some (s.atConsumer i [.loadCursor call], [])
    | .callback .tryConsume pos :: rest =>
      some (s.atConsumer i (.loadCursor call :: .callback .tryConsume pos :: rest), [])
    | _ => none
  | .consumer i => stepConsumer w cap s i
  | .throws i =>
    match s.consumers i with
    | .callback _ pos :: rest => some (s.atConsumer i rest, [.callbackThrew i pos])
    | _ => none

/-- The ring is populated with default objects at construction. -/
def machine (n : Nat) (T : Type*) [Inhabited T] (w : Width) (cap : Capacity) :
    Machine (State n T) (Act n T) (Event n T) where
  init := ⟨fun _ => default, 0, 0, fun _ => 0, .idle, fun _ => []⟩
  step := step w cap

/-- No callback re-enters the queue. -/
def Flat (s : State n T) : Act n T → Prop
  | .consume i _ => s.consumers i = []
  | _ => True

instance (s : State n T) (a : Act n T) : Decidable (Flat s a) :=
  match a with
  | .consume i _ =>
    match h : s.consumers i with
    | [] => isTrue h
    | _ :: _ => isFalse (by simp [Flat, h])
  | .publish _ | .producer | .consumer _ | .throws _ => isTrue trivial

/-- The published sequence. -/
def published (tr : List (Event n T)) : List T :=
  tr.filterMap (fun | .published v => some v | _ => none)

/-- The items for which the callback of consumer `i` returned normally. -/
def delivered (i : Fin (n + 1)) (tr : List (Event n T)) : List T :=
  tr.filterMap (fun | .delivered j _ v => if j = i then some v else none | _ => none)

end Toolbox.Broadcast
