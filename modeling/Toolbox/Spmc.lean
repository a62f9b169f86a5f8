import Toolbox.Base.Machine
import Toolbox.SizeT

namespace Toolbox.Spmc
open Base

def checkAndRoundCapacity (w n : Nat) : Except String RingCapacity :=
  roundCapacity "SPMCQueue" (w - 1) n

/-- One ring-buffer entry. The raw storage is `some v` while a live `T` is in it. -/
structure Slot (T : Type*) where
  sequence : Nat
  storage : Option T

inductive EmplaceCall where
  | tryEmplace
  | emplaceWait
  deriving DecidableEq

inductive PopCall where
  | tryPop
  | popWait
  deriving DecidableEq

/-- Where the producer stands, named after the access it makes next. `none` as
argument stands for arguments on which `T`'s constructor throws. `wait` is the
value check inside `atomic::wait`, made again after every wakeup. -/
inductive ProducerPc (T : Type*) where
  | idle
  | loadTail (call : EmplaceCall) (arg : Option T)
  | loadSeq (call : EmplaceCall) (arg : Option T) (t : Nat)
  | wait (arg : Option T) (t old : Nat)
  | parked (arg : Option T) (t old : Nat)
  | construct (arg : Option T) (t : Nat)
  | storeSeq (v : T) (t : Nat)
  | storeTail (v : T) (t : Nat)
  | notifyAll (v : T) (t : Nat)

/-- Where a consumer stands in `try_pop` or `pop_wait`; after the claim the two
run the same code. -/
inductive ConsumerPc (T : Type*) where
  | idle
  | loadHead (call : PopCall)
  | loadSeq (call : PopCall) (h : Nat)
  | reload (call : PopCall) (h : Nat)
  | wait (h old : Nat)
  | parked (h old : Nat)
  | cas (call : PopCall) (h : Nat)
  | moveOut (h : Nat)
  | storeSeq (h : Nat) (v : T)
  | notifyOne (h : Nat) (v : T)

structure State (n : Nat) (T : Type*) where
  slots : Nat → Slot T
  head : Nat
  tail : Nat
  producer : ProducerPc T
  consumers : Fin n → ConsumerPc T

/-- A thread that can be parked in `atomic::wait`. -/
inductive Waiter (n : Nat) where
  | producer
  | consumer (i : Fin n)
  deriving DecidableEq

/-- The scheduler's choices: a call begins, a thread makes its next step, a
`compare_exchange_weak` fails spuriously, `notify_one` picks the thread it
wakes, or a parked thread wakes by itself. -/
inductive Act (n : Nat) (T : Type*) where
  | emplace (call : EmplaceCall) (arg : Option T)
  | producer
  | pop (i : Fin n) (call : PopCall)
  | consumer (i : Fin n)
  | casFails (i : Fin n)
  | notifyOne (i : Fin n) (woken : Option (Waiter n))
  | spurious (w : Waiter n)

inductive Event (n : Nat) (T : Type*) where
  | constructed (v : T)
  | threw
  | rejected
  | produced (v : T)
  | accepted (v : T)
  | called (i : Fin n) (call : PopCall)
  | looked (i : Fin n) (h : Nat)
  | casFailed (i : Fin n) (spurious : Bool)
  | claimed (i : Fin n) (h : Nat)
  | destroyed (i : Fin n) (h : Nat)
  | popped (i : Fin n) (h : Nat) (v : T)
  | empty (i : Fin n)
  | undefined (i : Fin n)

variable {n : Nat} {T : Type*}

namespace State

def atProducer (s : State n T) (pc : ProducerPc T) : State n T := { s with producer := pc }

def atConsumer (s : State n T) (i : Fin n) (pc : ConsumerPc T) : State n T :=
  { s with consumers := Function.update s.consumers i pc }

/-- `slots_[pos & mask_].sequence`. -/
def seq (cap : Capacity) (s : State n T) (pos : Nat) : Nat := (cap.get s.slots pos).sequence

def storage (cap : Capacity) (s : State n T) (pos : Nat) : Option T :=
  (cap.get s.slots pos).storage

def storeSeq (cap : Capacity) (s : State n T) (pos value : Nat) : State n T :=
  { s with slots := cap.set s.slots pos { cap.get s.slots pos with sequence := value } }

def setStorage (cap : Capacity) (s : State n T) (pos : Nat) (b : Option T) : State n T :=
  { s with slots := cap.set s.slots pos { cap.get s.slots pos with storage := b } }

/-- The position on whose slot a thread is parked. -/
def parkedAt (s : State n T) : Waiter n → Option Nat
  | .producer =>
    match s.producer with
    | .parked _ t _ => some t
    | _ => none
  | .consumer i =>
    match s.consumers i with
    | .parked h _ => some h
    | _ => none

/-- Parked on the atomic that `slots_[pos & mask_].sequence` names. -/
def ParkedOn (cap : Capacity) (s : State n T) (pos : Nat) (w : Waiter n) : Prop :=
  (s.parkedAt w).map cap.index = some (cap.index pos)

instance (cap : Capacity) (s : State n T) (pos : Nat) (w : Waiter n) :
    Decidable (s.ParkedOn cap pos w) :=
  inferInstanceAs (Decidable (_ = _))

end State

/-- A woken thread checks the value again before `atomic::wait` returns. -/
def ProducerPc.woken : ProducerPc T → ProducerPc T
  | .parked arg t old => .wait arg t old
  | pc => pc

def ConsumerPc.woken : ConsumerPc T → ConsumerPc T
  | .parked h old => .wait h old
  | pc => pc

namespace State

def wake (s : State n T) : Waiter n → State n T
  | .producer => s.atProducer s.producer.woken
  | .consumer i => s.atConsumer i (s.consumers i).woken

/-- `slots_[pos & mask_].sequence.notify_all()`. -/
def wakeAll (cap : Capacity) (s : State n T) (pos : Nat) : State n T :=
  { s with
    producer := if s.ParkedOn cap pos .producer then s.producer.woken else s.producer
    consumers := fun i =>
      if s.ParkedOn cap pos (.consumer i) then (s.consumers i).woken else s.consumers i }

end State

def stepProducer (w : Width) (cap : Capacity) (s : State n T) :
    Option (State n T × List (Event n T)) :=
  match s.producer with
  | .idle => none
  | .loadTail call arg => some (s.atProducer (.loadSeq call arg s.tail), [])
  | .loadSeq call arg t =>
    if s.seq cap t = t then some (s.atProducer (.construct arg t), [])
    else
      match call with
      | .tryEmplace => some (s.atProducer .idle, [.rejected])
      | .emplaceWait => some (s.atProducer (.wait arg t (s.seq cap t)), [])
  | .wait arg t old =>
    if s.seq cap t = old then some (s.atProducer (.parked arg t old), [])
    else some (s.atProducer (.loadSeq .emplaceWait arg t), [])
  | .parked _ _ _ => none
  | .construct none _ => some (s.atProducer .idle, [.threw])
  | .construct (some v) t =>
    some ((s.setStorage cap t (some v)).atProducer (.storeSeq v t), [.constructed v])
  | .storeSeq v t =>
    some ((s.storeSeq cap t (w.wrap (t + 1))).atProducer (.storeTail v t), [.produced v])
  | .storeTail v t =>
    some ({ s with tail := w.wrap (t + 1) }.atProducer (.notifyAll v t), [])
  | .notifyAll v t => some ((s.wakeAll cap t).atProducer .idle, [.accepted v])

/-- Moving out of storage without a live `T` is undefined; it is shown as such
rather than left out. -/
def stepConsumer (w : Width) (cap : Capacity) (s : State n T) (i : Fin n) :
    Option (State n T × List (Event n T)) :=
  match s.consumers i with
  | .idle => none
  | .loadHead call => some (s.atConsumer i (.loadSeq call s.head), [])
  | .loadSeq call h =>
    match w.diff (s.seq cap h) (w.wrap (h + 1)) with
    | .zero => some (s.atConsumer i (.cas call h), [.looked i h])
    | .negative =>
      match call with
      | .tryPop => some (s.atConsumer i .idle, [.looked i h, .empty i])
      | .popWait => some (s.atConsumer i (.wait h (s.seq cap h)), [.looked i h])
    | .positive => some (s.atConsumer i (.reload call h), [.looked i h])
  | .reload call _ => some (s.atConsumer i (.loadSeq call s.head), [])
  | .wait h old =>
    if s.seq cap h = old then some (s.atConsumer i (.parked h old), [])
    else some (s.atConsumer i (.loadSeq .popWait h), [])
  | .parked _ _ => none
  | .cas call h =>
    if s.head = h then
      some ({ s with head := w.wrap (h + 1) }.atConsumer i (.moveOut h), [.claimed i h])
    else some (s.atConsumer i (.loadSeq call s.head), [.casFailed i false])
  | .moveOut h =>
    match s.storage cap h with
    | some v => some ((s.setStorage cap h none).atConsumer i (.storeSeq h v), [.destroyed i h])
    | none => some (s.atConsumer i .idle, [.undefined i])
  | .storeSeq h v =>
    some ((s.storeSeq cap h (w.wrap (h + cap.size))).atConsumer i (.notifyOne h v), [])
  | .notifyOne _ _ => none

/-- `notify_one` wakes one thread parked on the slot, if there is one. -/
def stepNotifyOne (cap : Capacity) (s : State n T) (i : Fin n) (woken : Option (Waiter n)) :
    Option (State n T × List (Event n T)) :=
  match s.consumers i with
  | .notifyOne h v =>
    match woken with
    | some x =>
      if s.ParkedOn cap h x then some ((s.wake x).atConsumer i .idle, [.popped i h v]) else none
    | none =>
      if s.ParkedOn cap h .producer ∨ ∃ j, s.ParkedOn cap h (.consumer j) then none
      else some (s.atConsumer i .idle, [.popped i h v])
  | _ => none

def step (w : Width) (cap : Capacity) (s : State n T) :
    Act n T → Option (State n T × List (Event n T))
  | .emplace call arg =>
    match s.producer with
    | .idle => some (s.atProducer (.loadTail call arg), [])
    | _ => none
  | .producer => stepProducer w cap s
  | .pop i call =>
    match s.consumers i with
    | .idle => some (s.atConsumer i (.loadHead call), [.called i call])
    | _ => none
  | .consumer i => stepConsumer w cap s i
  | .casFails i =>
    match s.consumers i with
    | .cas call h =>
      if s.head = h then some (s.atConsumer i (.loadSeq call s.head), [.casFailed i true])
      else none
    | _ => none
  | .notifyOne i woken => stepNotifyOne cap s i woken
  | .spurious x => if (s.parkedAt x).isSome then some (s.wake x, []) else none

/-- The constructor stores `i` into the sequence of slot `i`. -/
def machine (n : Nat) (T : Type*) (w : Width) (cap : Capacity) :
    Machine (State n T) (Act n T) (Event n T) where
  init := ⟨fun i => ⟨i, none⟩, 0, 0, .idle, fun _ => .idle⟩
  step := step w cap

/-- The destructor's walk from `pos` to `t`, with the storage each `destroy`
call found. `none` when the fuel runs out before `pos` reaches `t`. -/
def destroyWalk (w : Width) (cap : Capacity) (t : Nat) :
    Nat → (Nat → Slot T) → Nat → Option ((Nat → Slot T) × List (Option T))
  | fuel, slots, pos =>
    if pos = t then some (slots, [])
    else
      match fuel with
      | 0 => none
      | fuel + 1 =>
        let slot := cap.get slots pos
        if slot.sequence = w.wrap (pos + 1) then
          (destroyWalk w cap t fuel (cap.set slots pos { slot with storage := none })
            (w.wrap (pos + 1))).map (fun r => (r.1, slot.storage :: r.2))
        else destroyWalk w cap t fuel slots (w.wrap (pos + 1))

/-- `~SPMCQueue`, run when no operation is in progress. -/
def destructor (w : Width) (cap : Capacity) (fuel : Nat) (s : State n T) :
    Option ((Nat → Slot T) × List (Option T)) :=
  destroyWalk w cap s.tail fuel s.slots s.head

/-- No operation is in progress. -/
def Quiescent (s : State n T) : Prop := s.producer = .idle ∧ ∀ i, s.consumers i = .idle

/-- The values whose slot became claimable, by position. -/
def produced (tr : List (Event n T)) : List T :=
  tr.filterMap (fun | .produced v => some v | _ => none)

/-- The values of the emplace calls that returned successfully, in order. -/
def accepted (tr : List (Event n T)) : List T :=
  tr.filterMap (fun | .accepted v => some v | _ => none)

/-- The successful compare-exchanges: who claimed which position. -/
def claims (tr : List (Event n T)) : List (Fin n × Nat) :=
  tr.filterMap (fun | .claimed i h => some (i, h) | _ => none)

/-- What the pops returned: the consumer, its claimed position, the value. -/
def pops (tr : List (Event n T)) : List (Fin n × Nat × T) :=
  tr.filterMap (fun | .popped i h v => some (i, h, v) | _ => none)

/-- The `T` objects constructed in slots, and those `move_out` destroyed. -/
def constructed (tr : List (Event n T)) : List T :=
  tr.filterMap (fun | .constructed v => some v | _ => none)

def destroyed (tr : List (Event n T)) : List (Fin n × Nat) :=
  tr.filterMap (fun | .destroyed i h => some (i, h) | _ => none)

end Toolbox.Spmc
