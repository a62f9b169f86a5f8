import Toolbox.Base.Machine
import Toolbox.Base.Ring

namespace Toolbox.Spsc
open Base

/-- The constructor's check, `std::has_single_bit(capacity)`. It comes after the
allocation of the buffer, which throws on its own for capacities too large. -/
def checkCapacity (capacity : Nat) : Except String Capacity :=
  if h : capacity = 2 ^ capacity.log2 then .ok ⟨capacity, capacity.log2, h⟩
  else .error "Capacity must be a power of 2"

/-- Where the producer stands in `try_emplace`, named after the access it makes
next. `none` as argument stands for arguments on which `T`'s constructor throws. -/
inductive ProducerPc (T : Type*) where
  | idle
  | loadTail (arg : Option T)
  | loadHead (arg : Option T) (t : Nat)
  | write (arg : Option T) (t : Nat)
  | storeTail (v : T) (t : Nat)

/-- Where the consumer stands in `try_pop`. -/
inductive ConsumerPc (T : Type*) where
  | idle
  | loadHead
  | loadTail (h : Nat)
  | move (h : Nat)
  | storeHead (v : T) (h : Nat)

structure State (T : Type*) where
  buffer : Nat → T
  head : Nat
  tail : Nat
  producer : ProducerPc T
  consumer : ConsumerPc T

/-- The scheduler's choices. A moved-from `T` holds an unspecified value, so
the slot move leaves behind whatever the scheduler picks. -/
inductive Act (T : Type*) where
  | tryEmplace (arg : Option T)
  | producer
  | tryPop
  | consumer
  | move (left : T)

inductive Event (T : Type*) where
  | accepted (v : T)
  | rejected
  | threw
  | popped (v : T)
  | empty

variable {T : Type*}

def stepProducer (cap : Capacity) (s : State T) : Option (State T × List (Event T)) :=
  match s.producer with
  | .idle => none
  | .loadTail arg => some ({ s with producer := .loadHead arg s.tail }, [])
  | .loadHead arg t =>
    if (t + 1) &&& cap.mask = s.head then some ({ s with producer := .idle }, [.rejected])
    else some ({ s with producer := .write arg t }, [])
  | .write none _ => some ({ s with producer := .idle }, [.threw])
  | .write (some v) t =>
    some ({ s with buffer := Function.update s.buffer t v, producer := .storeTail v t }, [])
  | .storeTail v t =>
    some ({ s with tail := (t + 1) &&& cap.mask, producer := .idle }, [.accepted v])

def stepConsumer (cap : Capacity) (s : State T) : Option (State T × List (Event T)) :=
  match s.consumer with
  | .idle => none
  | .loadHead => some ({ s with consumer := .loadTail s.head }, [])
  | .loadTail h =>
    if h = s.tail then some ({ s with consumer := .idle }, [.empty])
    else some ({ s with consumer := .move h }, [])
  | .move _ => none
  | .storeHead v h =>
    some ({ s with head := (h + 1) &&& cap.mask, consumer := .idle }, [.popped v])

def step (cap : Capacity) (s : State T) : Act T → Option (State T × List (Event T))
  | .tryEmplace arg =>
    match s.producer with
    | .idle => some ({ s with producer := .loadTail arg }, [])
    | _ => none
  | .producer => stepProducer cap s
  | .tryPop =>
    match s.consumer with
    | .idle => some ({ s with consumer := .loadHead }, [])
    | _ => none
  | .consumer => stepConsumer cap s
  | .move left =>
    match s.consumer with
    | .move h =>
      some ({ s with
        buffer := Function.update s.buffer h left
        consumer := .storeHead (s.buffer h) h }, [])
    | _ => none

/-- `std::make_unique<T[]>` value-initialises the buffer. -/
def machine (T : Type*) [Inhabited T] (cap : Capacity) : Machine (State T) (Act T) (Event T) where
  init := ⟨fun _ => default, 0, 0, .idle, .idle⟩
  step := step cap

/-- Values whose `tail` store has happened, in order. -/
def accepted (tr : List (Event T)) : List T :=
  tr.filterMap (fun | .accepted v => some v | _ => none)

/-- Values whose `head` store has happened, in order. -/
def popped (tr : List (Event T)) : List T :=
  tr.filterMap (fun | .popped v => some v | _ => none)

/-- An item is stored from its `tail` store to its `head` store. -/
def stored (tr : List (Event T)) : Nat := (accepted tr).length - (popped tr).length

end Toolbox.Spsc
