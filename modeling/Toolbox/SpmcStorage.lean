import Toolbox.Spmc

namespace Toolbox.Spmc
open Base

/-- `sizeof(Slot<T>)` under `alignas(cache_line)`, and where in a slot its atomic
`sequence` ends. -/
structure SlotLayout (cacheLine : Nat) where
  size : Nat
  sequenceEnd : Nat
  size_pos : 0 < size
  lines : cacheLine ∣ size
  sequence_le : sequenceEnd ≤ size

/-- Bytes `[start, stop)` of the allocated block that are accessed. -/
structure Access where
  start : Nat
  stop : Nat

inductive Thrown where
  | invalidArgument (what : String)
  | badAlloc

/-- What a constructor that did not throw has done: the slot array lives in a block of
`block` bytes, and the loops made `accesses` to it. -/
structure Constructed where
  capacity : RingCapacity
  block : Nat
  accesses : List Access

/-- `n * sizeof(detail::Slot<T>)` in `size_t`. -/
def slotBytes (w : Width) (n size : Nat) : Nat := w.wrap (n * size)

variable {cacheLine : Nat}

/-- The placement-new loop: `::new (&slots[i]) detail::Slot<T>` for each `i < n`. -/
def SlotLayout.placements (l : SlotLayout cacheLine) (n : Nat) : List Access :=
  (List.range n).map (fun i => ⟨i * l.size, i * l.size + l.size⟩)

/-- `slots_[i].sequence.store(i)` for each `i < n`. -/
def SlotLayout.sequenceStores (l : SlotLayout cacheLine) (n : Nat) : List Access :=
  (List.range n).map (fun i => ⟨i * l.size, i * l.size + l.sequenceEnd⟩)

/-- `operatorNew` gives the length of the block for a number of bytes, or throws. -/
def allocateSlots (w : Nat) (l : SlotLayout cacheLine) (operatorNew : Nat → Option Nat)
    (n : Nat) : Except Thrown (Nat × List Access) :=
  match operatorNew (slotBytes (some w) n l.size) with
  | none => .error .badAlloc
  | some block => .ok (block, l.placements n)

/-- `SPMCQueue(capacity)`, up to the fence. -/
def construct (w : Nat) (l : SlotLayout cacheLine) (operatorNew : Nat → Option Nat)
    (capacity : Nat) : Except Thrown Constructed :=
  match checkAndRoundCapacity w capacity with
  | .error what => .error (.invalidArgument what)
  | .ok cap =>
    match allocateSlots w l operatorNew cap.size with
    | .error e => .error e
    | .ok (block, placed) => .ok ⟨cap, block, placed ++ l.sequenceStores cap.size⟩

end Toolbox.Spmc
