import Toolbox.Base.Machine
import Toolbox.SizeT

namespace Toolbox.Overwrite
open Base

def checkAndRoundCapacity (w n : Nat) : Except String RingCapacity :=
  roundCapacity "SPMCOverwriteQueue" (w - 2) n

/-- A trivially copyable object, as the words `memcpy` moves. -/
abbrev Words (m : Nat) (D : Type*) := Fin m → D

structure Slot (m : Nat) (D : Type*) where
  seq : Nat
  data : Words m D

/-- Where `publish` stands, named after the access it makes next. `none` as
argument stands for arguments on which `T`'s constructor throws; `done` marks the
words already copied. -/
inductive ProducerPc (m : Nat) (D : Type*) where
  | idle
  | advance (arg : Option (Words m D))
  | mark (arg : Option (Words m D)) (pos : Nat)
  | construct (arg : Option (Words m D)) (pos : Nat)
  | copy (v : Words m D) (pos : Nat) (done : Fin m → Bool)
  | announce (v : Words m D) (pos : Nat)

/-- Where `try_read` stands; `out` is the caller's object. -/
inductive ReaderPc (m : Nat) (D : Type*) where
  | idle
  | loadSeq (out : Words m D)
  | copy (s1 : Nat) (done : Fin m → Bool) (out : Words m D)
  | loadPublished (newest : Nat) (out : Words m D)

structure Consumer (m : Nat) (D : Type*) where
  pos : Nat
  missed : Nat
  pc : ReaderPc m D

/-- Consumers come into being when `make_consumer` is called. -/
structure State (n m : Nat) (D : Type*) where
  slots : Nat → Slot m D
  writePos : Nat
  published : Nat
  producer : ProducerPc m D
  consumers : Fin n → Option (Consumer m D)

inductive Act (n m : Nat) (D : Type*) where
  | publish (arg : Option (Words m D))
  | producer
  | producerWord (k : Fin m)
  | makeConsumer (i : Fin n)
  | tryRead (i : Fin n) (out : Words m D)
  | reader (i : Fin n)
  | readerWord (i : Fin n) (k : Fin m)

/-- `lapped` also shows how far the producer had come when the call returned. -/
inductive Event (n m : Nat) (D : Type*) where
  | began (arg : Option (Words m D))
  | threw (pos : Nat)
  | published (pos : Nat) (v : Words m D)
  | made (i : Fin n) (start : Nat)
  | empty (i : Fin n) (out : Words m D)
  | ok (i : Fin n) (pos : Nat) (out : Words m D)
  | lapped (i : Fin n) (pos target writePos : Nat) (out : Words m D)

/-- `pos << 1`: the payload of `pos` is stable. -/
def stable (w : Width) (pos : Nat) : Nat := w.wrap (pos <<< 1)

/-- `(pos << 1) | 1`: the producer is writing the payload of `pos`. -/
def inProgress (w : Width) (pos : Nat) : Nat := stable w pos ||| 1

variable {n m : Nat} {D : Type*}

namespace State

def atProducer (s : State n m D) (pc : ProducerPc m D) : State n m D := { s with producer := pc }

def setConsumer (s : State n m D) (i : Fin n) (c : Consumer m D) : State n m D :=
  { s with consumers := Function.update s.consumers i (some c) }

/-- `slots_[pos & mask_].seq`. -/
def seq (cap : Capacity) (s : State n m D) (pos : Nat) : Nat := (cap.get s.slots pos).seq

def data (cap : Capacity) (s : State n m D) (pos : Nat) : Words m D :=
  (cap.get s.slots pos).data

def storeSeq (cap : Capacity) (s : State n m D) (pos value : Nat) : State n m D :=
  { s with slots := cap.set s.slots pos { cap.get s.slots pos with seq := value } }

def storeWord (cap : Capacity) (s : State n m D) (pos : Nat) (k : Fin m) (d : D) :
    State n m D :=
  let slot := cap.get s.slots pos
  { s with slots := cap.set s.slots pos ⟨slot.seq, Function.update slot.data k d⟩ }

end State

def stepProducer (w : Width) (cap : Capacity) (s : State n m D) :
    Option (State n m D × List (Event n m D)) :=
  match s.producer with
  | .idle => none
  | .advance arg =>
    let pos := w.wrap (s.writePos + 1)
    some ({ s with writePos := pos }.atProducer (.mark arg pos), [.began arg])
  | .mark arg pos =>
    some ((s.storeSeq cap pos (inProgress w pos)).atProducer (.construct arg pos), [])
  | .construct none pos => some (s.atProducer .idle, [.threw pos])
  | .construct (some v) pos => some (s.atProducer (.copy v pos (fun _ => false)), [])
  | .copy v pos done =>
    if ∀ k, done k = true then
      some ((s.storeSeq cap pos (stable w pos)).atProducer (.announce v pos), [])
    else none
  | .announce v pos =>
    some ({ s with published := pos }.atProducer .idle, [.published pos v])

def stepProducerWord (cap : Capacity) (s : State n m D) (k : Fin m) :
    Option (State n m D × List (Event n m D)) :=
  match s.producer with
  | .copy v pos done =>
    if done k then none
    else some ((s.storeWord cap pos k (v k)).atProducer
      (.copy v pos (Function.update done k true)), [])
  | _ => none

/-- `lapped_to`'s choice of the position to resume from. -/
def lappedTarget (w : Width) (cap : Capacity) (pos newest pub : Nat) : Nat :=
  let target := if cap.size < pub then w.wrap (w.sub pub cap.size + 1) else 1
  if target ≤ pos then newest else target

/-- `lapped_to`, from its load of `published_` on. -/
def lappedTo (w : Width) (cap : Capacity) (s : State n m D) (i : Fin n) (c : Consumer m D)
    (newest : Nat) (out : Words m D) : State n m D × List (Event n m D) :=
  let target := lappedTarget w cap c.pos newest s.published
  if c.pos < target then
    (s.setConsumer i ⟨target, w.wrap (c.missed + w.sub target c.pos), .idle⟩,
      [.lapped i c.pos target s.writePos out])
  else (s.setConsumer i { c with pc := .idle }, [.lapped i c.pos c.pos s.writePos out])

def stepReader (w : Width) (cap : Capacity) (s : State n m D) (i : Fin n) (c : Consumer m D) :
    Option (State n m D × List (Event n m D)) :=
  match c.pc with
  | .idle => none
  | .loadSeq out =>
    let s1 := s.seq cap c.pos
    if s1 &&& 1 = 1 then some (s.setConsumer i { c with pc := .idle }, [.empty i out])
    else if s1 >>> 1 < c.pos then some (s.setConsumer i { c with pc := .idle }, [.empty i out])
    else if c.pos < s1 >>> 1 then
      some (s.setConsumer i { c with pc := .loadPublished (s1 >>> 1) out }, [])
    else some (s.setConsumer i { c with pc := .copy s1 (fun _ => false) out }, [])
  | .copy s1 done out =>
    if ∀ k, done k = true then
      let s2 := s.seq cap c.pos
      if s1 = s2 then
        some (s.setConsumer i ⟨w.wrap (c.pos + 1), c.missed, .idle⟩, [.ok i c.pos out])
      else some (s.setConsumer i { c with pc := .loadPublished (s2 >>> 1) out }, [])
    else none
  | .loadPublished newest out => some (lappedTo w cap s i c newest out)

def stepReaderWord (cap : Capacity) (s : State n m D) (i : Fin n) (c : Consumer m D)
    (k : Fin m) : Option (State n m D × List (Event n m D)) :=
  match c.pc with
  | .copy s1 done out =>
    if done k then none
    else some (s.setConsumer i { c with
      pc := .copy s1 (Function.update done k true)
        (Function.update out k (s.data cap c.pos k)) }, [])
  | _ => none

def step (w : Width) (cap : Capacity) (s : State n m D) :
    Act n m D → Option (State n m D × List (Event n m D))
  | .publish arg =>
    match s.producer with
    | .idle => some (s.atProducer (.advance arg), [])
    | _ => none
  | .producer => stepProducer w cap s
  | .producerWord k => stepProducerWord cap s k
  | .makeConsumer i =>
    match s.consumers i with
    | none =>
      let start := w.wrap (s.published + 1)
      some (s.setConsumer i ⟨start, 0, .idle⟩, [.made i start])
    | some _ => none
  | .tryRead i out =>
    match s.consumers i with
    | some c =>
      match c.pc with
      | .idle => some (s.setConsumer i { c with pc := .loadSeq out }, [])
      | _ => none
    | none => none
  | .reader i => (s.consumers i).bind (stepReader w cap s i)
  | .readerWord i k => (s.consumers i).bind (fun c => stepReaderWord cap s i c k)

/-- Every slot starts out with `seq` 0 and a default object. -/
def machine (n m : Nat) (D : Type*) [Inhabited D] (w : Width) (cap : Capacity) :
    Machine (State n m D) (Act n m D) (Event n m D) where
  init := ⟨fun _ => ⟨0, fun _ => default⟩, 0, 0, .idle, fun _ => none⟩
  step := step w cap

/-- The arguments of the publish calls, by position from 1 on. -/
def calls (tr : List (Event n m D)) : List (Option (Words m D)) :=
  tr.filterMap (fun | .began arg => some arg | _ => none)

/-- The positions consumer `i` was given an item for, in order. -/
def delivered (i : Fin n) (tr : List (Event n m D)) : List Nat :=
  tr.filterMap (fun | .ok j pos _ => if j = i then some pos else none | _ => none)

/-- The positions at which handle `i` was created. -/
def starts (i : Fin n) (tr : List (Event n m D)) : List Nat :=
  tr.filterMap (fun | .made j start => if j = i then some start else none | _ => none)

end Toolbox.Overwrite
