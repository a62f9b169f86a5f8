import Toolbox.Base.Client
import Toolbox.Callers
import Toolbox.LatencyRecorder
import Toolbox.Tsc

deriving instance DecidableEq, Inhabited for Toolbox.Tsc.Item

namespace Toolbox.Benchmark
open Base Latency
open Tsc (Item)

/-- The arguments of a benchmark function, and what it finds of `print_report`'s
header flag. -/
structure Plan (n : Nat) where
  label : String
  warmup : Nat
  measure : Nat
  ranks : Ranks
  headerPrinted : Bool
  total_lt : warmup + measure < 2 ^ 64
  consumers_pos : 0 < n

def Plan.total {n : Nat} (p : Plan n) : Nat := p.warmup + p.measure

/-- Where the producer thread stands. In `put` it calls the queue with its item
until the queue accepts it. -/
inductive ProducerPc where
  | waitGo
  | stamp (i : Nat)
  | put (i : Nat) (item : Item)
  | finished

/-- Where the thread stands that has started the others. -/
inductive MainPc where
  | start
  | joinProducer
  | joinConsumer (j : Nat)
  | merge (j : Nat) (merged : LatencyRecorder)
  | reported

/-- `C` says where a consumer thread stands, `D` is what the threads share beside
the queue. -/
structure State (n : Nat) (C D : Type*) where
  go : Bool
  main : MainPc
  producer : ProducerPc
  consumers : Fin n → C
  recs : Fin n → LatencyRecorder
  shared : D

/-- The thread that goes on, with the clock reading it takes if it takes one. -/
inductive Choice (n : Nat) where
  | main
  | producer (ns : BitVec 64)
  | consumer (i : Fin n) (ns : BitVec 64)

/-- The items made, those a consumer is done with and the time it noted for each,
and what is printed. -/
inductive Event (n : Nat) where
  | stamped (item : Item)
  | counted (i : Fin n) (item : Item) (now : Int)
  | printed (lines : List Answer)

variable {n : Nat} {C D : Type*}

def State.atConsumer (s : State n C D) (i : Fin n) (pc : C) : State n C D :=
  { s with consumers := Function.update s.consumers i pc }

/-- The head of the loop over the items. -/
def loopHead (p : Plan n) (i : Nat) : ProducerPc := if i < p.total then .stamp i else .finished

/-- `payload` is `static_cast<std::int64_t>(i)`. -/
def payload (i : Nat) : Int := (BitVec.ofNat 64 i).toInt

/-- The pacing of the items only restricts the readings. -/
def stepProducer (p : Plan n) (s : State n C D) (ns : BitVec 64) :
    Option (State n C D × List (Event n)) :=
  match s.producer with
  | .waitGo => if s.go then some ({ s with producer := loopHead p 0 }, []) else none
  | .stamp i =>
    let item := ⟨ns.toInt, payload i⟩
    some ({ s with producer := .put i item }, [.stamped item])
  | .put _ _ => none
  | .finished => none

/-- `now - item.enqueue_ns` has a meaning. -/
def InRange (lat : Int) : Prop := -2 ^ 63 ≤ lat ∧ lat < 2 ^ 63

instance (lat : Int) : Decidable (InRange lat) := inferInstanceAs (Decidable (_ ∧ _))

/-- Consumer `i` is done with the `k`-th of its items. -/
def noteLatency (p : Plan n) (s : State n C D) (i : Fin n) (k : Nat) (item : Item) (now : Int) :
    Option (State n C D) :=
  if k < p.warmup then some s
  else
    let lat := now - item.enqueueNs
    if InRange lat then
      if 0 ≤ lat then
        some { s with recs := Function.update s.recs i ((s.recs i).record lat.toNat) }
      else some s
    else none

def printReport (p : Plan n) (merged : LatencyRecorder) : List Answer :=
  (Recorders.printReport p.ranks ⟨fun _ => merged, p.headerPrinted⟩ () p.label).2

/-- `exited` tells whether a consumer thread has ended. -/
def stepMain (p : Plan n) (exited : C → Bool) (s : State n C D) :
    Option (State n C D × List (Event n)) :=
  match s.main with
  | .start => some ({ s with go := true, main := .joinProducer }, [])
  | .joinProducer =>
    match s.producer with
    | .finished => some ({ s with main := .joinConsumer 0 }, [])
    | _ => none
  | .joinConsumer j =>
    if h : j < n then
      if exited (s.consumers ⟨j, h⟩) then some ({ s with main := .joinConsumer (j + 1) }, [])
      else none
    else some ({ s with main := .merge 0 .new }, [])
  | .merge j merged =>
    if h : j < n then
      some ({ s with main := .merge (j + 1) (merged.mergeFrom (s.recs ⟨j, h⟩)) }, [])
    else some ({ s with main := .reported }, [.printed (printReport p merged)])
  | .reported => none

/-- The items made so far, and the consumers' items in the order they were done with. -/
def stamped (tr : List (Event n)) : List Item :=
  tr.filterMap (fun | .stamped item => some item | _ => none)

def counted (tr : List (Event n)) : List (Fin n × Item × Int) :=
  tr.filterMap (fun | .counted i item now => some (i, item, now) | _ => none)

def printed (tr : List (Event n)) : List (List Answer) :=
  tr.filterMap (fun | .printed lines => some lines | _ => none)

section RunBenchmark

/-- Where a consumer of `run_benchmark` stands; in `poll` it calls the queue. -/
inductive PopPc where
  | waitGo
  | check
  | poll
  | read (item : Item)
  | count (item : Item) (now : Int)
  | finished

def PopPc.exited : PopPc → Bool
  | .finished => true
  | _ => false

/-- The threads share the count of the items popped. -/
abbrev PopState (n : Nat) := State n PopPc Nat

def stepPopper (p : Plan n) (s : PopState n) (i : Fin n) (ns : BitVec 64) :
    Option (PopState n × List (Event n)) :=
  match s.consumers i with
  | .waitGo => if s.go then some (s.atConsumer i .check, []) else none
  | .check => some (s.atConsumer i (if s.shared < p.total then .poll else .finished), [])
  | .poll => none
  | .read item => some (s.atConsumer i (.count item ns.toInt), [])
  | .count item now =>
    (noteLatency p { s with shared := (s.shared + 1) % 2 ^ 64 } i s.shared item now).map
      (fun s' => (s'.atConsumer i .check, [.counted i item now]))
  | .finished => none

def popBenchmarkStep (p : Plan n) (s : PopState n) : Choice n →
    Option (PopState n × List (Event n))
  | .main => stepMain p PopPc.exited s
  | .producer ns => stepProducer p s ns
  | .consumer i ns => stepPopper p s i ns

/-- What the threads make of their calls. Making an `Item` does not throw. -/
def popBenchmarkHears (p : Plan n) (s : PopState n) : Handoff.Event n Item → Option (PopState n)
  | .offered how arg =>
    match s.producer with
    | .put _ item => if how = .tries ∧ arg = some item then some s else none
    | _ => none
  | .pushed =>
    match s.producer with
    | .put i _ => some { s with producer := loopHead p (i + 1) }
    | _ => none
  | .refused => some s
  | .threw => none
  | .asked i how =>
    match s.consumers i with
    | .poll => if how = .tries then some s else none
    | _ => none
  | .given i item =>
    match s.consumers i with
    | .poll => some (s.atConsumer i (.read item))
    | _ => none
  | .nothing i =>
    match s.consumers i with
    | .poll => some (s.atConsumer i .check)
    | _ => none

/-- `run_benchmark`, all its threads started. -/
def runBenchmark (p : Plan n) : Client (PopState n) (Choice n) (Handoff.Event n Item) (Event n) where
  init := ⟨false, .start, .waitGo, fun _ => .waitGo, fun _ => .new, 0⟩
  own := popBenchmarkStep p
  hears := popBenchmarkHears p

end RunBenchmark

section RunBroadcastBenchmark

/-- Where a consumer of `run_broadcast_benchmark` stands, with its `n`. In `poll`
it calls the queue; from `callback` to `returning` the queue calls it: it reads the
clock, then the item. -/
inductive FanPc where
  | waitGo
  | poll (k : Nat)
  | callback (k : Nat)
  | reading (k : Nat) (now : Int)
  | count (k : Nat) (item : Item) (now : Int)
  | returning (k : Nat)
  | finished

def FanPc.exited : FanPc → Bool
  | .finished => true
  | _ => false

abbrev FanState (n : Nat) := State (n + 1) FanPc Unit

/-- The head of a consumer's loop. -/
def fanHead (p : Plan n) (k : Nat) : FanPc := if k < p.total then .poll k else .finished

def stepFan (p : Plan (n + 1)) (s : FanState n) (i : Fin (n + 1)) (ns : BitVec 64) :
    Option (FanState n × List (Event (n + 1))) :=
  match s.consumers i with
  | .waitGo => if s.go then some (s.atConsumer i (fanHead p 0), []) else none
  | .poll _ => none
  | .callback k => some (s.atConsumer i (.reading k ns.toInt), [])
  | .reading _ _ => none
  | .count k item now =>
    (noteLatency p s i k item now).map
      (fun s' => (s'.atConsumer i (.returning k), [.counted i item now]))
  | .returning _ => none
  | .finished => none

def fanBenchmarkStep (p : Plan (n + 1)) (s : FanState n) : Choice (n + 1) →
    Option (FanState n × List (Event (n + 1)))
  | .main => stepMain p FanPc.exited s
  | .producer ns => stepProducer p s ns
  | .consumer i ns => stepFan p s i ns

/-- What the threads make of their calls. Copying an `Item` does not throw, nor
does the callback. -/
def fanBenchmarkHears (p : Plan (n + 1)) (s : FanState n) :
    Broadcast.Shown n Item → Option (FanState n)
  | .publish arg =>
    match s.producer with
    | .put _ item => if arg = some item then some s else none
    | _ => none
  | .consume i call =>
    match s.consumers i with
    | .poll _ => if call = .tryConsume then some s else none
    | _ => none
  | .seen (.published _) =>
    match s.producer with
    | .put i _ => some { s with producer := loopHead p (i + 1) }
    | _ => none
  | .seen .full => some s
  | .seen .threw => none
  | .seen (.nothing _) => some s
  | .seen (.entered i _ _) =>
    match s.consumers i with
    | .poll k => some (s.atConsumer i (.callback k))
    | _ => none
  | .seen (.delivered i _ item) =>
    match s.consumers i with
    | .reading k now => some (s.atConsumer i (.count k item now))
    | _ => none
  | .seen (.consumed i _ _) =>
    match s.consumers i with
    | .returning k => some (s.atConsumer i (fanHead p (k + 1)))
    | _ => none
  | .seen (.callbackThrew _ _) => none

/-- `run_broadcast_benchmark`, all its threads started. -/
def runBroadcastBenchmark (p : Plan (n + 1)) :
    Client (FanState n) (Choice (n + 1)) (Broadcast.Shown n Item) (Event (n + 1)) where
  init := ⟨false, .start, .waitGo, fun _ => .waitGo, fun _ => .new, ()⟩
  own := fanBenchmarkStep p
  hears := fanBenchmarkHears p

end RunBroadcastBenchmark

section RunOverwriteBenchmark

/-- Where a consumer of `run_overwrite_benchmark` stands, with its `n` and its
`draining`. In `poll` it calls the queue. -/
inductive LossyPc where
  | waitGo
  | poll (k : Nat) (draining : Bool)
  | read (k : Nat) (draining : Bool) (item : Item)
  | empty (k : Nat) (draining : Bool)
  | finished (received : Nat)

def LossyPc.exited : LossyPc → Bool
  | .finished _ => true
  | _ => false

/-- Its entry of `received`, which the thread writes as it ends. -/
def LossyPc.received : LossyPc → Nat
  | .finished received => received
  | _ => 0

/-- How many handles have been made, the flag the producer leaves, and the sums over
the first `tallied` handles. -/
structure Lossy where
  handles : Nat
  done : Bool
  tallied : Nat
  missedTotal : Nat
  receivedTotal : Nat

/-- The printed label: `rate missed total` is what `%.1f` makes of the percentage that
`missed` is of `total`. The buffer has room for 63 characters. -/
def lossLabel (rate : Nat → Nat → String) (name : String) (missed received : Nat) : String :=
  let total := (received + missed) % 2 ^ 64
  let lossPct := if total ≠ 0 then rate missed total else "0.0"
  String.ofList ((name ++ " (loss " ++ lossPct ++ "%)").toList.take 63)

/-- The plan with the label to print. -/
def Plan.labelled {n : Nat} (p : Plan n) (rate : Nat → Nat → String) (missed received : Nat) :
    Plan n :=
  { p with label := lossLabel rate p.label missed received }

abbrev LossyState (n : Nat) := State n LossyPc Lossy

/-- An `Item` is two words to `memcpy`. -/
def ofWords (v : Overwrite.Words 2 Int) : Item := ⟨v 0, v 1⟩

def stepLossy (p : Plan n) (s : LossyState n) (i : Fin n) (ns : BitVec 64) :
    Option (LossyState n × List (Event n)) :=
  match s.consumers i with
  | .waitGo => if s.go then some (s.atConsumer i (.poll 0 false), []) else none
  | .poll _ _ => none
  | .read k draining item =>
    (noteLatency p s i k item ns.toInt).map
      (fun s' => (s'.atConsumer i (.poll (k + 1) draining), [.counted i item ns.toInt]))
  | .empty k draining =>
    if draining then some (s.atConsumer i (.finished k), [])
    else some (s.atConsumer i (.poll k s.shared.done), [])
  | .finished _ => none

/-- What the starting thread waits for or does before it goes on: it makes the handles,
the producer thread ends, and after the joins it sums up the handles. -/
def LossyState.ready (s : LossyState n) : Bool :=
  match s.main with
  | .start => decide (s.shared.handles = n)
  | .joinProducer => s.shared.done
  | .joinConsumer j => decide (j < n ∨ s.shared.tallied = n)
  | .merge _ _ | .reported => true

/-- The producer thread ends with its store to `done`. -/
def lossyBenchmarkStep (p : Plan n) (rate : Nat → Nat → String) (s : LossyState n) : Choice n →
    Option (LossyState n × List (Event n))
  | .main =>
    if s.ready then
      stepMain (p.labelled rate s.shared.missedTotal s.shared.receivedTotal) LossyPc.exited s
    else none
  | .producer ns =>
    match s.producer with
    | .finished =>
      if s.shared.done then none
      else some ({ s with shared := { s.shared with done := true } }, [])
    | _ => stepProducer p s ns
  | .consumer i ns => stepLossy p s i ns

/-- What the threads make of their calls. The handles are made one after the other
before any thread starts, and asked one after the other for what they missed when all
have ended; making an `Item` does not throw. -/
def lossyBenchmarkHears (p : Plan n) (s : LossyState n) :
    Overwrite.Shown n 2 Int → Option (LossyState n)
  | .publish arg =>
    match s.producer with
    | .put _ item => if arg.map ofWords = some item then some s else none
    | _ => none
  | .tryRead i =>
    match s.consumers i with
    | .poll _ _ => some s
    | _ => none
  | .missed i count =>
    match s.main with
    | .joinConsumer j =>
      if j = n ∧ i.val = s.shared.tallied then
        some { s with shared := { s.shared with
          tallied := s.shared.tallied + 1
          missedTotal := (s.shared.missedTotal + count) % 2 ^ 64
          receivedTotal := (s.shared.receivedTotal + (s.consumers i).received) % 2 ^ 64 } }
      else none
    | _ => none
  | .seen (.began _) => some s
  | .seen (.threw _) => none
  | .seen (.published _ _) =>
    match s.producer with
    | .put i _ => some { s with producer := loopHead p (i + 1) }
    | _ => none
  | .seen (.made i _) =>
    match s.main with
    | .start =>
      if i.val = s.shared.handles then
        some { s with shared := { s.shared with handles := s.shared.handles + 1 } }
      else none
    | _ => none
  | .seen (.empty i _) =>
    match s.consumers i with
    | .poll k draining => some (s.atConsumer i (.empty k draining))
    | _ => none
  | .seen (.ok i _ out) =>
    match s.consumers i with
    | .poll k draining => some (s.atConsumer i (.read k draining (ofWords out)))
    | _ => none
  | .seen (.lapped i _ _ _ _) =>
    match s.consumers i with
    | .poll _ _ => some s
    | _ => none

/-- `run_overwrite_benchmark`. Its threads do nothing before `go`. -/
def runOverwriteBenchmark (p : Plan n) (rate : Nat → Nat → String) :
    Client (LossyState n) (Choice n) (Overwrite.Shown n 2 Int) (Event n) where
  init := ⟨false, .start, .waitGo, fun _ => .waitGo, fun _ => .new, ⟨0, false, 0, 0, 0⟩⟩
  own := lossyBenchmarkStep p rate
  hears := lossyBenchmarkHears p

end RunOverwriteBenchmark

end Toolbox.Benchmark
