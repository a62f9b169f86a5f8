import Mathlib.Algebra.Ring.Nat
import Mathlib.Data.List.Sort
import Toolbox.Base.Serial

namespace Toolbox.Latency
open Base

/-- The samples of one thread. The flag says that nothing has come in since they
were last sorted. -/
structure LatencyRecorder where
  samples : List Nat
  sorted : Bool
  inOrder : sorted = true → samples.Pairwise (· ≤ ·)

namespace LatencyRecorder

def new : LatencyRecorder := ⟨[], false, fun h => absurd h Bool.false_ne_true⟩

def record (r : LatencyRecorder) (ns : Nat) : LatencyRecorder :=
  ⟨r.samples ++ [ns], false, fun h => absurd h Bool.false_ne_true⟩

def mergeFrom (r other : LatencyRecorder) : LatencyRecorder :=
  ⟨r.samples ++ other.samples, false, fun h => absurd h Bool.false_ne_true⟩

def ensureSorted (r : LatencyRecorder) : LatencyRecorder :=
  if r.sorted then r
  else ⟨r.samples.insertionSort (· ≤ ·), true, fun _ => List.pairwise_insertionSort _ _⟩

/-- `rank` is what `p / 100.0 * size`, cast to `size_t`, makes of the size. -/
def percentile (rank : Nat → Nat) (r : LatencyRecorder) : Nat × LatencyRecorder :=
  if r.samples = [] then (0, r)
  else
    let r := r.ensureSorted
    let idx := rank r.samples.length
    (r.samples.getD (if r.samples.length ≤ idx then r.samples.length - 1 else idx) 0, r)

def minNs (r : LatencyRecorder) : Nat × LatencyRecorder :=
  (r.ensureSorted.samples.headD 0, r.ensureSorted)

def maxNs (r : LatencyRecorder) : Nat × LatencyRecorder :=
  (r.ensureSorted.samples.getLastD 0, r.ensureSorted)

/-- The two numbers `mean_ns` divides; the sum is one of 64 bits. -/
def meanNs (r : LatencyRecorder) : Nat × Nat :=
  if r.samples = [] then (0, 1)
  else (r.samples.foldl (fun sum ns => (sum + ns) % 2 ^ 64) 0, r.samples.length)

end LatencyRecorder

/-- The ranks of the percentiles that a report shows. -/
structure Ranks where
  p50 : Nat → Nat
  p90 : Nat → Nat
  p99 : Nat → Nat
  p999 : Nat → Nat
  p9999 : Nat → Nat
  p99999 : Nat → Nat

structure Row where
  min : Nat
  mean : Nat × Nat
  p50 : Nat
  p90 : Nat
  p99 : Nat
  p999 : Nat
  p9999 : Nat
  p99999 : Nat
  max : Nat
  deriving DecidableEq

inductive Line where
  | noData (label : String)
  | header
  | row (label : String) (values : Row)
  deriving DecidableEq

/-- The values that a report shows of a recorder that has samples. -/
def LatencyRecorder.row (ranks : Ranks) (r : LatencyRecorder) : Row where
  min := r.minNs.1
  mean := r.meanNs
  p50 := (r.percentile ranks.p50).1
  p90 := (r.percentile ranks.p90).1
  p99 := (r.percentile ranks.p99).1
  p999 := (r.percentile ranks.p999).1
  p9999 := (r.percentile ranks.p9999).1
  p99999 := (r.percentile ranks.p99999).1
  max := r.maxNs.1

/-- Recorders by name, and `header_printed_`, which they share. -/
structure Recorders (ι : Type*) where
  recs : ι → LatencyRecorder
  headerPrinted : Bool

/-- A call. A recorder is never merged into itself: `insert` must not be given
iterators into the vector it grows. -/
inductive Op (ι : Type*) where
  | record (i : ι) (ns : Nat)
  | mergeFrom (i j : ι) (h : i ≠ j)
  | count (i : ι)
  | percentile (i : ι) (rank : Nat → Nat)
  | minNs (i : ι)
  | maxNs (i : ι)
  | meanNs (i : ι)
  | printReport (i : ι) (label : String)
  | resetHeader

inductive Answer where
  | value (v : Nat)
  | mean (m : Nat × Nat)
  | line (l : Line)
  deriving DecidableEq

variable {ι : Type*} [DecidableEq ι]

namespace Recorders

def init : Recorders ι := ⟨fun _ => .new, false⟩

def put (x : Recorders ι) (i : ι) (r : LatencyRecorder) : Recorders ι :=
  { x with recs := Function.update x.recs i r }

def printReport (ranks : Ranks) (x : Recorders ι) (i : ι) (label : String) :
    Recorders ι × List Answer :=
  if (x.recs i).samples = [] then (x, [.line (.noData label)])
  else
    let r := (x.recs i).ensureSorted
    ({ x.put i r with headerPrinted := true },
      (if x.headerPrinted then [] else [.line .header]) ++ [.line (.row label (r.row ranks))])

def op (ranks : Ranks) (x : Recorders ι) : Op ι → Recorders ι × List Answer
  | .record i ns => (x.put i ((x.recs i).record ns), [])
  | .mergeFrom i j _ => (x.put i ((x.recs i).mergeFrom (x.recs j)), [])
  | .count i => (x, [.value (x.recs i).samples.length])
  | .percentile i rank =>
    let p := (x.recs i).percentile rank
    (x.put i p.2, [.value p.1])
  | .minNs i => (x.put i (x.recs i).minNs.2, [.value (x.recs i).minNs.1])
  | .maxNs i => (x.put i (x.recs i).maxNs.2, [.value (x.recs i).maxNs.1])
  | .meanNs i => (x, [.mean (x.recs i).meanNs])
  | .printReport i label => x.printReport ranks i label
  | .resetHeader => ({ x with headerPrinted := false }, [])

/-- What a sequence of calls on new recorders answers. -/
def answers (ranks : Ranks) (ops : List (Op ι)) : List Answer :=
  (serial (op ranks) init ops).2

end Recorders

end Toolbox.Latency
