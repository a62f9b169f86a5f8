import Mathlib.Algebra.Ring.Int.Defs
import Mathlib.Algebra.Ring.Nat
import Mathlib.Order.Monotone.Basic
import Toolbox.Base.Machine

namespace Toolbox.Tsc
open Base

/-- `delta_cycles * 1'000'000'000ULL / g_tsc_hz`, all in 64 bits. -/
def toNs (tscHz deltaCycles : BitVec 64) : BitVec 64 := deltaCycles * 1000000000 / tscHz

/-- What `calibrate` and `set_epoch` have left behind. -/
structure Clock where
  tscHz : BitVec 64
  epochCycles : BitVec 64
  hz_pos : 0 < tscHz.toNat

namespace Clock

def epochNs (c : Clock) (absoluteCycles : BitVec 64) : BitVec 64 :=
  toNs c.tscHz (absoluteCycles - c.epochCycles)

/-- `produce_ts` on one reading, with its cast to `int64_t`. -/
def produceTs (c : Clock) (cycles : BitVec 64) : Int := (c.epochNs cycles).toInt

end Clock

/-- The successive values of a TSC as it would count without end. -/
structure Readings where
  cycles : Nat → Nat
  mono : Monotone cycles
  unbounded : ∀ b, ∃ n, b < cycles n

/-- What the code sees of the `n`-th reading. -/
def Readings.raw (r : Readings) (n : Nat) : BitVec 64 := BitVec.ofNat 64 (r.cycles n)

/-- A benchmark run with `rate_limit_ns > 0`. -/
structure Pacing where
  rateLimitNs : Int
  total : Nat
  rate_pos : 0 < rateLimitNs
  rate_lt : rateLimitNs < 2 ^ 63

/-- Where the producer thread stands: before it has read the start time, in the
inner loop of item `i`, behind that loop, or done. -/
inductive Pc where
  | start
  | spin (i : Nat) (nextNs : Int) (spins : Nat)
  | advance (i : Nat) (nextNs ts : Int)
  | finished

structure State where
  pc : Pc
  /-- How many readings have been taken. -/
  taken : Nat

structure Item where
  enqueueNs : Int
  payload : Int

/-- `++spins < limit`; a loop without a limit always goes on. -/
def maySpin : Option Nat → Nat → Bool
  | none, _ => true
  | some limit, spins => spins + 1 < limit

/-- The loop over the items from `i` on. -/
def loopHead (p : Pacing) (i : Nat) (nextNs : Int) : Pc :=
  if i < p.total then .spin i nextNs 0 else .finished

def step (limit : Option Nat) (c : Clock) (r : Readings) (p : Pacing) (s : State) (_ : Unit) :
    Option (State × List Item) :=
  match s.pc with
  | .start =>
    let nextNs := c.produceTs (r.raw s.taken)
    some (⟨loopHead p 0 nextNs, s.taken + 1⟩, [])
  | .spin i nextNs spins =>
    let ts := c.produceTs (r.raw s.taken)
    if ts < nextNs ∧ maySpin limit spins = true then
      some (⟨.spin i nextNs (spins + 1), s.taken + 1⟩, [])
    else some (⟨.advance i (if ts < nextNs then ts else nextNs) ts, s.taken + 1⟩, [])
  | .advance i nextNs ts =>
    let nextNs := nextNs + p.rateLimitNs
    -- beyond the range of `int64_t` the addition has no meaning
    if nextNs < 2 ^ 63 then
      some (⟨loopHead p (i + 1) nextNs, s.taken⟩, [⟨ts, (BitVec.ofNat 64 i).toInt⟩])
    else none
  | .finished => none

/-- The producer thread, one reading at a time. -/
def producer (limit : Option Nat) (c : Clock) (r : Readings) (p : Pacing) :
    Machine State Unit Item where
  init := ⟨.start, 0⟩
  step := step limit c r p

def runBenchmark := producer none

def runBroadcastBenchmark := producer (some 1000000)

def runOverwriteBenchmark := producer (some 1000000)

section Fields

variable (c : Clock) (x : BitVec 64)

theorem to_ns_to_nat (tscHz d : BitVec 64) :
    (toNs tscHz d).toNat = d.toNat * 1000000000 % 2 ^ 64 / tscHz.toNat := by
  rw [toNs, BitVec.toNat_udiv, BitVec.toNat_mul]
  rfl

theorem since_epoch (c : Clock) (d : Nat) :
    BitVec.ofNat 64 (c.epochCycles.toNat + d) - c.epochCycles = BitVec.ofNat 64 d := by
  rw [BitVec.ofNat_add, BitVec.ofNat_toNat, BitVec.setWidth_eq, BitVec.add_comm,
    BitVec.add_sub_cancel]

theorem produce_ts_lt : c.produceTs x < 2 ^ 63 := BitVec.toInt_lt

/-- No reading shows more than the largest product divided by the frequency. -/
theorem produce_ts_le : c.produceTs x ≤ ((2 ^ 64 - 1) / c.tscHz.toNat : Nat) := by
  have hle : (c.epochNs x).toNat ≤ (2 ^ 64 - 1) / c.tscHz.toNat := by
    rw [Clock.epochNs, to_ns_to_nat]
    exact Nat.div_le_div_right (Nat.le_sub_one_of_lt (Nat.mod_lt _ (Nat.two_pow_pos 64)))
  have hcast : (c.epochNs x).toInt ≤ ((c.epochNs x).toNat : Int) := by
    rw [BitVec.toInt_eq_toNat_cond]
    split
    · exact Int.le_refl _
    · omega
  exact Int.le_trans hcast (Int.ofNat_le.mpr hle)

end Fields

end Toolbox.Tsc
