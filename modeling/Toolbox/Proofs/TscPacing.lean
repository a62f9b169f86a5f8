import Mathlib.Order.Interval.Set.Defs
import Toolbox.Tsc

namespace Toolbox.Proofs.TscPacing
open Base Tsc

variable {limit : Option Nat} {c : Clock} {r : Readings} {p : Pacing} {s t : State}
  {items es : List Item} {i m n : Nat}

/-- The `n`-th reading as the producer sees it. -/
def ts (c : Clock) (r : Readings) (n : Nat) : Int := c.produceTs (r.raw n)

/-- The time that item `i` is due. -/
def due (c : Clock) (r : Readings) (p : Pacing) (i : Nat) : Int :=
  ts c r 0 + i * p.rateLimitNs

theorem due_zero : due c r p 0 = ts c r 0 := by
  simp [due]

theorem due_succ : due c r p (i + 1) = due c r p i + p.rateLimitNs := by
  simp only [due, Int.natCast_add, Int.natCast_one, Int.add_mul, Int.one_mul]
  omega

/-- Everything the producer of `run_benchmark` can do next. -/
inductive Pace (c : Clock) (r : Readings) (p : Pacing) (s : State) : State → List Item → Prop
  | start (hpc : s.pc = .start) : Pace c r p s ⟨loopHead p 0 (ts c r s.taken), s.taken + 1⟩ []
  | wait {i nextNs spins} (hpc : s.pc = .spin i nextNs spins) (hlt : ts c r s.taken < nextNs) :
      Pace c r p s ⟨.spin i nextNs (spins + 1), s.taken + 1⟩ []
  | leave {i nextNs spins} (hpc : s.pc = .spin i nextNs spins) (hge : nextNs ≤ ts c r s.taken) :
      Pace c r p s ⟨.advance i nextNs (ts c r s.taken), s.taken + 1⟩ []
  | emplace {i nextNs ts} (hpc : s.pc = .advance i nextNs ts)
      (hlt : nextNs + p.rateLimitNs < 2 ^ 63) :
      Pace c r p s ⟨loopHead p (i + 1) (nextNs + p.rateLimitNs), s.taken⟩
        [⟨ts, (BitVec.ofNat 64 i).toInt⟩]

theorem step_paces {a : Unit} (hs : (runBenchmark c r p).step s a = some (t, es)) :
    Pace c r p s t es := by
  change step none c r p s a = some (t, es) at hs
  cases hpc : s.pc with
  | start =>
    simp only [step, hpc, Option.some.injEq, Prod.mk.injEq] at hs
    obtain ⟨rfl, rfl⟩ := hs
    exact .start hpc
  | spin i nextNs spins =>
    simp only [step, hpc, maySpin, and_true] at hs
    split at hs
    · rename_i hlt
      obtain ⟨rfl, rfl⟩ := Prod.mk.inj (Option.some.inj hs)
      exact .wait hpc hlt
    · rename_i hge
      obtain ⟨rfl, rfl⟩ := Prod.mk.inj (Option.some.inj hs)
      exact .leave hpc (Int.not_lt.mp hge)
  | advance i nextNs ts =>
    simp only [step, hpc] at hs
    split at hs
    · rename_i hlt
      obtain ⟨rfl, rfl⟩ := Prod.mk.inj (Option.some.inj hs)
      exact .emplace hpc hlt
    · cases hs
  | finished => simp [step, hpc] at hs

/-- The inner loop of every item is left after finitely many readings. -/
def Exits (M : Machine State Unit Item) (p : Pacing) : Prop :=
  ∀ i < p.total, ∃ items s nextNs ts, M.Run items s ∧ s.pc = .advance i nextNs ts

/-- Before the `n`-th reading each of the first `i` items has had a reading of its
own, in order, that was not before it was due. -/
def Met (c : Clock) (r : Readings) (p : Pacing) (i n : Nat) : Prop :=
  ∃ k : Nat → Nat, StrictMonoOn k (Set.Iio i) ∧
    ∀ j < i, 0 < k j ∧ k j < n ∧ due c r p j ≤ ts c r (k j)

theorem Met.later (h : Met c r p i n) (hle : n ≤ m) : Met c r p i m := by
  obtain ⟨k, hmono, hk⟩ := h
  refine ⟨k, hmono, ?_⟩
  intro j hj
  obtain ⟨hpos, hlt, hdue⟩ := hk j hj
  exact ⟨hpos, Nat.lt_of_lt_of_le hlt hle, hdue⟩

theorem Met.next (h : Met c r p i n) (hpos : 0 < n) (hdue : due c r p i ≤ ts c r n) :
    Met c r p (i + 1) (n + 1) := by
  obtain ⟨k, hmono, hk⟩ := h
  refine ⟨Function.update k i n, ?_, ?_⟩
  · intro a ha b hb hab
    have hne : a ≠ i := by
      have : b < i + 1 := hb
      omega
    rw [Function.update_of_ne hne]
    rcases Nat.lt_or_eq_of_le (Nat.le_of_lt_succ hb) with hlt | rfl
    · rw [Function.update_of_ne (Nat.ne_of_lt hlt)]
      exact hmono (Nat.lt_trans hab hlt) hlt hab
    · rw [Function.update_self]
      exact (hk a hab).2.1
  · intro j hj
    rcases Nat.lt_or_eq_of_le (Nat.le_of_lt_succ hj) with hlt | rfl
    · rw [Function.update_of_ne (Nat.ne_of_lt hlt)]
      obtain ⟨h1, h2, h3⟩ := hk j hlt
      exact ⟨h1, Nat.lt_succ_of_lt h2, h3⟩
    · rw [Function.update_self]
      exact ⟨hpos, Nat.lt_succ_self n, hdue⟩

/-- Where the producer stands, and what its readings have been so far. -/
def Paced (c : Clock) (r : Readings) (p : Pacing) (s : State) : Pc → Prop
  | .start => s.taken = 0
  | .spin i nextNs _ => nextNs = due c r p i ∧ 0 < s.taken ∧ Met c r p i s.taken
  | .advance i nextNs _ => nextNs = due c r p i ∧ 0 < s.taken ∧ Met c r p (i + 1) s.taken
  | .finished => True

theorem paced_head (hpos : 0 < s.taken) (h : Met c r p i s.taken) :
    Paced c r p s (loopHead p i (due c r p i)) := by
  unfold loopHead
  split
  · exact ⟨rfl, hpos, h⟩
  · trivial

theorem run_paced (hr : (runBenchmark c r p).Run items s) : Paced c r p s s.pc := by
  have hinit : Paced c r p (runBenchmark c r p).init .start := rfl
  refine Machine.Run.invariant (I := fun _ s => Paced c r p s s.pc) hinit ?_ hr
  intro _ s a t es _ h hs
  cases step_paces hs with
  | start hpc =>
    rw [hpc] at h
    have hzero : s.taken = 0 := h
    simp only [hzero]
    rw [← due_zero (p := p)]
    refine paced_head Nat.one_pos ⟨id, ?_, ?_⟩
    · exact fun _ ha => absurd ha (Nat.not_lt_zero _)
    · exact fun _ hj => absurd hj (Nat.not_lt_zero _)
  | wait hpc _ =>
    rw [hpc] at h
    exact ⟨h.1, Nat.succ_pos _, h.2.2.later (Nat.le_succ _)⟩
  | leave hpc hge =>
    rw [hpc] at h
    obtain ⟨rfl, hpos, hmet⟩ := h
    exact ⟨rfl, Nat.succ_pos _, hmet.next hpos hge⟩
  | emplace hpc _ =>
    rw [hpc] at h
    obtain ⟨rfl, hpos, hmet⟩ := h
    simp only [← due_succ]
    exact paced_head hpos hmet

theorem leave_step {nextNs : Int} {spins : Nat} (hpc : s.pc = .spin i nextNs spins)
    (hge : nextNs ≤ ts c r s.taken) : (runBenchmark c r p).step s () =
      some (⟨.advance i nextNs (ts c r s.taken), s.taken + 1⟩, []) := by
  have hnot : ¬ c.produceTs (r.raw s.taken) < nextNs := Int.not_lt.mpr hge
  simp [runBenchmark, producer, step, hpc, hnot, ts]

theorem wait_step {nextNs : Int} {spins : Nat} (hpc : s.pc = .spin i nextNs spins)
    (hlt : ts c r s.taken < nextNs) : (runBenchmark c r p).step s () =
      some (⟨.spin i nextNs (spins + 1), s.taken + 1⟩, []) := by
  have hlt' : c.produceTs (r.raw s.taken) < nextNs := hlt
  simp [runBenchmark, producer, step, hpc, hlt', maySpin]

theorem emplace_step {nextNs now : Int} (hpc : s.pc = .advance i nextNs now)
    (hlt : nextNs + p.rateLimitNs < 2 ^ 63) : (runBenchmark c r p).step s () =
      some (⟨loopHead p (i + 1) (nextNs + p.rateLimitNs), s.taken⟩,
        [⟨now, (BitVec.ofNat 64 i).toInt⟩]) := by
  simp only [runBenchmark, producer, step, hpc, if_pos hlt]

/-- The inner loop is left by the first reading that is not before `nextNs`; the
induction is on how far off one is. -/
theorem spin_exits {nextNs : Int} {spins : Nat} (hpc : s.pc = .spin i nextNs spins) (d : Nat)
    (hdue : nextNs ≤ ts c r (s.taken + d)) :
    ∃ t now, (runBenchmark c r p).Alone () s [] t ∧ t.pc = .advance i nextNs now ∧
      t.taken ≤ s.taken + d + 1 := by
  induction d generalizing s spins with
  | zero => exact ⟨_, _, .last (leave_step hpc hdue), rfl, Nat.le_refl _⟩
  | succ d ih =>
    by_cases hlt : ts c r s.taken < nextNs
    · have hdue' : nextNs ≤ ts c r (s.taken + 1 + d) := by
        rwa [Nat.add_assoc, Nat.add_comm 1 d]
      obtain ⟨t, now, halone, ht, htaken⟩ :=
        ih (s := ⟨.spin i nextNs (spins + 1), s.taken + 1⟩) rfl hdue'
      simp only at htaken
      exact ⟨t, now, .step (wait_step hpc hlt) halone, ht, by omega⟩
    · exact ⟨_, _, .last (leave_step hpc (Int.not_lt.mp hlt)), rfl, by simp⟩

/-- A loop that is entered before a reading that is not too early exits there at
the latest. -/
theorem due_exits (hr : (runBenchmark c r p).Run items s) (hpc : s.pc = .spin i (due c r p i) 0)
    (hle : s.taken ≤ m) (hdue : due c r p i ≤ ts c r m) :
    ∃ items t now, (runBenchmark c r p).Run items t ∧ t.pc = .advance i (due c r p i) now ∧
      t.taken ≤ m + 1 := by
  obtain ⟨d, rfl⟩ := Nat.exists_eq_add_of_le hle
  obtain ⟨t, now, ⟨k, hexec⟩, ht, htaken⟩ := spin_exits hpc d hdue
  exact ⟨_, t, now, hr.trans (Machine.steps_of_exec _ hexec), ht, htaken⟩

/-- If the items can be met in order, the loops, each taking the first reading it
can, are never behind. -/
theorem reaches {k : Nat → Nat} (hmono : StrictMonoOn k (Set.Iio p.total))
    (hk : ∀ i < p.total, 0 < k i ∧ due c r p i ≤ ts c r (k i)) (i : Nat) (hi : i < p.total) :
    ∃ items s now, (runBenchmark c r p).Run items s ∧ s.pc = .advance i (due c r p i) now ∧
      s.taken ≤ k i + 1 := by
  induction i with
  | zero =>
    have hstart : (runBenchmark c r p).step (runBenchmark c r p).init () =
        some (⟨.spin 0 (due c r p 0) 0, 1⟩, []) := by
      simp [runBenchmark, producer, step, loopHead, hi, due_zero, ts]
    obtain ⟨hpos, hdue⟩ := hk 0 hi
    exact due_exits (Machine.Run.init.next hstart) rfl hpos hdue
  | succ i ih =>
    obtain ⟨items, s, now, hr, hpc, htaken⟩ := ih (Nat.lt_of_succ_lt hi)
    obtain ⟨_, hdue⟩ := hk (i + 1) hi
    have hrange : due c r p (i + 1) < 2 ^ 63 := Int.lt_of_le_of_lt hdue (produce_ts_lt c _)
    rw [due_succ] at hrange
    have hs := emplace_step (c := c) (r := r) hpc hrange
    rw [← due_succ, loopHead, if_pos hi] at hs
    have hlt : k i < k (i + 1) := hmono (Nat.lt_of_succ_lt hi) hi (Nat.lt_succ_self i)
    exact due_exits (hr.next hs) rfl (Nat.le_trans htaken hlt) hdue

/-- A run's loops all exit exactly when its readings meet the items in order. -/
theorem exits_iff : Exits (runBenchmark c r p) p ↔
    ∃ k : Nat → Nat, StrictMonoOn k (Set.Iio p.total) ∧
      ∀ i < p.total, 0 < k i ∧ due c r p i ≤ ts c r (k i) := by
  constructor
  · intro hexits
    rcases Nat.eq_zero_or_pos p.total with hzero | hpos
    · refine ⟨id, ?_, ?_⟩
      · exact fun _ _ _ _ hab => hab
      · intro i hi
        omega
    · obtain ⟨items, s, nextNs, now, hr, hpc⟩ := hexits (p.total - 1) (by omega)
      have hpaced := run_paced hr
      rw [hpc] at hpaced
      obtain ⟨_, _, k, hmono, hk⟩ := hpaced
      rw [Nat.sub_add_cancel hpos] at hmono hk
      exact ⟨k, hmono, fun i hi => ⟨(hk i hi).1, (hk i hi).2.2⟩⟩
  · rintro ⟨k, hmono, hk⟩ i hi
    obtain ⟨items, s, now, hr, hpc, _⟩ := reaches hmono hk i hi
    exact ⟨items, s, _, now, hr, hpc⟩

section Range

/-- 512 divides both 10^9 and 2^64, so it divides every product. -/
theorem product_le (d : Nat) : d * 1000000000 % 2 ^ 64 ≤ 2 ^ 64 - 512 := by
  omega

theorem ts_zero (hhz : 2 ^ 64 - 512 < c.tscHz.toNat) (n : Nat) : ts c r n = 0 := by
  have hnat : (c.epochNs (r.raw n)).toNat = 0 := by
    rw [Clock.epochNs, to_ns_to_nat]
    exact Nat.div_eq_of_lt (Nat.lt_of_le_of_lt (product_le _) hhz)
  have hzero : c.epochNs (r.raw n) = 0 := BitVec.eq_of_toNat_eq hnat
  rw [ts, Clock.produceTs, hzero]
  rfl

/-- The number of cycles whose product is `512 * k`; the factor inverts `5 ^ 9`
modulo `2 ^ 55`. -/
def cyclesFor (k : Nat) : Nat := k * 20211507185753197 % 2 ^ 64

theorem cycles_for_product {k : Nat} (hk : k < 2 ^ 55) :
    cyclesFor k * 1000000000 % 2 ^ 64 = 512 * k := by
  unfold cyclesFor
  omega

/-- Unless the frequency is beyond every product, some delta shows a time after
the epoch. -/
theorem exists_positive (tscHz : BitVec 64) (hpos : 0 < tscHz.toNat)
    (hle : tscHz.toNat ≤ 2 ^ 64 - 512) :
    ∃ d < 2 ^ 64, 0 < (toNs tscHz (BitVec.ofNat 64 d)).toInt := by
  let k := (tscHz.toNat + 511) / 512
  have hk : k < 2 ^ 55 := by simp only [k]; omega
  have hd : cyclesFor k < 2 ^ 64 := Nat.mod_lt _ (Nat.two_pow_pos 64)
  refine ⟨cyclesFor k, hd, ?_⟩
  have hnat : (toNs tscHz (BitVec.ofNat 64 (cyclesFor k))).toNat = 512 * k / tscHz.toNat := by
    rw [to_ns_to_nat, BitVec.toNat_ofNat, Nat.mod_eq_of_lt hd, cycles_for_product hk]
  have hlow : 0 < 512 * k / tscHz.toNat := Nat.div_pos (by simp only [k]; omega) hpos
  have hhigh : 512 * k / tscHz.toNat < 513 :=
    Nat.div_lt_of_lt_mul (by simp only [k]; omega)
  rw [BitVec.toInt_eq_toNat_cond, hnat, if_pos (by omega)]
  exact Int.natCast_pos.mpr hlow

/-- A first reading `d` cycles after the epoch, and then one at every wrap. -/
def wrapping (c : Clock) (d : Nat) (hd : d < 2 ^ 64) : Readings where
  cycles n := c.epochCycles.toNat + if n = 0 then d else n * 2 ^ 64
  mono := by
    refine monotone_nat_of_le_succ ?_
    intro n
    rw [if_neg (Nat.succ_ne_zero n)]
    split
    · omega
    · omega
  unbounded b := by
    refine ⟨b + 1, ?_⟩
    rw [if_neg (Nat.succ_ne_zero b)]
    omega

theorem wrapping_first (c : Clock) {d : Nat} (hd : d < 2 ^ 64) :
    ts c (wrapping c d hd) 0 = (toNs c.tscHz (BitVec.ofNat 64 d)).toInt := by
  have hraw : (wrapping c d hd).raw 0 - c.epochCycles = BitVec.ofNat 64 d := since_epoch c d
  rw [ts, Clock.produceTs, Clock.epochNs, hraw]

theorem wrapping_later (c : Clock) {d : Nat} (hd : d < 2 ^ 64) (hn : 0 < n) :
    ts c (wrapping c d hd) n = 0 := by
  have hraw : (wrapping c d hd).raw n - c.epochCycles = 0 := by
    have hcycles : (wrapping c d hd).cycles n = c.epochCycles.toNat + n * 2 ^ 64 := by
      simp only [wrapping, if_neg (Nat.ne_of_gt hn)]
    rw [Readings.raw, hcycles, since_epoch]
    apply BitVec.eq_of_toNat_eq
    simp
  have hnat : (c.epochNs ((wrapping c d hd).raw n)).toNat = 0 := by
    rw [Clock.epochNs, to_ns_to_nat, hraw]
    simp
  have hzero : c.epochNs ((wrapping c d hd).raw n) = 0 := BitVec.eq_of_toNat_eq hnat
  rw [ts, Clock.produceTs, hzero]
  rfl

end Range

/-- Every sequence of readings is good enough only for no items at all, or for one
and a frequency beyond every product. -/
theorem always_exits_iff (c : Clock) (p : Pacing) :
    (∀ r, Exits (runBenchmark c r p) p) ↔
      p.total = 0 ∨ p.total = 1 ∧ 2 ^ 64 - 512 < c.tscHz.toNat := by
  constructor
  · intro hall
    rcases Nat.eq_zero_or_pos p.total with hzero | hpos
    · exact .inl hzero
    refine .inr ?_
    have hhz : 2 ^ 64 - 512 < c.tscHz.toNat := by
      by_contra hle
      obtain ⟨d, hd, hfirst⟩ := exists_positive c.tscHz c.hz_pos (Nat.le_of_not_lt hle)
      obtain ⟨k, _, hk⟩ := exits_iff.mp (hall (wrapping c d hd))
      obtain ⟨hlater, hdue⟩ := hk 0 hpos
      rw [due_zero, wrapping_first, wrapping_later c hd hlater] at hdue
      omega
    refine ⟨?_, hhz⟩
    by_contra hne
    obtain ⟨k, _, hk⟩ := exits_iff.mp (hall (wrapping c 0 (Nat.two_pow_pos 64)))
    obtain ⟨_, hdue⟩ := hk 1 (by omega)
    have hrate := p.rate_pos
    rw [due, ts_zero hhz, ts_zero hhz] at hdue
    omega
  · intro hcond r
    rcases hcond with hzero | ⟨hone, hhz⟩
    · intro i hi
      omega
    · refine exits_iff.mpr ⟨fun _ => 1, ?_, ?_⟩
      · intro a ha b hb hab
        have ha' : a < p.total := ha
        have hb' : b < p.total := hb
        omega
      · intro i hi
        obtain rfl : i = 0 := by omega
        refine ⟨Nat.one_pos, ?_⟩
        rw [due_zero, ts_zero hhz, ts_zero hhz]

/-- A run that ends has its last item due within the range of `to_ns`. -/
theorem last_due (hexits : Exits (runBenchmark c r p) p) (hpos : 0 < p.total) :
    due c r p (p.total - 1) ≤ ((2 ^ 64 - 1) / c.tscHz.toNat : Nat) := by
  obtain ⟨k, _, hk⟩ := exits_iff.mp hexits
  exact Int.le_trans (hk (p.total - 1) (by omega)).2 (produce_ts_le c _)

/-- When the pacing loops of `run_benchmark` all exit: on one sequence of readings,
how late the last item may be due for that, and on every sequence. -/
theorem pacing_exact (c : Clock) (p : Pacing) :
    (∀ r, Exits (runBenchmark c r p) p ↔
      ∃ k : Nat → Nat, StrictMonoOn k (Set.Iio p.total) ∧
        ∀ i < p.total, 0 < k i ∧ due c r p i ≤ ts c r (k i)) ∧
    (∀ r, Exits (runBenchmark c r p) p → 0 < p.total →
      due c r p (p.total - 1) ≤ ((2 ^ 64 - 1) / c.tscHz.toNat : Nat)) ∧
    ((∀ r, Exits (runBenchmark c r p) p) ↔
      p.total = 0 ∨ p.total = 1 ∧ 2 ^ 64 - 512 < c.tscHz.toNat) :=
  ⟨fun _ => exits_iff, fun _ => last_due, always_exits_iff c p⟩

def threeGHz : Clock := ⟨3000000000, 0, by decide⟩

/-- A reading every cycle, from shortly before the first wrap of the product. -/
def everyCycle : Readings where
  cycles n := 18446744072 + n
  mono _ _ h := Nat.add_le_add_left h _
  unbounded b := ⟨b, by omega⟩

/-- Two items, 500 ns apart. -/
def twoItems : Pacing := ⟨500, 2, by decide, by decide⟩

/-- The second item is due after the last time that the clock ever shows. -/
theorem second_item_never : ¬ Exits (runBenchmark threeGHz everyCycle twoItems) twoItems := by
  intro hexits
  have hdue := last_due hexits (by decide)
  have hfirst : ts threeGHz everyCycle 0 = 6148914690 := by decide
  have hrange : ((2 ^ 64 - 1) / threeGHz.tscHz.toNat : Nat) = 6148914691 := by decide
  rw [due, hfirst, hrange] at hdue
  revert hdue
  decide

/-- The bounded wait of the other two benchmarks ends whatever the readings are;
the induction is on the spins left. -/
theorem bounded_exits {limit : Nat} {nextNs : Int} {spins : Nat}
    (hpc : s.pc = .spin i nextNs spins) :
    ∃ t nextNs' now, (producer (some limit) c r p).Alone () s [] t ∧
      t.pc = .advance i nextNs' now ∧ t.taken ≤ s.taken + (limit - spins - 1) + 1 := by
  induction hleft : limit - spins - 1 generalizing s spins with
  | zero =>
    have hnot : ¬ spins + 1 < limit := by omega
    let now := c.produceTs (r.raw s.taken)
    have hleave : (producer (some limit) c r p).step s () = some (⟨.advance i
        (if now < nextNs then now else nextNs) now, s.taken + 1⟩, []) := by
      simp [producer, step, hpc, maySpin, hnot, now]
    exact ⟨_, _, _, .last hleave, rfl, by simp⟩
  | succ left ih =>
    have hmay : spins + 1 < limit := by omega
    by_cases hlt : ts c r s.taken < nextNs
    · have hlt' : c.produceTs (r.raw s.taken) < nextNs := hlt
      have hwait : (producer (some limit) c r p).step s () =
          some (⟨.spin i nextNs (spins + 1), s.taken + 1⟩, []) := by
        simp [producer, step, hpc, maySpin, hmay, hlt']
      obtain ⟨t, next, now, halone, ht, htaken⟩ :=
        ih (s := ⟨.spin i nextNs (spins + 1), s.taken + 1⟩) rfl (by omega)
      simp only at htaken
      exact ⟨t, next, now, .step hwait halone, ht, by omega⟩
    · have hlt' : ¬ c.produceTs (r.raw s.taken) < nextNs := hlt
      have hleave : (producer (some limit) c r p).step s () =
          some (⟨.advance i nextNs (ts c r s.taken), s.taken + 1⟩, []) := by
        simp [producer, step, hpc, hlt', ts]
      exact ⟨_, _, _, .last hleave, rfl, by simp⟩

end Toolbox.Proofs.TscPacing
