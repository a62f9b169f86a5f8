import Mathlib.Algebra.BigOperators.Group.Multiset.Basic
import Toolbox.Base.OrderStat
import Toolbox.LatencyRecorder

namespace Toolbox.Proofs.LatencyReport
open Base Latency OrderStat

variable {ι : Type*} [DecidableEq ι]

/-- What recorders are for: a multiset of samples each, of which order and the
moment of sorting are no part. -/
structure Tally (ι : Type*) where
  samples : ι → Multiset Nat
  headerPrinted : Bool

namespace Tally

/-- The sample of a rank, the last one if the rank is beyond it. -/
def percentile (rank : Nat → Nat) (s : Multiset Nat) : Nat :=
  if s = 0 then 0 else nth s (min (rank s.card) (s.card - 1))

def mean (s : Multiset Nat) : Nat × Nat := if s = 0 then (0, 1) else (s.sum % 2 ^ 64, s.card)

def row (ranks : Ranks) (s : Multiset Nat) : Row where
  min := nth s 0
  mean := mean s
  p50 := percentile ranks.p50 s
  p90 := percentile ranks.p90 s
  p99 := percentile ranks.p99 s
  p999 := percentile ranks.p999 s
  p9999 := percentile ranks.p9999 s
  p99999 := percentile ranks.p99999 s
  max := nth s (s.card - 1)

def init : Tally ι := ⟨fun _ => 0, false⟩

def add (t : Tally ι) (i : ι) (s : Multiset Nat) : Tally ι :=
  { t with samples := Function.update t.samples i (t.samples i + s) }

def printReport (ranks : Ranks) (t : Tally ι) (i : ι) (label : String) : Tally ι × List Answer :=
  if t.samples i = 0 then (t, [.line (.noData label)])
  else ({ t with headerPrinted := true },
    (if t.headerPrinted then [] else [.line .header]) ++
      [.line (.row label (row ranks (t.samples i)))])

def op (ranks : Ranks) (t : Tally ι) : Op ι → Tally ι × List Answer
  | .record i ns => (t.add i {ns}, [])
  | .mergeFrom i j _ => (t.add i (t.samples j), [])
  | .count i => (t, [.value (t.samples i).card])
  | .percentile i rank => (t, [.value (percentile rank (t.samples i))])
  | .minNs i => (t, [.value (nth (t.samples i) 0)])
  | .maxNs i => (t, [.value (nth (t.samples i) ((t.samples i).card - 1))])
  | .meanNs i => (t, [.mean (mean (t.samples i))])
  | .printReport i label => t.printReport ranks i label
  | .resetHeader => ({ t with headerPrinted := false }, [])

def answers (ranks : Ranks) (ops : List (Op ι)) : List Answer :=
  (serial (op ranks) init ops).2

end Tally

section Queries

variable {r : LatencyRecorder}

theorem ensure_sorted_samples (r : LatencyRecorder) :
    (r.ensureSorted.samples : Multiset Nat) = r.samples := by
  unfold LatencyRecorder.ensureSorted
  split
  · rfl
  · exact Multiset.coe_eq_coe.mpr (List.perm_insertionSort _ _)

theorem ensure_sorted_in_order (r : LatencyRecorder) :
    r.ensureSorted.samples.Pairwise (· ≤ ·) := by
  unfold LatencyRecorder.ensureSorted
  split
  · rename_i h
    exact r.inOrder h
  · exact List.pairwise_insertionSort _ _

theorem ensure_sorted_length (r : LatencyRecorder) :
    r.ensureSorted.samples.length = r.samples.length := by
  have h := congrArg Multiset.card (ensure_sorted_samples r)
  rwa [Multiset.coe_card, Multiset.coe_card] at h

/-- Once sorted, a recorder shows its samples by rank. -/
theorem get_sorted (r : LatencyRecorder) (k : Nat) :
    r.ensureSorted.samples.getD k 0 = nth (r.samples : Multiset Nat) k := by
  rw [← ensure_sorted_samples r, nth_of_pairwise (ensure_sorted_in_order r)]
  rfl

theorem percentile_value (rank : Nat → Nat) (r : LatencyRecorder) :
    (r.percentile rank).1 = Tally.percentile rank r.samples := by
  unfold LatencyRecorder.percentile Tally.percentile
  by_cases h : r.samples = []
  · rw [if_pos h, if_pos (by rw [h]; rfl)]
  · have hpos := List.length_pos_iff.mpr h
    rw [if_neg h, if_neg (by rwa [Multiset.coe_eq_zero])]
    simp only [ensure_sorted_length, get_sorted, Multiset.coe_card]
    congr 1
    split <;> omega

theorem percentile_keeps (rank : Nat → Nat) (r : LatencyRecorder) :
    ((r.percentile rank).2.samples : Multiset Nat) = r.samples := by
  unfold LatencyRecorder.percentile
  split
  · rfl
  · exact ensure_sorted_samples r

theorem min_value (r : LatencyRecorder) : r.minNs.1 = nth (r.samples : Multiset Nat) 0 := by
  rw [← get_sorted]
  unfold LatencyRecorder.minNs
  cases r.ensureSorted.samples <;> rfl

theorem max_value (r : LatencyRecorder) :
    r.maxNs.1 = nth (r.samples : Multiset Nat) ((r.samples : Multiset Nat).card - 1) := by
  rw [← get_sorted, Multiset.coe_card, ← ensure_sorted_length]
  unfold LatencyRecorder.maxNs
  rw [List.getLastD_eq_getLast?, List.getLast?_eq_getElem?, List.getD_eq_getElem?_getD]

/-- Reducing after each addition gives the sum reduced once. -/
theorem sum_wraps (xs : List Nat) (a : Nat) :
    xs.foldl (fun sum ns => (sum + ns) % 2 ^ 64) (a % 2 ^ 64) = (a + xs.sum) % 2 ^ 64 := by
  induction xs generalizing a with
  | nil => rfl
  | cons x xs ih =>
    rw [List.foldl_cons, Nat.mod_add_mod, ih (a + x), List.sum_cons, Nat.add_assoc]

theorem mean_value (r : LatencyRecorder) : r.meanNs = Tally.mean r.samples := by
  unfold LatencyRecorder.meanNs Tally.mean
  by_cases h : r.samples = []
  · rw [if_pos h, if_pos (by rw [h]; rfl)]
  · rw [if_neg h, if_neg (by rwa [Multiset.coe_eq_zero]), Multiset.sum_coe, Multiset.coe_card]
    have hsum := sum_wraps r.samples 0
    rw [Nat.zero_mod, Nat.zero_add] at hsum
    rw [hsum]

theorem row_value (ranks : Ranks) (r : LatencyRecorder) :
    r.row ranks = Tally.row ranks r.samples := by
  simp only [LatencyRecorder.row, Tally.row, min_value, max_value, mean_value, percentile_value]

end Queries

/-- The recorders hold the samples of the tally, in whatever order. -/
def Holds (x : Recorders ι) (t : Tally ι) : Prop :=
  (∀ i, ((x.recs i).samples : Multiset Nat) = t.samples i) ∧ x.headerPrinted = t.headerPrinted

section Steps

variable {x : Recorders ι} {t : Tally ι} {ranks : Ranks}

/-- A recorder whose samples have only changed places. -/
theorem Holds.keep (h : Holds x t) {i : ι} {r : LatencyRecorder}
    (hr : (r.samples : Multiset Nat) = (x.recs i).samples) : Holds (x.put i r) t := by
  refine ⟨?_, h.2⟩
  intro j
  by_cases hj : j = i
  · subst hj
    simp only [Recorders.put, Function.update_self]
    rw [hr, h.1]
  · simp only [Recorders.put, Function.update_of_ne hj]
    exact h.1 j

theorem Holds.grow (h : Holds x t) {i : ι} {r : LatencyRecorder} {s : Multiset Nat}
    (hr : (r.samples : Multiset Nat) = (x.recs i).samples + s) :
    Holds (x.put i r) (t.add i s) := by
  refine ⟨?_, h.2⟩
  intro j
  by_cases hj : j = i
  · subst hj
    simp only [Recorders.put, Tally.add, Function.update_self]
    rw [hr, h.1]
  · simp only [Recorders.put, Tally.add, Function.update_of_ne hj]
    exact h.1 j

theorem Holds.print_report (h : Holds x t) (i : ι) (label : String) :
    Holds (x.printReport ranks i label).1 (t.printReport ranks i label).1 ∧
      (x.printReport ranks i label).2 = (t.printReport ranks i label).2 := by
  unfold Recorders.printReport Tally.printReport
  have hempty : (x.recs i).samples = [] ↔ t.samples i = 0 := by
    rw [← h.1 i, Multiset.coe_eq_zero]
  by_cases hi : (x.recs i).samples = []
  · rw [if_pos hi, if_pos (hempty.mp hi)]
    exact ⟨h, rfl⟩
  · rw [if_neg hi, if_neg (fun h0 => hi (hempty.mpr h0))]
    refine ⟨⟨(h.keep (ensure_sorted_samples (x.recs i))).1, rfl⟩, ?_⟩
    simp only [row_value, ensure_sorted_samples, h.1 i, h.2]

/-- Every call keeps the samples as the tally has them and answers from them. -/
theorem Holds.op (h : Holds x t) (ranks : Ranks) (o : Op ι) :
    Holds (Recorders.op ranks x o).1 (Tally.op ranks t o).1 ∧
      (Recorders.op ranks x o).2 = (Tally.op ranks t o).2 := by
  cases o with
  | record i ns => exact ⟨h.grow rfl, rfl⟩
  | mergeFrom i j hne =>
    refine ⟨h.grow ?_, rfl⟩
    rw [← h.1 j]
    rfl
  | count i => exact ⟨h, by simp only [Recorders.op, Tally.op, ← h.1 i, Multiset.coe_card]⟩
  | percentile i rank =>
    refine ⟨h.keep (percentile_keeps rank _), ?_⟩
    simp only [Recorders.op, Tally.op, percentile_value, h.1 i]
  | minNs i =>
    refine ⟨h.keep (ensure_sorted_samples _), ?_⟩
    simp only [Recorders.op, Tally.op, min_value, h.1 i]
  | maxNs i =>
    refine ⟨h.keep (ensure_sorted_samples _), ?_⟩
    simp only [Recorders.op, Tally.op, max_value, h.1 i]
  | meanNs i => exact ⟨h, by simp only [Recorders.op, Tally.op, mean_value, h.1 i]⟩
  | printReport i label => exact h.print_report i label
  | resetHeader => exact ⟨⟨h.1, rfl⟩, rfl⟩

theorem Holds.ops (h : Holds x t) (ops : List (Op ι)) :
    (serial (Recorders.op ranks) x ops).2 = (serial (Tally.op ranks) t ops).2 := by
  induction ops generalizing x t with
  | nil => rfl
  | cons o ops ih =>
    obtain ⟨hnext, hsame⟩ := h.op ranks o
    rw [serial, serial, hsame, ih hnext]

end Steps

/-- When a recorder is sorted, and in what order samples came in and were merged,
shows in no answer. -/
theorem answers_exact (ranks : Ranks) (ops : List (Op ι)) :
    Recorders.answers ranks ops = Tally.answers ranks ops :=
  Holds.ops ⟨fun _ => rfl, rfl⟩ ops

/-- Two recorders filled in opposite ways, one of them asked in between. -/
example : Recorders.answers ⟨fun n => n / 2, id, id, id, id, id⟩
    [.record true 9, .record true 4, .minNs true, .record true 6, .record false 1,
      .mergeFrom false true (by decide), .percentile false (fun n => n / 2), .maxNs false] =
    [.value 4, .value 6, .value 9] := by
  rfl

section Report

variable {r : LatencyRecorder} {ranks : Ranks}

/-- A greater percentile has no lesser rank. -/
structure Ascending (ranks : Ranks) : Prop where
  p50 : ∀ n, ranks.p50 n ≤ ranks.p90 n
  p90 : ∀ n, ranks.p90 n ≤ ranks.p99 n
  p99 : ∀ n, ranks.p99 n ≤ ranks.p999 n
  p999 : ∀ n, ranks.p999 n ≤ ranks.p9999 n
  p9999 : ∀ n, ranks.p9999 n ≤ ranks.p99999 n

theorem percentile_eq {s : Multiset Nat} (hs : s ≠ 0) (rank : Nat → Nat) :
    Tally.percentile rank s = nth s (min (rank s.card) (s.card - 1)) := if_neg hs

theorem percentile_mono {s : Multiset Nat} (hs : s ≠ 0) {low high : Nat → Nat}
    (h : low s.card ≤ high s.card) : Tally.percentile low s ≤ Tally.percentile high s := by
  have hpos := Multiset.card_pos.mpr hs
  rw [percentile_eq hs, percentile_eq hs]
  exact nth_mono (by omega) (by omega)

theorem row_ascends {s : Multiset Nat} (hs : s ≠ 0) (h : Ascending ranks) :
    let row := Tally.row ranks s
    row.min ≤ row.p50 ∧ row.p50 ≤ row.p90 ∧ row.p90 ≤ row.p99 ∧ row.p99 ≤ row.p999 ∧
      row.p999 ≤ row.p9999 ∧ row.p9999 ≤ row.p99999 ∧ row.p99999 ≤ row.max := by
  have hpos := Multiset.card_pos.mpr hs
  refine ⟨?_, percentile_mono hs (h.p50 _), percentile_mono hs (h.p90 _),
    percentile_mono hs (h.p99 _), percentile_mono hs (h.p999 _), percentile_mono hs (h.p9999 _), ?_⟩
  · simp only [Tally.row, percentile_eq hs]
    exact nth_mono (Nat.zero_le _) (by omega)
  · simp only [Tally.row, percentile_eq hs]
    exact nth_mono (by omega) (by omega)

/-- What a report shows of a recorder with samples: each percentile is a sample with
no more than its rank below it and more than its rank up to it, the columns ascend
with their ranks, and the row is a matter of the samples alone. -/
theorem report_exact (ranks : Ranks) (r' : LatencyRecorder) (hr : r.samples ≠ []) :
    (∀ rank : Nat → Nat, ∀ v, (r.percentile rank).1 = v → v ∈ r.samples ∧
      r.samples.countP (· < v) ≤ min (rank r.samples.length) (r.samples.length - 1) ∧
      min (rank r.samples.length) (r.samples.length - 1) < r.samples.countP (· ≤ v)) ∧
    (∀ v ∈ r.samples, r.minNs.1 ≤ v ∧ v ≤ r.maxNs.1) ∧
    (Ascending ranks → let row := r.row ranks
      row.min ≤ row.p50 ∧ row.p50 ≤ row.p90 ∧ row.p90 ≤ row.p99 ∧ row.p99 ≤ row.p999 ∧
        row.p999 ≤ row.p9999 ∧ row.p9999 ≤ row.p99999 ∧ row.p99999 ≤ row.max) ∧
    (r'.samples.Perm r.samples → r'.row ranks = r.row ranks) := by
  have hs : (r.samples : Multiset Nat) ≠ 0 := by rwa [ne_eq, Multiset.coe_eq_zero]
  have hpos := List.length_pos_iff.mpr hr
  refine ⟨?_, ?_, ?_, ?_⟩
  · rintro rank v rfl
    have hlt : min (rank r.samples.length) (r.samples.length - 1) <
        (r.samples : Multiset Nat).card := by
      rw [Multiset.coe_card]
      omega
    rw [percentile_value, percentile_eq hs, Multiset.coe_card]
    exact ⟨nth_mem hlt, nth_spec hlt⟩
  · intro v hv
    rw [min_value, max_value]
    exact ⟨nth_least hv, le_nth_last hv⟩
  · intro h
    rw [row_value]
    exact row_ascends hs h
  · intro hperm
    rw [row_value, row_value, Multiset.coe_eq_coe.mpr hperm]

def threeSamples : LatencyRecorder := ((LatencyRecorder.new.record 9).record 4).record 6

/-- The ranks of a report, with exact fractions. -/
def decimalRanks : Ranks :=
  ⟨fun n => n / 2, fun n => 9 * n / 10, fun n => 99 * n / 100, fun n => 999 * n / 1000,
    fun n => 9999 * n / 10000, fun n => 99999 * n / 100000⟩

theorem decimal_ascending : Ascending decimalRanks := by
  constructor
  all_goals
    intro n
    simp only [decimalRanks]
    omega

/-- The median of three samples is the middle one, and another order shows the same row. -/
theorem report_exact_three :
    (threeSamples.percentile (fun n => n / 2)).1 = 6 ∧
    (6 ∈ threeSamples.samples ∧ threeSamples.samples.countP (· < 6) ≤ min (3 / 2) 2 ∧
      min (3 / 2) 2 < threeSamples.samples.countP (· ≤ 6)) ∧
    (threeSamples.minNs.1 ≤ 6 ∧ 6 ≤ threeSamples.maxNs.1) ∧
    (let row := threeSamples.row decimalRanks;
      row.min ≤ row.p50 ∧ row.p50 ≤ row.p90 ∧ row.p90 ≤ row.p99 ∧ row.p99 ≤ row.p999 ∧
        row.p999 ≤ row.p9999 ∧ row.p9999 ≤ row.p99999 ∧ row.p99999 ≤ row.max) ∧
    (((LatencyRecorder.new.record 6).record 9).record 4).row decimalRanks =
      threeSamples.row decimalRanks := by
  obtain ⟨hpercentile, hbounds, hascends, hsame⟩ := report_exact (r := threeSamples) decimalRanks
    (((LatencyRecorder.new.record 6).record 9).record 4) (List.cons_ne_nil _ _)
  exact ⟨rfl, hpercentile (fun n => n / 2) 6 rfl, hbounds 6 (by decide), hascends decimal_ascending,
    hsame (by decide)⟩

end Report

end Toolbox.Proofs.LatencyReport
