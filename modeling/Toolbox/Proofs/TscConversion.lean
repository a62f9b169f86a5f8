import Mathlib.Algebra.Ring.Nat
import Toolbox.Tsc

namespace Toolbox.Proofs.TscConversion
open Tsc

variable {tscHz d d₀ d₁ t₀ t₁ : BitVec 64} {c : Clock}

/-- `to_ns` gives the number of nanoseconds, rounded down. -/
def Exact (tscHz d : BitVec 64) : Prop :=
  (toNs tscHz d).toNat = d.toNat * 1000000000 / tscHz.toNat

/-- Two readings are converted exactly and in order, and the difference of their
times is that of the cycles between them up to one nanosecond. -/
structure Faithful (c : Clock) (t₀ t₁ : BitVec 64) : Prop where
  first : Exact c.tscHz (t₀ - c.epochCycles)
  second : Exact c.tscHz (t₁ - c.epochCycles)
  delta : Exact c.tscHz (t₁ - t₀)
  mono : (c.epochNs t₀).toNat ≤ (c.epochNs t₁).toNat
  difference_le : (c.epochNs t₁ - c.epochNs t₀).toNat ≤ (toNs c.tscHz (t₁ - t₀)).toNat + 1
  le_difference : (toNs c.tscHz (t₁ - t₀)).toNat ≤ (c.epochNs t₁ - c.epochNs t₀).toNat + 1

/-- The conversion is exact as long as the product fits; a product that does not
loses at least one whole nanosecond. -/
theorem exact_iff (hpos : 0 < tscHz.toNat) :
    Exact tscHz d ↔ d.toNat * 1000000000 < 2 ^ 64 := by
  have hhz : tscHz.toNat < 2 ^ 64 := tscHz.isLt
  rw [Exact, to_ns_to_nat]
  constructor
  · intro hexact
    by_contra hge
    have hless : d.toNat * 1000000000 % 2 ^ 64 + tscHz.toNat ≤ d.toNat * 1000000000 := by
      have hsplit := Nat.div_add_mod (d.toNat * 1000000000) (2 ^ 64)
      have hquot : 0 < d.toNat * 1000000000 / 2 ^ 64 :=
        Nat.div_pos (Nat.le_of_not_lt hge) (Nat.two_pow_pos 64)
      have hwhole := Nat.le_mul_of_pos_right (2 ^ 64) hquot
      omega
    have hdiv := Nat.div_le_div_right (c := tscHz.toNat) hless
    rw [Nat.add_div_right _ hpos, hexact] at hdiv
    exact absurd hdiv (Nat.not_succ_le_self _)
  · intro hlt
    rw [Nat.mod_eq_of_lt hlt]

theorem exact_mono (h₀ : Exact tscHz d₀) (h₁ : Exact tscHz d₁) (hle : d₀.toNat ≤ d₁.toNat) :
    (toNs tscHz d₀).toNat ≤ (toNs tscHz d₁).toNat := by
  rw [h₀, h₁]
  exact Nat.div_le_div_right (Nat.mul_le_mul_right _ hle)

/-- Rounding two numbers down and then adding loses at most one against adding
first. -/
theorem floor_add (a b : Nat) {h : Nat} (hpos : 0 < h) :
    a / h + b / h ≤ (a + b) / h ∧ (a + b) / h ≤ a / h + b / h + 1 := by
  rw [Nat.add_div hpos]
  split
  · exact ⟨Nat.le_succ _, Nat.le_refl _⟩
  · exact ⟨Nat.le_refl _, Nat.le_succ _⟩

/-- Two readings are faithful exactly when the later product since the epoch fits. -/
theorem faithful_iff (h₀ : c.epochCycles.toNat ≤ t₀.toNat) (h₁ : t₀.toNat ≤ t₁.toNat) :
    Faithful c t₀ t₁ ↔ (t₁.toNat - c.epochCycles.toNat) * 1000000000 < 2 ^ 64 := by
  have hd₀ : (t₀ - c.epochCycles).toNat = t₀.toNat - c.epochCycles.toNat :=
    BitVec.toNat_sub_of_le h₀
  have hd₁ : (t₁ - c.epochCycles).toNat = t₁.toNat - c.epochCycles.toNat :=
    BitVec.toNat_sub_of_le (Nat.le_trans h₀ h₁)
  have hd : (t₁ - t₀).toNat = t₁.toNat - t₀.toNat := BitVec.toNat_sub_of_le h₁
  constructor
  · intro h
    rw [← hd₁]
    exact (exact_iff c.hz_pos).mp h.second
  · intro hlt
    have hfirst : Exact c.tscHz (t₀ - c.epochCycles) := by
      rw [exact_iff c.hz_pos, hd₀]
      exact Nat.lt_of_le_of_lt (Nat.mul_le_mul_right _ (Nat.sub_le_sub_right h₁ _)) hlt
    have hsecond : Exact c.tscHz (t₁ - c.epochCycles) := by
      rwa [exact_iff c.hz_pos, hd₁]
    have hdelta : Exact c.tscHz (t₁ - t₀) := by
      rw [exact_iff c.hz_pos, hd]
      exact Nat.lt_of_le_of_lt (Nat.mul_le_mul_right _ (Nat.sub_le_sub_left h₀ _)) hlt
    have hmono : (c.epochNs t₀).toNat ≤ (c.epochNs t₁).toNat := by
      refine exact_mono hfirst hsecond ?_
      omega
    have hdiff : (c.epochNs t₁ - c.epochNs t₀).toNat =
        (c.epochNs t₁).toNat - (c.epochNs t₀).toNat := BitVec.toNat_sub_of_le hmono
    have hsum : (t₁ - c.epochCycles).toNat * 1000000000 =
        (t₀ - c.epochCycles).toNat * 1000000000 + (t₁ - t₀).toNat * 1000000000 := by
      omega
    have hfloor := floor_add ((t₀ - c.epochCycles).toNat * 1000000000)
      ((t₁ - t₀).toNat * 1000000000) c.hz_pos
    rw [← hsum, ← hfirst, ← hsecond, ← hdelta] at hfloor
    refine ⟨hfirst, hsecond, hdelta, hmono, ?_, ?_⟩
    · rw [hdiff]
      simp only [Clock.epochNs]
      omega
    · rw [hdiff]
      simp only [Clock.epochNs]
      omega

/-- When `to_ns` and `epoch_ns` are exact and monotone: for one delta, for two of
them, and for two readings since the epoch. -/
theorem conversion_exact (c : Clock) :
    (∀ d : BitVec 64, Exact c.tscHz d ↔ d.toNat * 1000000000 < 2 ^ 64) ∧
    (∀ d₀ d₁ : BitVec 64, d₀.toNat ≤ d₁.toNat →
      ((Exact c.tscHz d₀ ∧ Exact c.tscHz d₁ ∧
        (toNs c.tscHz d₀).toNat ≤ (toNs c.tscHz d₁).toNat) ↔
        d₁.toNat * 1000000000 < 2 ^ 64)) ∧
    (∀ t₀ t₁ : BitVec 64, c.epochCycles.toNat ≤ t₀.toNat → t₀.toNat ≤ t₁.toNat →
      (Faithful c t₀ t₁ ↔ (t₁.toNat - c.epochCycles.toNat) * 1000000000 < 2 ^ 64)) := by
  refine ⟨fun _ => exact_iff c.hz_pos, ?_, fun _ _ => faithful_iff⟩
  intro d₀ d₁ hle
  constructor
  · intro h
    exact (exact_iff c.hz_pos).mp h.2.1
  · intro hlt
    have h₀ : Exact c.tscHz d₀ :=
      (exact_iff c.hz_pos).mpr (Nat.lt_of_le_of_lt (Nat.mul_le_mul_right _ hle) hlt)
    have h₁ : Exact c.tscHz d₁ := (exact_iff c.hz_pos).mpr hlt
    exact ⟨h₀, h₁, exact_mono h₀ h₁ hle⟩

/-- At 3 GHz the product has wrapped after little more than six seconds: two deltas
far below 18 s, one cycle apart, are converted in the wrong order. -/
theorem six_seconds_wrap :
    ∃ (c : Clock) (d₀ d₁ : BitVec 64), c.tscHz.toNat ≤ 3000000000 ∧ d₁.toNat < 54000000000 ∧
      d₀.toNat ≤ d₁.toNat ∧ ¬ Exact c.tscHz d₁ ∧
      ¬ (toNs c.tscHz d₀).toNat ≤ (toNs c.tscHz d₁).toNat ∧
      ¬ (c.epochNs (c.epochCycles + d₀)).toNat ≤ (c.epochNs (c.epochCycles + d₁)).toNat := by
  refine ⟨⟨3000000000, 0, by decide⟩, 18446744073, 18446744074, ?_⟩
  simp only [Exact, to_ns_to_nat, Clock.epochNs]
  decide

end Toolbox.Proofs.TscConversion
