import Mathlib.Algebra.Ring.Nat
import Mathlib.Data.Nat.Log
import Toolbox.Base.Ring

namespace Toolbox
open Base

/-- Width of `std::size_t`. With `some w` a counter is kept modulo `2 ^ w`;
with `none` it counts without bound. -/
abbrev Width := Option Nat

namespace Width

def wrap : Width → Nat → Nat
  | none, n => n
  | some w, n => n % 2 ^ w

@[simp] theorem wrap_none (n : Nat) : wrap none n = n := rfl

/-- Unsigned subtraction. Unbounded counters are only subtracted where the
result is compared with a positive bound, so truncation is the integer answer. -/
def sub : Width → Nat → Nat → Nat
  | none, a, b => a - b
  | some w, a, b => (a + (2 ^ w - b % 2 ^ w)) % 2 ^ w

@[simp] theorem sub_none (a b : Nat) : sub none a b = a - b := rfl

/-- What the half-range test makes of an unsigned difference. -/
inductive Diff where
  | zero
  | negative
  | positive
  deriving DecidableEq

/-- `diff == 0`, `diff > size_t(-1) / 2`, or neither, for `diff = a - b`. -/
def diff : Width → Nat → Nat → Diff
  | none, a, b => if a = b then .zero else if a < b then .negative else .positive
  | some w, a, b =>
    if sub (some w) a b = 0 then .zero
    else if (2 ^ w - 1) / 2 < sub (some w) a b then .negative
    else .positive

theorem diff_zero (a b : Nat) : diff none a b = .zero ↔ a = b := by
  simp only [diff]
  split <;> simp_all
  split <;> simp

theorem diff_negative (a b : Nat) : diff none a b = .negative ↔ a < b := by
  simp only [diff]
  split
  · simp_all
  · split <;> simp_all

theorem diff_positive (a b : Nat) : diff none a b = .positive ↔ b < a := by
  simp only [diff]
  split
  · simp_all
  · split <;> simp <;> omega

theorem wrap_add_left (w a b : Nat) : wrap (some w) (wrap (some w) a + b) = wrap (some w) (a + b) :=
  Nat.mod_add_mod a (2 ^ w) b

/-- Counters less than `2 ^ w` apart keep their identity. -/
theorem wrap_eq_iff {w a b : Nat} (hab : a < b + 2 ^ w) (hba : b < a + 2 ^ w) :
    wrap (some w) a = wrap (some w) b ↔ a = b := by
  constructor
  · intro h
    simp only [wrap] at h
    rcases Nat.le_total a b with hle | hle
    · have hd := Nat.sub_mod_eq_zero_of_mod_eq h.symm
      rw [Nat.mod_eq_of_lt (by omega)] at hd
      omega
    · have hd := Nat.sub_mod_eq_zero_of_mod_eq h
      rw [Nat.mod_eq_of_lt (by omega)] at hd
      omega
  · rintro rfl
    rfl

theorem sub_wrap (w a b : Nat) :
    sub (some w) (wrap (some w) a) (wrap (some w) b) = (a + (2 ^ w - b % 2 ^ w)) % 2 ^ w := by
  simp only [sub, wrap, Nat.mod_mod, Nat.mod_add_mod]

theorem sub_wrap_of_le {w a b : Nat} (hle : b ≤ a) (hlt : a < b + 2 ^ w) :
    sub (some w) (wrap (some w) a) (wrap (some w) b) = a - b := by
  have hb := Nat.mod_add_div b (2 ^ w)
  have hmod := Nat.mod_lt b (Nat.two_pow_pos w)
  have hsum : a + (2 ^ w - b % 2 ^ w) = (a - b) + 2 ^ w * (b / 2 ^ w + 1) := by
    rw [Nat.mul_add, Nat.mul_one]
    omega
  rw [sub_wrap, hsum, Nat.add_mul_mod_self_left, Nat.mod_eq_of_lt (by omega)]

theorem sub_wrap_of_lt {w a b : Nat} (hle : b ≤ a + 2 ^ w) :
    sub (some w) (wrap (some w) a) (wrap (some w) b) = (a + 2 ^ w - b) % 2 ^ w := by
  have hb := Nat.mod_add_div b (2 ^ w)
  have hmod := Nat.mod_lt b (Nat.two_pow_pos w)
  have hsum : a + (2 ^ w - b % 2 ^ w) = (a + 2 ^ w - b) + 2 ^ w * (b / 2 ^ w) := by omega
  rw [sub_wrap, hsum, Nat.add_mul_mod_self_left]

theorem two_pow_pred {w : Nat} (hw : w ≠ 0) : 2 ^ w = 2 * 2 ^ (w - 1) := by
  rw [← Nat.pow_succ', Nat.succ_eq_add_one, Nat.sub_one_add_one hw]

/-- The half-range test decides as the unbounded comparison does, up to a lag of
half the range on either side. -/
theorem diff_wrap {w a b : Nat} (hw : 0 < w) (hlow : b ≤ a + 2 ^ (w - 1))
    (hhigh : a < b + 2 ^ (w - 1)) :
    diff (some w) (wrap (some w) a) (wrap (some w) b) = diff none a b := by
  have hpow := two_pow_pred (Nat.ne_of_gt hw)
  rcases Nat.lt_trichotomy a b with hlt | heq | hgt
  · have hsub := sub_wrap_of_lt (w := w) (a := a) (b := b) (by omega)
    rw [Nat.mod_eq_of_lt (by omega)] at hsub
    rw [(diff_negative a b).mpr hlt]
    simp only [diff, hsub]
    rw [if_neg (by omega), if_pos (by omega)]
  · have hsub := sub_wrap_of_le (w := w) (Nat.le_of_eq heq.symm) (by omega)
    rw [(diff_zero a b).mpr heq]
    simp only [diff, hsub]
    rw [if_pos (by omega)]
  · have hsub := sub_wrap_of_le (w := w) (Nat.le_of_lt hgt) (by omega)
    rw [(diff_positive a b).mpr hgt]
    simp only [diff, hsub]
    rw [if_neg (by omega), if_neg (by omega)]

/-- A ring that divides the range is indexed alike by a counter and its wrap. -/
theorem index_wrap {w : Nat} {cap : Capacity} (h : cap.bits ≤ w) (pos : Nat) :
    cap.index (wrap (some w) pos) = cap.index pos := by
  rw [Capacity.index_eq_mod, Capacity.index_eq_mod, cap.size_eq]
  exact Nat.mod_mod_of_dvd pos (Nat.pow_dvd_pow 2 h)

end Width

/-- `std::bit_ceil`, as the ring that the rounded capacity describes. -/
def bitCeil (n : Nat) (h : 2 ≤ n) : RingCapacity where
  size := 2 ^ Nat.clog 2 n
  bits := Nat.clog 2 n
  size_eq := rfl
  two_le := Nat.le_trans h (Nat.le_pow_clog Nat.one_lt_two n)

/-- The capacity check the three SPMC headers share: the queue named in the
message and the largest admitted power of two are theirs. -/
def roundCapacity (queue : String) (maxBits n : Nat) : Except String RingCapacity :=
  if h : n < 2 then .error (queue ++ ": capacity must be >= 2")
  else if 2 ^ maxBits < n then .error (queue ++ ": capacity exceeds maximum")
  else .ok (bitCeil n (Nat.le_of_not_lt h))

/-- An accepted capacity is rounded up to the least power of two, which the
admitted maximum still bounds. -/
theorem round_capacity_ok {queue : String} {maxBits n : Nat} {cap : RingCapacity}
    (h : roundCapacity queue maxBits n = .ok cap) :
    2 ≤ n ∧ n ≤ cap.size ∧ cap.size < 2 * n ∧ cap.size ≤ 2 ^ maxBits := by
  unfold roundCapacity at h
  split at h
  · cases h
  · split at h
    · cases h
    · rename_i hlow hhigh
      cases h
      have hn : 2 ≤ n := Nat.le_of_not_lt hlow
      refine ⟨hn, Nat.le_pow_clog Nat.one_lt_two n, ?_, ?_⟩
      · have hpred := Nat.pow_pred_clog_lt_self Nat.one_lt_two (by omega : 1 < n)
        have hpos : 0 < Nat.clog 2 n := Nat.clog_pos Nat.one_lt_two hn
        have hpow : 2 ^ Nat.clog 2 n = 2 ^ (Nat.clog 2 n).pred * 2 := by
          rw [← Nat.pow_succ, Nat.succ_pred_eq_of_pos hpos]
        simp only [bitCeil]
        omega
      · exact Nat.pow_le_pow_right (by omega)
          (Nat.clog_le_of_le_pow (Nat.le_of_not_lt hhigh))

theorem round_capacity_bits {queue : String} {maxBits n : Nat} {cap : RingCapacity}
    (h : roundCapacity queue maxBits n = .ok cap) : cap.bits ≤ maxBits := by
  obtain ⟨_, _, _, hle⟩ := round_capacity_ok h
  rw [cap.size_eq] at hle
  exact (Nat.pow_le_pow_iff_right Nat.one_lt_two).mp hle

end Toolbox
