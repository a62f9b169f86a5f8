import Mathlib.Algebra.Ring.Nat
import Mathlib.Logic.Function.Basic

namespace Toolbox.Base

/-- A ring size that bitmask indexing works for. -/
structure Capacity where
  size : Nat
  bits : Nat
  size_eq : size = 2 ^ bits

namespace Capacity

variable (cap : Capacity) {β : Type*} {p q : Nat}

def mask : Nat := cap.size - 1

/-- The cell of position `pos`: `pos & mask`. -/
def index (pos : Nat) : Nat := pos &&& cap.mask

def get (ring : Nat → β) (pos : Nat) : β := ring (cap.index pos)

def set (ring : Nat → β) (pos : Nat) (b : β) : Nat → β :=
  Function.update ring (cap.index pos) b

theorem size_pos : 0 < cap.size := by
  rw [cap.size_eq]
  exact Nat.two_pow_pos _

theorem index_eq_mod (pos : Nat) : cap.index pos = pos % cap.size := by
  rw [index, mask, cap.size_eq]
  exact Nat.and_two_pow_sub_one_eq_mod pos cap.bits

theorem index_lt (pos : Nat) : cap.index pos < cap.size := by
  rw [index_eq_mod]
  exact Nat.mod_lt _ cap.size_pos

theorem index_of_lt (h : p < cap.size) : cap.index p = p := by
  rw [index_eq_mod, Nat.mod_eq_of_lt h]

@[simp] theorem index_add_size (pos : Nat) : cap.index (pos + cap.size) = cap.index pos := by
  simp [index_eq_mod]

@[simp] theorem index_index (pos : Nat) : cap.index (cap.index pos) = cap.index pos :=
  cap.index_of_lt (cap.index_lt pos)

/-- Positions less than a lap apart share a cell only when they are equal. -/
theorem index_inj (h : cap.index p = cap.index q) (hp : p < q + cap.size)
    (hq : q < p + cap.size) : p = q := by
  rw [index_eq_mod, index_eq_mod] at h
  rcases Nat.le_total p q with hle | hle
  · have hd := Nat.sub_mod_eq_zero_of_mod_eq h.symm
    rw [Nat.mod_eq_of_lt (by omega)] at hd
    omega
  · have hd := Nat.sub_mod_eq_zero_of_mod_eq h
    rw [Nat.mod_eq_of_lt (by omega)] at hd
    omega

theorem index_ne (hne : p ≠ q) (hp : p < q + cap.size) (hq : q < p + cap.size) :
    cap.index p ≠ cap.index q :=
  fun h => hne (cap.index_inj h hp hq)

/-- Every cell is the cell of one position in each lap. -/
theorem exists_in_lap (b q : Nat) : ∃ p, b ≤ p ∧ p < b + cap.size ∧ cap.index p = cap.index q := by
  induction b with
  | zero => exact ⟨cap.index q, Nat.zero_le _, by simpa using cap.index_lt q, cap.index_index q⟩
  | succ b ih =>
    obtain ⟨p, hle, hlt, he⟩ := ih
    by_cases hb : p = b
    · have hpos := cap.size_pos
      exact ⟨p + cap.size, by omega, by omega, (cap.index_add_size p).trans he⟩
    · exact ⟨p, by omega, by omega, he⟩

theorem index_congr_add (h : cap.index p = cap.index q) (n : Nat) :
    cap.index (p + n) = cap.index (q + n) := by
  simp only [index_eq_mod] at h ⊢
  rw [Nat.add_mod, h, ← Nat.add_mod]

@[simp] theorem get_set_self (ring : Nat → β) (pos : Nat) (b : β) :
    cap.get (cap.set ring pos b) pos = b := by
  simp [get, set]

theorem get_set (ring : Nat → β) (p q : Nat) (b : β) :
    cap.get (cap.set ring p b) q = if cap.index q = cap.index p then b else cap.get ring q := by
  simp [get, set, Function.update_apply]

theorem get_set_of_ne (ring : Nat → β) (b : β) (h : cap.index q ≠ cap.index p) :
    cap.get (cap.set ring p b) q = cap.get ring q := by
  rw [get_set, if_neg h]

theorem set_set (ring : Nat → β) (pos : Nat) (a b : β) :
    cap.set (cap.set ring pos a) pos b = cap.set ring pos b :=
  Function.update_idem _ _ _

theorem set_get (ring : Nat → β) (pos : Nat) : cap.set ring pos (cap.get ring pos) = ring :=
  Function.update_eq_self _ _

theorem get_congr (ring : Nat → β) (h : cap.index p = cap.index q) :
    cap.get ring p = cap.get ring q := by
  rw [get, get, h]

end Capacity

/-- A ring with at least two cells, as the capacity rounding delivers it. -/
structure RingCapacity extends Capacity where
  two_le : 2 ≤ size

/-- The smallest such ring. -/
def twoSlots : RingCapacity := ⟨⟨2, 1, rfl⟩, Nat.le_refl 2⟩

end Toolbox.Base
