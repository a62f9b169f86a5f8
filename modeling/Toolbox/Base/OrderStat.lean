import Mathlib.Data.List.Pairwise
import Mathlib.Data.List.Sort
import Mathlib.Data.Multiset.Count
import Mathlib.Data.Multiset.Sort

namespace Toolbox.Base.OrderStat

variable {α : Type*} [LinearOrder α] {s : Multiset α} {xs : List α} {j k : Nat}

/-- A list in order is the sorted list of its members. -/
theorem sort_of_pairwise (h : xs.Pairwise (· ≤ ·)) : (xs : Multiset α).sort (· ≤ ·) = xs := by
  rw [Multiset.coe_sort]
  exact List.mergeSort_eq_self _ h

/-- In a list in order at most `k` entries are less than the `k`-th, and more than
`k` are no greater. -/
theorem countP_of_pairwise (h : xs.Pairwise (· ≤ ·)) (hk : k < xs.length) :
    xs.countP (· < xs[k]) ≤ k ∧ k < xs.countP (· ≤ xs[k]) := by
  constructor
  · have hdrop : (xs.drop k).countP (· < xs[k]) = 0 := by
      apply List.countP_eq_zero.mpr
      intro a ha
      obtain ⟨i, hi, rfl⟩ := List.mem_iff_getElem.mp ha
      rw [List.getElem_drop]
      have hle := h.rel_get_of_le (a := ⟨k, hk⟩)
        (b := ⟨k + i, by rw [List.length_drop] at hi; omega⟩) (Nat.le_add_right k i)
      simpa using hle
    calc xs.countP (· < xs[k])
        = (xs.take k).countP (· < xs[k]) + (xs.drop k).countP (· < xs[k]) := by
          rw [← List.countP_append, List.take_append_drop]
      _ = (xs.take k).countP (· < xs[k]) := by rw [hdrop, Nat.add_zero]
      _ ≤ (xs.take k).length := List.countP_le_length
      _ ≤ k := List.length_take_le k xs
  · have htake : (xs.take (k + 1)).countP (· ≤ xs[k]) = (xs.take (k + 1)).length := by
      apply List.countP_eq_length.mpr
      intro a ha
      obtain ⟨i, hi, rfl⟩ := List.mem_iff_getElem.mp ha
      rw [List.getElem_take]
      rw [List.length_take] at hi
      have hle := h.rel_get_of_le (a := ⟨i, by omega⟩) (b := ⟨k, hk⟩)
        (show i ≤ k by omega)
      simpa using hle
    have hsub := (List.take_sublist (k + 1) xs).countP_le (p := fun x => decide (x ≤ xs[k]))
    rw [htake, List.length_take] at hsub
    omega

variable [Inhabited α]

/-- The `k`-th least member of a multiset, counted from 0. -/
def nth (s : Multiset α) (k : Nat) : α := (s.sort (· ≤ ·)).getD k default

theorem nth_of_pairwise (h : xs.Pairwise (· ≤ ·)) (k : Nat) :
    nth (xs : Multiset α) k = xs.getD k default := by
  rw [nth, sort_of_pairwise h]

theorem nth_eq_getElem (hk : k < (s.sort (· ≤ ·)).length) :
    nth s k = (s.sort (· ≤ ·))[k] := by
  rw [nth, List.getD_eq_getElem?_getD, List.getElem?_eq_getElem hk, Option.getD_some]

theorem nth_mem (hk : k < s.card) : nth s k ∈ s := by
  have hlen : k < (s.sort (· ≤ ·)).length := by rwa [Multiset.length_sort]
  rw [nth_eq_getElem hlen, ← Multiset.mem_sort (r := (· ≤ ·))]
  exact List.getElem_mem hlen

theorem nth_mono (hjk : j ≤ k) (hk : k < s.card) : nth s j ≤ nth s k := by
  have hlen : k < (s.sort (· ≤ ·)).length := by rwa [Multiset.length_sort]
  rw [nth_eq_getElem (Nat.lt_of_le_of_lt hjk hlen), nth_eq_getElem hlen]
  exact (s.pairwise_sort (· ≤ ·)).rel_get_of_le (a := ⟨j, Nat.lt_of_le_of_lt hjk hlen⟩)
    (b := ⟨k, hlen⟩) hjk

theorem mem_eq_nth {a : α} (ha : a ∈ s) : ∃ k, k < s.card ∧ nth s k = a := by
  rw [← Multiset.mem_sort (r := (· ≤ ·))] at ha
  obtain ⟨k, hk, rfl⟩ := List.mem_iff_getElem.mp ha
  exact ⟨k, by rwa [Multiset.length_sort] at hk, nth_eq_getElem hk⟩

theorem nth_least {a : α} (ha : a ∈ s) : nth s 0 ≤ a := by
  obtain ⟨k, hk, rfl⟩ := mem_eq_nth ha
  exact nth_mono (Nat.zero_le k) hk

theorem le_nth_last {a : α} (ha : a ∈ s) : a ≤ nth s (s.card - 1) := by
  obtain ⟨k, hk, rfl⟩ := mem_eq_nth ha
  exact nth_mono (Nat.le_sub_one_of_lt hk) (Nat.sub_one_lt_of_lt hk)

/-- At most `k` members are less than the `k`-th least, and more than `k` are no
greater. -/
theorem nth_spec (hk : k < s.card) :
    s.countP (· < nth s k) ≤ k ∧ k < s.countP (· ≤ nth s k) := by
  have hlen : k < (s.sort (· ≤ ·)).length := by rwa [Multiset.length_sort]
  have h := countP_of_pairwise (s.pairwise_sort (· ≤ ·)) hlen
  rw [← nth_eq_getElem hlen, ← Multiset.coe_countP, ← Multiset.coe_countP, Multiset.sort_eq] at h
  exact h

end Toolbox.Base.OrderStat
