import Mathlib.Algebra.BigOperators.Group.Finset.Basic
import Mathlib.Data.Fintype.Card

namespace Toolbox.Base

variable {κ : Type*} [Fintype κ]

/-- How many indices satisfy `p`. -/
def count (p : κ → Bool) : Nat := (Finset.univ.filter (fun i => p i)).card

variable {p q : κ → Bool}

theorem count_congr (h : ∀ i, p i = q i) : count p = count q := by
  rw [funext h]

/-- Changing one index changes the count by that index alone. -/
theorem count_update [DecidableEq κ] (i : κ) (h : ∀ j, j ≠ i → q j = p j) :
    count q + (p i).toNat = count p + (q i).toNat := by
  have hrest : (Finset.univ.filter (fun j => q j)).erase i =
      (Finset.univ.filter (fun j => p j)).erase i := by
    ext j
    simp only [Finset.mem_erase, Finset.mem_filter, Finset.mem_univ, true_and]
    constructor
    · rintro ⟨hj, hq⟩
      exact ⟨hj, h j hj ▸ hq⟩
    · rintro ⟨hj, hp⟩
      exact ⟨hj, (h j hj).symm ▸ hp⟩
  have hsplit : ∀ r : κ → Bool, count r =
      ((Finset.univ.filter (fun j => r j)).erase i).card + (r i).toNat := by
    intro r
    unfold count
    cases hr : r i with
    | false =>
      rw [Finset.erase_eq_of_notMem (by simp [hr])]
      rfl
    | true => exact (Finset.card_erase_add_one (by simp [hr])).symm
  rw [hsplit p, hsplit q, hrest]
  omega

/-- Changing one term of a sum changes it by that term alone. -/
theorem sum_change {M : Type*} [DecidableEq κ] [AddCommMonoid M] {f g : κ → M} (i : κ)
    (h : ∀ j, j ≠ i → g j = f j) : ∑ j, g j + f i = ∑ j, f j + g i := by
  have hrest : ∑ j ∈ Finset.univ.erase i, g j = ∑ j ∈ Finset.univ.erase i, f j :=
    Finset.sum_congr rfl (fun j hj => h j (Finset.ne_of_mem_erase hj))
  rw [← Finset.add_sum_erase _ g (Finset.mem_univ i), hrest,
    ← Finset.add_sum_erase _ f (Finset.mem_univ i)]
  ac_rfl

theorem sum_update {β M : Type*} [DecidableEq κ] [AddCommMonoid M] (f : β → M) (g : κ → β)
    (i : κ) (b : β) :
    ∑ j, f (Function.update g i b j) + f (g i) = ∑ j, f (g j) + f b := by
  have hsum := sum_change (f := fun j => f (g j)) (g := fun j => f (Function.update g i b j)) i
    (fun j hj => by simp only [Function.update_of_ne hj])
  rwa [Function.update_self] at hsum

end Toolbox.Base
