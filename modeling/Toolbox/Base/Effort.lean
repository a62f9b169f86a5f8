import Mathlib.Algebra.BigOperators.Group.List.Basic
import Mathlib.Algebra.Ring.Nat
import Toolbox.Base.Machine

namespace Toolbox.Base.Machine

variable {σ α ε : Type*}

/-- Every step is paid for: what is saved and what the choice brings covers the
price of the step and what is saved after it. -/
structure Funded (M : Machine σ α ε) (I : σ → Prop) (price brings : α → Nat) (saved : σ → Nat) :
    Prop where
  keeps : ∀ {s a t es}, I s → M.step s a = some (t, es) → I t
  pays : ∀ {s a t es}, I s → M.step s a = some (t, es) → saved t + price a ≤ saved s + brings a

namespace Funded

variable {M : Machine σ α ε} {I : σ → Prop} {price brings : α → Nat} {saved : σ → Nat}
  {s t : σ} {tr : List ε}

/-- A schedule costs no more than what was saved before it and brought in during it. -/
theorem exec (h : M.Funded I price brings saved) (hI : I s) (as : List α)
    (hs : M.exec s as = some (t, tr)) :
    saved t + (as.map price).sum ≤ saved s + (as.map brings).sum := by
  induction as generalizing s tr with
  | nil =>
    obtain ⟨rfl, rfl⟩ := Prod.mk.inj (Option.some.inj hs)
    exact Nat.le_refl _
  | cons a as ih =>
    rw [exec_cons] at hs
    obtain ⟨⟨u, es⟩, hstep, hrest⟩ := Option.bind_eq_some_iff.mp hs
    obtain ⟨⟨v, fs⟩, hexec, hpair⟩ := Option.map_eq_some_iff.mp hrest
    obtain ⟨rfl, rfl⟩ := Prod.mk.inj hpair
    have hhere := h.pays hI hstep
    have hlater := ih (h.keeps hI hstep) hexec
    simp only [List.map_cons, List.sum_cons]
    simp only at hhere hlater
    omega

/-- Where each step has the price 1, so do schedules their length. -/
theorem length (h : M.Funded I (fun _ => 1) brings saved) (hI : I s) (as : List α)
    (hs : M.exec s as = some (t, tr)) : as.length + saved t ≤ saved s + (as.map brings).sum := by
  have hbound := h.exec hI as hs
  rw [List.map_const', List.sum_replicate, Nat.nsmul_eq_mul, Nat.mul_one] at hbound
  omega

/-- Choices that bring in less than they cost come to an end, at a state that has none
of them left. -/
theorem rests (h : M.Funded I price brings saved) (inner : α → Prop)
    (hinner : ∀ a, inner a → brings a < price a) (hI : I s) :
    ∃ as t tr, M.exec s as = some (t, tr) ∧ (∀ a ∈ as, inner a) ∧
      ∀ a, inner a → M.step t a = none := by
  induction hm : saved s using Nat.strongRecOn generalizing s with
  | ind m ih =>
    by_cases hrest : ∀ a, inner a → M.step s a = none
    · exact ⟨[], s, [], rfl, by simp, hrest⟩
    · obtain ⟨a, ha⟩ := not_forall.mp hrest
      obtain ⟨hin, hne⟩ := Classical.not_imp.mp ha
      obtain ⟨⟨u, es⟩, hstep⟩ := Option.ne_none_iff_exists'.mp hne
      have hless : saved u < m := by
        have hpays := h.pays hI hstep
        have hcost := hinner a hin
        omega
      obtain ⟨as, t, tr, hexec, hall, hstop⟩ := ih (saved u) hless (h.keeps hI hstep) rfl
      refine ⟨a :: as, t, es ++ tr, exec_step hstep hexec, ?_, hstop⟩
      intro b hb
      rcases List.mem_cons.mp hb with rfl | hb
      · exact hin
      · exact hall b hb

end Funded

end Toolbox.Base.Machine
