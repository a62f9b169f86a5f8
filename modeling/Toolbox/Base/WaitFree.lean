import Toolbox.Base.Machine

namespace Toolbox.Base.Machine

variable {σ α ε : Type*}

/-- A thread inside a call can always go on, and is out of it after at most `bound` of
its own steps, whatever the others do meanwhile. -/
def EndsWithin (M : Machine σ α ε) (own : α → Bool) (inside : σ → Prop) (bound : Nat) (s : σ) :
    Prop :=
  (∃ a, own a = true ∧ M.step s a ≠ none) ∧
    ∀ as t tr, M.exec s as = some (t, tr) → bound ≤ as.countP own →
      ∃ as₁ as₂ u tr₁, as = as₁ ++ as₂ ∧ M.exec s as₁ = some (u, tr₁) ∧ ¬ inside u ∧
        as₁.countP own ≤ bound

/-- Inside the call, each of the thread's own steps ends it or leaves fewer to make, and
nobody else's makes more. -/
structure WaitFree (M : Machine σ α ε) (own : α → Bool) (inside : σ → Prop) (left : σ → Nat) :
    Prop where
  able : ∀ {s}, inside s → ∃ a, own a = true ∧ M.step s a ≠ none
  left_pos : ∀ {s}, inside s → 0 < left s
  own_step : ∀ {s a t es}, inside s → own a = true → M.step s a = some (t, es) → inside t →
    left t < left s
  other_step : ∀ {s a t es}, inside s → own a = false → M.step s a = some (t, es) →
    inside t ∧ left t ≤ left s

theorem WaitFree.ends {M : Machine σ α ε} {own : α → Bool} {inside : σ → Prop} {left : σ → Nat}
    (h : M.WaitFree own inside left) {s : σ} {bound : Nat} (hs : inside s) (hle : left s ≤ bound) :
    M.EndsWithin own inside bound s := by
  refine ⟨h.able hs, ?_⟩
  intro as
  induction as generalizing s bound with
  | nil =>
    intro t tr _ hcount
    have hpos := h.left_pos hs
    rw [List.countP_nil] at hcount
    omega
  | cons a as ih =>
    intro t tr hexec hcount
    rw [exec_cons] at hexec
    obtain ⟨⟨u, es⟩, hstep, hrest⟩ := Option.bind_eq_some_iff.mp hexec
    obtain ⟨⟨v, fs⟩, hlater, _⟩ := Option.map_eq_some_iff.mp hrest
    have hpos := h.left_pos hs
    rw [List.countP_cons] at hcount
    cases hown : own a with
    | false =>
      obtain ⟨hu, hleft⟩ := h.other_step hs hown hstep
      rw [hown] at hcount
      obtain ⟨as₁, as₂, w, tr₁, rfl, hfirst, hw, hle₁⟩ := ih hu (Nat.le_trans hleft hle) _ _ hlater
        (by simpa using hcount)
      refine ⟨a :: as₁, as₂, w, es ++ tr₁, rfl, exec_step hstep hfirst, hw, ?_⟩
      rw [List.countP_cons, hown]
      simpa using hle₁
    | true =>
      rw [hown] at hcount
      by_cases hu : inside u
      · have hless := h.own_step hs hown hstep hu
        have hleft : left u ≤ bound - 1 := by omega
        obtain ⟨as₁, as₂, w, tr₁, rfl, hfirst, hw, hle₁⟩ := ih hu hleft _ _ hlater
          (by simp only [↓reduceIte] at hcount; omega)
        refine ⟨a :: as₁, as₂, w, es ++ tr₁, rfl, exec_step hstep hfirst, hw, ?_⟩
        rw [List.countP_cons, hown]
        simp only [↓reduceIte]
        omega
      · refine ⟨[a], as, u, es, rfl, exec_single hstep, hu, ?_⟩
        rw [List.countP_singleton, hown]
        simp only [↓reduceIte]
        omega

end Toolbox.Base.Machine
