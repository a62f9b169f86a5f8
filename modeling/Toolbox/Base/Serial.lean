import Toolbox.Base.Machine

namespace Toolbox.Base

variable {σ τ κ ε δ ρ α : Type*}

/-- Complete calls, one after the other, with everything they show. -/
def serial (f : σ → κ → σ × List ε) (s : σ) : List κ → σ × List ε
  | [] => (s, [])
  | c :: cs => ((serial f (f s c).1 cs).1, (f s c).2 ++ (serial f (f s c).1 cs).2)

/-- Every call of the sequence meets `ok` in the state it finds. -/
def Throughout (f : σ → κ → σ × List ε) (ok : σ → κ → Prop) (s : σ) : List κ → Prop
  | [] => True
  | c :: cs => ok s c ∧ Throughout f ok (f s c).1 cs

variable {f : σ → κ → σ × List ε} {g : τ → κ → τ × List δ} {ok : τ → κ → Prop} {s : σ} {x : τ}

theorem serial_append (as bs : List κ) : serial f s (as ++ bs) =
    ((serial f (serial f s as).1 bs).1, (serial f s as).2 ++ (serial f (serial f s as).1 bs).2) := by
  induction as generalizing s with
  | nil => rfl
  | cons a as ih =>
    simp only [List.cons_append, serial, ih, List.append_assoc]

theorem throughout_append (as bs : List κ) : Throughout g ok x (as ++ bs) ↔
    Throughout g ok x as ∧ Throughout g ok (serial g x as).1 bs := by
  induction as generalizing x with
  | nil => simp [Throughout, serial]
  | cons a as ih =>
    simp only [List.cons_append, Throughout, serial, ih, and_assoc]

/-- A condition on calls may use what holds of every state between calls. -/
theorem Throughout.imp {ok' : τ → κ → Prop} {I : τ → Prop} (hI : I x)
    (hcall : ∀ x c, I x → I (g x c).1) (himp : ∀ x c, I x → ok x c → ok' x c) {cs : List κ}
    (h : Throughout g ok x cs) : Throughout g ok' x cs := by
  induction cs generalizing x with
  | nil => trivial
  | cons c cs ih => exact ⟨himp x c hI h.1, ih (hcall x c hI) h.2⟩

/-- Calls that are each a stretch of one machine's steps make up a run of it. -/
theorem steps_of_serial {M : Machine σ α ε} {Q : σ → Prop}
    (hcall : ∀ s c, Q s → M.Steps (fun _ _ => True) s (f s c).2 (f s c).1 ∧ Q (f s c).1)
    (hs : Q s) (cs : List κ) :
    M.Steps (fun _ _ => True) s (serial f s cs).2 (serial f s cs).1 ∧ Q (serial f s cs).1 := by
  induction cs generalizing s with
  | nil => exact ⟨.refl, hs⟩
  | cons c cs ih =>
    obtain ⟨hsteps, hq⟩ := hcall s c hs
    obtain ⟨hrest, hend⟩ := ih hq
    exact ⟨hsteps.trans hrest, hend⟩

/-- Two systems that agree on a call when `ok` holds and answer it differently
when it does not agree on a sequence exactly when `ok` holds throughout. -/
theorem serial_agree_iff {R : σ → τ → Prop} (seen : ε → Option ρ) (seen' : δ → Option ρ)
    (hgood : ∀ s x c, R s x → ok x c → R (f s c).1 (g x c).1 ∧
      (f s c).2.filterMap seen = (g x c).2.filterMap seen')
    (hbad : ∀ s x c, R s x → ¬ ok x c → ∃ a b l m, a ≠ b ∧
      (f s c).2.filterMap seen = a :: l ∧ (g x c).2.filterMap seen' = b :: m)
    (hR : R s x) (cs : List κ) :
    (serial f s cs).2.filterMap seen = (serial g x cs).2.filterMap seen' ↔
      Throughout g ok x cs := by
  induction cs generalizing s x with
  | nil => simp [serial, Throughout]
  | cons c cs ih =>
    simp only [serial, Throughout, List.filterMap_append]
    by_cases hok : ok x c
    · obtain ⟨hnext, hsame⟩ := hgood s x c hR hok
      rw [hsame, List.append_cancel_left_eq, ih hnext]
      exact (and_iff_right hok).symm
    · obtain ⟨a, b, l, m, hne, hf, hg⟩ := hbad s x c hR hok
      rw [hf, hg, List.cons_append, List.cons_append, List.cons_eq_cons]
      exact iff_of_false (fun h => hne h.1) (fun h => hok h.1)

end Toolbox.Base
