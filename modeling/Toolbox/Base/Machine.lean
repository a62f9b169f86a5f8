import Mathlib.Data.List.Induction
import Mathlib.Logic.Function.Basic

namespace Toolbox.Base

/-- A program given by its atomic steps. The scheduler's choice `a` is either
not enabled in a state or yields the next state and the events it shows. -/
structure Machine (σ α ε : Type*) where
  init : σ
  step : σ → α → Option (σ × List ε)

namespace Machine

variable {σ τ α β ε δ : Type*}

/-- Finite executions from `s` whose every step meets `ok` in the state it is
taken in. The list is the trace shown so far, oldest event first. -/
inductive Steps (M : Machine σ α ε) (ok : σ → α → Prop) (s : σ) : List ε → σ → Prop
  | refl : Steps M ok s [] s
  | step {tr es : List ε} {t u : σ} {a : α} : Steps M ok s tr t → ok t a →
      M.step t a = some (u, es) → Steps M ok s (tr ++ es) u

/-- Every finite interleaving from the initial state. -/
def Run (M : Machine σ α ε) (tr : List ε) (s : σ) : Prop :=
  M.Steps (fun _ _ => True) M.init tr s

/-- The interleavings in which every step taken meets `ok`. -/
def RunWhere (M : Machine σ α ε) (ok : σ → α → Prop) (tr : List ε) (s : σ) : Prop :=
  M.Steps ok M.init tr s

variable {M : Machine σ α ε} {ok : σ → α → Prop} {s t u : σ} {a : α} {tr tr' es : List ε}

theorem Run.init : M.Run [] M.init := .refl

theorem Run.next (h : M.Run tr s) (hs : M.step s a = some (t, es)) : M.Run (tr ++ es) t :=
  .step h trivial hs

theorem Steps.weaken {ok' : σ → α → Prop} (himp : ∀ s a, ok s a → ok' s a)
    (h : M.Steps ok s tr t) : M.Steps ok' s tr t := by
  induction h with
  | refl => exact .refl
  | step _ hok hs ih => exact .step ih (himp _ _ hok) hs

theorem RunWhere.run (h : M.RunWhere ok tr s) : M.Run tr s :=
  Steps.weaken (fun _ _ _ => trivial) h

theorem Steps.trans (h : M.Steps ok s tr t) (h' : M.Steps ok t tr' u) :
    M.Steps ok s (tr ++ tr') u := by
  induction h' with
  | refl => simpa using h
  | step _ hok hs ih => simpa [List.append_assoc] using Steps.step ih hok hs

theorem Steps.single (hok : ok s a) (hs : M.step s a = some (t, es)) : M.Steps ok s es t := by
  simpa using Steps.step .refl hok hs

/-- The invariant rule. What holds at the start and survives each step holds
after every execution; a step may use that its own state is reachable. -/
theorem Steps.invariant {I : List ε → σ → Prop} (h0 : I [] s)
    (hstep : ∀ tr t a u es, M.Steps ok s tr t → I tr t → ok t a →
      M.step t a = some (u, es) → I (tr ++ es) u)
    (h : M.Steps ok s tr t) : I tr t := by
  induction h with
  | refl => exact h0
  | step hr hok hs ih => exact hstep _ _ _ _ _ hr ih hok hs

/-- The invariant rule for unrestricted interleavings. -/
theorem Run.invariant {I : List ε → σ → Prop} (h0 : I [] M.init)
    (hstep : ∀ tr t a u es, M.Run tr t → I tr t → M.step t a = some (u, es) → I (tr ++ es) u)
    (h : M.Run tr s) : I tr s :=
  Steps.invariant h0 (fun tr t a u es hr hi _ hs => hstep tr t a u es hr hi hs) h

/-- What every step of a restricted run meets by itself need not be required. -/
theorem RunWhere.imp {ok' : σ → α → Prop}
    (himp : ∀ tr s a t es, M.RunWhere ok tr s → M.step s a = some (t, es) → ok s a → ok' s a)
    (h : M.RunWhere ok tr s) : M.RunWhere ok' tr s := by
  refine Steps.invariant (I := fun tr s => M.RunWhere ok' tr s) .refl ?_ h
  intro tr s a t es hr h hok hs
  exact .step h (himp _ _ _ _ _ hr hs hok) hs

/-- The machine that remembers what it has shown. -/
def traced (M : Machine σ α ε) : Machine (List ε × σ) α ε where
  init := ([], M.init)
  step x a := (M.step x.2 a).map (fun p => ((x.1 ++ p.2, p.1), p.2))

theorem traced_step {x y : List ε × σ} (h : M.traced.step x a = some (y, es)) :
    y.1 = x.1 ++ es ∧ M.step x.2 a = some (y.2, es) := by
  obtain ⟨p, hp, he⟩ := Option.map_eq_some_iff.mp h
  obtain ⟨rfl, rfl⟩ := Prod.mk.inj he
  exact ⟨rfl, hp⟩

theorem run_of_traced {ok : List ε × σ → α → Prop} {x : List ε × σ}
    (h : M.traced.RunWhere ok tr x) : x.1 = tr ∧ M.Run tr x.2 := by
  unfold RunWhere at h
  induction h with
  | refl => exact ⟨rfl, .init⟩
  | step _ _ hs ih =>
    obtain ⟨hy, hstep⟩ := traced_step hs
    rw [ih.1] at hy
    exact ⟨hy, ih.2.next hstep⟩

/-- The machine that counts the choices which `p` picks out. -/
def counting (M : Machine σ α ε) (p : α → Bool) : Machine (Nat × σ) α ε where
  init := (0, M.init)
  step x a := (M.step x.2 a).map (fun q => ((x.1 + (p a).toNat, q.1), q.2))

theorem counting_step {p : α → Bool} {x y : Nat × σ}
    (h : (M.counting p).step x a = some (y, es)) :
    y.1 = x.1 + (p a).toNat ∧ M.step x.2 a = some (y.2, es) := by
  obtain ⟨q, hq, he⟩ := Option.map_eq_some_iff.mp h
  obtain ⟨rfl, rfl⟩ := Prod.mk.inj he
  exact ⟨rfl, hq⟩

/-- The machine that keeps a note of its own, made anew at every step. -/
def noting (M : Machine σ α ε) (blank : τ) (note : τ → σ → α → τ) : Machine (τ × σ) α ε where
  init := (blank, M.init)
  step x a := (M.step x.2 a).map (fun q => ((note x.1 x.2 a, q.1), q.2))

section Noting

variable {blank : τ} {note : τ → σ → α → τ} {x y : τ × σ}

theorem noting_step (h : (M.noting blank note).step x a = some (y, es)) :
    y.1 = note x.1 x.2 a ∧ M.step x.2 a = some (y.2, es) := by
  obtain ⟨q, hq, he⟩ := Option.map_eq_some_iff.mp h
  obtain ⟨rfl, rfl⟩ := Prod.mk.inj he
  exact ⟨rfl, hq⟩

theorem run_of_noting (h : (M.noting blank note).Run tr x) : M.Run tr x.2 := by
  refine Run.invariant (I := fun tr x => M.Run tr x.2) .init ?_ h
  intro tr x a y es _ hr hs
  exact hr.next (noting_step hs).2

/-- Taking notes keeps no run away. -/
theorem Run.noted (h : M.Run tr s) : ∃ k, (M.noting blank note).Run tr (k, s) := by
  refine Run.invariant (I := fun tr s => ∃ k, (M.noting blank note).Run tr (k, s))
    ⟨blank, .init⟩ ?_ h
  rintro tr s a t es _ ⟨k, hk⟩ hs
  refine ⟨note k s a, hk.next (a := a) ?_⟩
  simp [noting, hs]

end Noting

/-- Follow a given schedule whose steps all meet `ok`; `none` when one of its
choices does not or is not enabled. -/
def execWhere (M : Machine σ α ε) (ok : σ → α → Prop) [∀ s a, Decidable (ok s a)] (s : σ) :
    List α → Option (σ × List ε)
  | [] => some (s, [])
  | a :: as =>
    if ok s a then
      match M.step s a with
      | none => none
      | some (t, es) =>
        match execWhere M ok t as with
        | none => none
        | some (u, fs) => some (u, es ++ fs)
    else none

/-- Follow a given schedule. -/
def exec (M : Machine σ α ε) (s : σ) (as : List α) : Option (σ × List ε) :=
  M.execWhere (fun _ _ => True) s as

theorem steps_of_exec_where [∀ s a, Decidable (ok s a)] (as : List α)
    (h : M.execWhere ok s as = some (t, tr)) : M.Steps ok s tr t := by
  induction as generalizing s tr with
  | nil =>
    simp only [execWhere, Option.some.injEq, Prod.mk.injEq] at h
    obtain ⟨rfl, rfl⟩ := h
    exact .refl
  | cons a as ih =>
    unfold execWhere at h
    by_cases hok : ok s a
    · rw [if_pos hok] at h
      cases hs : M.step s a with
      | none => simp [hs] at h
      | some r =>
        obtain ⟨s₁, es⟩ := r
        cases hr : M.execWhere ok s₁ as with
        | none => simp [hs, hr] at h
        | some q =>
          obtain ⟨s₂, fs⟩ := q
          simp only [hs, hr, Option.some.injEq, Prod.mk.injEq] at h
          obtain ⟨rfl, rfl⟩ := h
          have hone : M.Steps ok s ([] ++ es) s₁ := .step .refl hok hs
          exact hone.trans (ih hr)
    · rw [if_neg hok] at h
      cases h

theorem steps_of_exec (as : List α) (h : M.exec s as = some (t, tr)) :
    M.Steps (fun _ _ => True) s tr t :=
  steps_of_exec_where as h

theorem run_where_of_exec [∀ s a, Decidable (ok s a)] (as : List α)
    (h : M.execWhere ok M.init as = some (s, tr)) : M.RunWhere ok tr s :=
  steps_of_exec_where as h

theorem run_of_exec (as : List α) (h : M.exec M.init as = some (s, tr)) : M.Run tr s :=
  steps_of_exec as h

/-- Forward simulation. If each step of `M` is answered by a schedule of `A`
that shows the same observable events, every run of `M` is a run of `A`. -/
theorem Run.simulate {A : Machine τ β δ} (vis : ε → List δ) {R : List ε → σ → τ → Prop}
    (h0 : R [] M.init A.init)
    (hstep : ∀ tr s x a s' es, M.Run tr s → R tr s x → M.step s a = some (s', es) →
      ∃ bs x', A.exec x bs = some (x', es.flatMap vis) ∧ R (tr ++ es) s' x')
    (h : M.Run tr s) : ∃ x, A.Run (tr.flatMap vis) x ∧ R tr s x := by
  refine Run.invariant (I := fun tr s => ∃ x, A.Run (tr.flatMap vis) x ∧ R tr s x)
    ⟨A.init, .init, h0⟩ ?_ h
  intro tr s a s' es hr ⟨x, hx, hR⟩ hs
  obtain ⟨bs, x', hex, hR'⟩ := hstep tr s x a s' es hr hR hs
  refine ⟨x', ?_, hR'⟩
  rw [List.flatMap_append]
  exact Steps.trans hx (steps_of_exec bs hex)

/-- Every choice of the schedule meets `ok` in the state it is tried in. -/
def Stays (M : Machine σ α ε) (ok : σ → α → Prop) (s : σ) : List α → Prop
  | [] => True
  | a :: as => ok s a ∧ ∀ t es, M.step s a = some (t, es) → Stays M ok t as

theorem stays_of_exec_where [∀ s a, Decidable (ok s a)] (as : List α)
    (h : (M.execWhere ok s as).isSome) : M.Stays ok s as := by
  induction as generalizing s with
  | nil => trivial
  | cons a as ih =>
    unfold execWhere at h
    by_cases hok : ok s a
    · refine ⟨hok, ?_⟩
      intro t es hs
      rw [if_pos hok, hs] at h
      apply ih
      cases hr : M.execWhere ok t as with
      | none => simp [hr] at h
      | some q => rfl
    · rw [if_neg hok] at h
      cases h

theorem exec_cons (M : Machine σ α ε) (s : σ) (a : α) (as : List α) :
    M.exec s (a :: as) = (M.step s a).bind (fun p => (M.exec p.1 as).map
      (fun q => (q.1, p.2 ++ q.2))) := by
  simp only [exec, execWhere, ↓reduceIte]
  cases hs : M.step s a with
  | none => rfl
  | some p =>
    simp only [Option.bind_some]
    cases M.execWhere (fun _ _ => True) p.1 as <;> rfl

theorem exec_nil : M.exec s [] = some (s, []) := rfl

theorem exec_step {as : List α} (hs : M.step s a = some (t, es))
    (h : M.exec t as = some (u, tr)) : M.exec s (a :: as) = some (u, es ++ tr) := by
  rw [exec_cons, hs]
  simp [h]

theorem exec_single (hs : M.step s a = some (t, es)) : M.exec s [a] = some (t, es) := by
  simpa using exec_step hs exec_nil

theorem exec_trans {as bs : List α} (h : M.exec s as = some (t, tr))
    (h' : M.exec t bs = some (u, tr')) : M.exec s (as ++ bs) = some (u, tr ++ tr') := by
  induction as generalizing s tr with
  | nil =>
    obtain ⟨rfl, rfl⟩ := Prod.mk.inj (Option.some.inj h)
    exact h'
  | cons a as ih =>
    rw [exec_cons] at h
    obtain ⟨⟨s₁, es⟩, hs, hrest⟩ := Option.bind_eq_some_iff.mp h
    obtain ⟨⟨t, fs⟩, hexec, hpair⟩ := Option.map_eq_some_iff.mp hrest
    obtain ⟨rfl, rfl⟩ := Prod.mk.inj hpair
    rw [List.append_assoc]
    exact exec_step hs (ih hexec)

/-- The choice `a`, taken over and over, leads from `s` to `t`. -/
def Alone (M : Machine σ α ε) (a : α) (s : σ) (tr : List ε) (t : σ) : Prop :=
  ∃ k, M.exec s (List.replicate k a) = some (t, tr)

theorem Alone.refl : M.Alone a s [] s := ⟨0, rfl⟩

theorem Alone.step (hs : M.step s a = some (t, es)) (h : M.Alone a t tr u) :
    M.Alone a s (es ++ tr) u := by
  obtain ⟨k, hk⟩ := h
  exact ⟨k + 1, exec_step hs hk⟩

/-- A first step that shows nothing. -/
theorem Alone.silent (hs : M.step s a = some (t, [])) (h : M.Alone a t tr u) :
    M.Alone a s tr u :=
  h.step hs

theorem Alone.last (hs : M.step s a = some (t, es)) : M.Alone a s es t := by
  simpa using Alone.step hs .refl

theorem Alone.steps (h : M.Alone a s tr t) (hok : ∀ s, ok s a) : M.Steps ok s tr t := by
  obtain ⟨k, hk⟩ := h
  induction k generalizing s tr with
  | zero =>
    obtain ⟨rfl, rfl⟩ := Prod.mk.inj (Option.some.inj hk)
    exact .refl
  | succ k ih =>
    rw [List.replicate_succ, exec_cons] at hk
    obtain ⟨⟨u, es⟩, hs, hrest⟩ := Option.bind_eq_some_iff.mp hk
    obtain ⟨⟨v, fs⟩, hexec, hpair⟩ := Option.map_eq_some_iff.mp hrest
    obtain ⟨rfl, rfl⟩ := Prod.mk.inj hpair
    exact (Steps.single (hok s) hs).trans (ih hexec)

theorem rel_bind {R : σ → τ → Prop} {S : ε → δ → Prop} {x : Option σ} {y : Option τ}
    {f : σ → Option ε} {g : τ → Option δ} (h : Option.Rel R x y)
    (hfg : ∀ p q, x = some p → R p q → Option.Rel S (f p) (g q)) :
    Option.Rel S (x.bind f) (y.bind g) := by
  cases h with
  | some hpq => exact hfg _ _ rfl hpq
  | none => exact .none

theorem rel_map {R : σ → τ → Prop} {S : ε → δ → Prop} {x : Option σ} {y : Option τ}
    {f : σ → ε} {g : τ → δ} (h : Option.Rel R x y) (hfg : ∀ p q, R p q → S (f p) (g q)) :
    Option.Rel S (x.map f) (y.map g) := by
  cases h with
  | some hpq => exact .some (hfg _ _ hpq)
  | none => exact .none

/-- Lockstep. If wherever `ok` holds the two machines refuse a choice together
or take it together, with the same events up to `f`, they do so along every
schedule that stays within `ok`. -/
theorem exec_lockstep {A : Machine τ α δ} (f : ε → δ) {R : σ → τ → Prop}
    (hstep : ∀ tr s x a, M.Run tr s → R s x → ok s a →
      Option.Rel (fun p q => R p.1 q.1 ∧ q.2 = p.2.map f) (M.step s a) (A.step x a))
    {x : τ} (hr : M.Run tr s) (hR : R s x) (as : List α) (hok : M.Stays ok s as) :
    Option.Rel (fun p q => R p.1 q.1 ∧ q.2 = p.2.map f) (M.exec s as) (A.exec x as) := by
  induction as generalizing tr s x with
  | nil => exact .some ⟨hR, rfl⟩
  | cons a as ih =>
    obtain ⟨hhere, hrest⟩ := hok
    rw [exec_cons, exec_cons]
    refine rel_bind (hstep tr s x a hr hR hhere) ?_
    rintro p q hs ⟨hR', hes⟩
    refine rel_map (ih (hr.next hs) hR' (hrest _ _ hs)) ?_
    rintro u y ⟨hR'', hfs⟩
    refine ⟨hR'', ?_⟩
    rw [List.map_append, hes, hfs]

end Machine

end Toolbox.Base
