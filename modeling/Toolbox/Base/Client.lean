import Mathlib.Data.List.Basic
import Toolbox.Base.Machine

namespace Toolbox.Base

variable {σ τ κ α β γ ε δ ρ : Type*}

/-- The machine that shows of a step what `lab` makes of the choice and its
events. -/
def Machine.relabel (M : Machine σ α ε) (lab : α → List ε → List δ) : Machine σ α δ where
  init := M.init
  step s a := (M.step s a).map (fun p => (p.1, lab a p.2))

theorem Machine.relabel_step {M : Machine σ α ε} {lab : α → List ε → List δ} {s s' : σ} {a : α}
    {ds : List δ} (h : (M.relabel lab).step s a = some (s', ds)) :
    ∃ es, M.step s a = some (s', es) ∧ ds = lab a es := by
  obtain ⟨p, hp, he⟩ := Option.map_eq_some_iff.mp h
  obtain ⟨rfl, rfl⟩ := Prod.mk.inj he
  exact ⟨p.2, hp, rfl⟩

theorem Machine.run_of_relabel {M : Machine σ α ε} {lab : α → List ε → List δ} {ds : List δ} {s : σ}
    (h : (M.relabel lab).Run ds s) : ∃ tr, M.Run tr s := by
  have hstart : ∃ tr, M.Run tr (M.relabel lab).init := ⟨[], .init⟩
  refine Machine.Run.invariant (I := fun _ s => ∃ tr, M.Run tr s) hstart ?_ h
  rintro ds s a t fs _ ⟨tr, hr⟩ hs
  obtain ⟨es, hstep, _⟩ := relabel_step hs
  exact ⟨_, hr.next hstep⟩

/-- `R` relates the states of `M` to those of `A` such that `A` answers every
step of `M` with steps that show the same. -/
structure Simulation (M : Machine σ α δ) (A : Machine τ γ δ) (R : σ → τ → Prop) : Prop where
  init : R M.init A.init
  step : ∀ {s x a s' ds}, R s x → M.step s a = some (s', ds) →
    ∃ bs x', A.exec x bs = some (x', ds) ∧ R s' x'

theorem Simulation.run {M : Machine σ α δ} {A : Machine τ γ δ} {R : σ → τ → Prop}
    (h : Simulation M A R) {tr : List δ} {s : σ} (hr : M.Run tr s) :
    ∃ x, A.Run tr x ∧ R s x := by
  refine Machine.Run.invariant (I := fun tr s => ∃ x, A.Run tr x ∧ R s x)
    ⟨_, .init, h.init⟩ ?_ hr
  intro tr s a s' ds _ ⟨x, hx, hR⟩ hs
  obtain ⟨bs, x', hexec, hR'⟩ := h.step hR hs
  exact ⟨x', hx.trans (Machine.steps_of_exec bs hexec), hR'⟩

/-- A program around a machine: it makes steps of its own and follows what the
machine shows, which it may hold back when it is not there yet. -/
structure Client (κ β δ ρ : Type*) where
  init : κ
  own : κ → β → Option (κ × List ρ)
  hears : κ → δ → Option κ

namespace Client

variable (P : Client κ β δ ρ) (M : Machine σ α δ)

/-- The program at work, its own steps interleaved with the machine's. -/
def runs : Machine (κ × σ) (α ⊕ β) (δ ⊕ ρ) where
  init := (P.init, M.init)
  step
    | (k, s), .inl a => (M.step s a).bind (fun p =>
        (p.2.foldlM P.hears k).map (fun k' => ((k', p.1), p.2.map .inl)))
    | (k, s), .inr b => (P.own k b).map (fun q => ((q.1, s), q.2.map .inr))

/-- What the machine has shown to the program, and what the program has. -/
def heard (tr : List (δ ⊕ ρ)) : List δ := tr.filterMap Sum.getLeft?

def told (tr : List (δ ⊕ ρ)) : List ρ := tr.filterMap Sum.getRight?

@[simp] theorem heard_nil : heard ([] : List (δ ⊕ ρ)) = [] := rfl

@[simp] theorem told_nil : told ([] : List (δ ⊕ ρ)) = [] := rfl

@[simp] theorem heard_append (tr es : List (δ ⊕ ρ)) : heard (tr ++ es) = heard tr ++ heard es :=
  List.filterMap_append

@[simp] theorem told_append (tr es : List (δ ⊕ ρ)) : told (tr ++ es) = told tr ++ told es :=
  List.filterMap_append

@[simp] theorem heard_inl (ds : List δ) : heard (ds.map (Sum.inl (β := ρ))) = ds := by
  induction ds with
  | nil => rfl
  | cons d ds ih => simpa [heard] using ih

@[simp] theorem heard_inr (rs : List ρ) : heard (rs.map (Sum.inr (α := δ))) = [] := by
  simp [heard]

@[simp] theorem told_inl (ds : List δ) : told (ds.map (Sum.inl (β := ρ))) = [] := by
  simp [told]

@[simp] theorem told_inr (rs : List ρ) : told (rs.map (Sum.inr (α := δ))) = rs := by
  induction rs with
  | nil => rfl
  | cons r rs ih => simpa [told] using ih

variable {P M} {k k' : κ} {s s' : σ} {tr es : List (δ ⊕ ρ)} {x : κ × σ}

theorem machine_step {a : α} (h : (P.runs M).step (k, s) (.inl a) = some ((k', s'), es)) :
    ∃ ds, M.step s a = some (s', ds) ∧ ds.foldlM P.hears k = some k' ∧ es = ds.map .inl := by
  obtain ⟨p, hp, hrest⟩ := Option.bind_eq_some_iff.mp h
  obtain ⟨k₁, hk, he⟩ := Option.map_eq_some_iff.mp hrest
  simp only [Prod.mk.injEq] at he
  obtain ⟨⟨rfl, rfl⟩, rfl⟩ := he
  exact ⟨p.2, hp, hk, rfl⟩

theorem own_step {b : β} (h : (P.runs M).step (k, s) (.inr b) = some ((k', s'), es)) :
    ∃ rs, P.own k b = some (k', rs) ∧ s' = s ∧ es = rs.map .inr := by
  obtain ⟨q, hq, he⟩ := Option.map_eq_some_iff.mp h
  simp only [Prod.mk.injEq] at he
  obtain ⟨⟨rfl, rfl⟩, rfl⟩ := he
  exact ⟨q.2, hq, rfl, rfl⟩

/-- The invariant rule for a program at work: its own steps and the machine's
are looked at apart. -/
theorem invariant {I : List (δ ⊕ ρ) → κ → σ → Prop} (h0 : I [] P.init M.init)
    (hmachine : ∀ tr k s a k' s' ds, M.Run (heard tr) s → I tr k s →
      M.step s a = some (s', ds) → ds.foldlM P.hears k = some k' →
      I (tr ++ ds.map .inl) k' s')
    (hown : ∀ tr k s b k' rs, M.Run (heard tr) s → I tr k s → P.own k b = some (k', rs) →
      I (tr ++ rs.map .inr) k' s)
    (h : (P.runs M).Run tr x) : M.Run (heard tr) x.2 ∧ I tr x.1 x.2 := by
  refine Machine.Run.invariant (I := fun tr x => M.Run (heard tr) x.2 ∧ I tr x.1 x.2)
    ⟨.init, h0⟩ ?_ h
  intro tr x a y es _ ⟨hr, hI⟩ hs
  obtain ⟨k, s⟩ := x
  obtain ⟨k', s'⟩ := y
  cases a with
  | inl a =>
    obtain ⟨ds, hstep, hhears, rfl⟩ := machine_step hs
    rw [heard_append, heard_inl]
    exact ⟨hr.next hstep, hmachine tr k s a k' s' ds hr hI hstep hhears⟩
  | inr b =>
    obtain ⟨rs, hstep, rfl, rfl⟩ := own_step hs
    rw [heard_append, heard_inr, List.append_nil]
    exact ⟨hr, hown tr k s' b k' rs hr hI hstep⟩

/-- A schedule whose events the program follows is one of the program at work. -/
theorem exec_machine (as : List α) {ds : List δ} (h : M.exec s as = some (s', ds))
    (hk : ds.foldlM P.hears k = some k') :
    (P.runs M).exec (k, s) (as.map .inl) = some ((k', s'), ds.map .inl) := by
  induction as generalizing k s ds with
  | nil =>
    obtain ⟨rfl, rfl⟩ := Prod.mk.inj (Option.some.inj h)
    obtain rfl := Option.some.inj hk
    rfl
  | cons a as ih =>
    rw [Machine.exec_cons] at h
    obtain ⟨⟨s₁, ds₁⟩, hs, hrest⟩ := Option.bind_eq_some_iff.mp h
    obtain ⟨⟨s₂, ds₂⟩, hexec, hpair⟩ := Option.map_eq_some_iff.mp hrest
    obtain ⟨rfl, rfl⟩ := Prod.mk.inj hpair
    rw [List.foldlM_append] at hk
    obtain ⟨k₁, hk₁, hk₂⟩ := Option.bind_eq_some_iff.mp hk
    have hstep : (P.runs M).step (k, s) (.inl a) = some ((k₁, s₁), ds₁.map .inl) := by
      simp only [runs, hs, Option.bind_some, hk₁, Option.map_some]
    rw [List.map_cons, List.map_append]
    exact Machine.exec_step hstep (ih hexec hk₂)

end Client

/-- A program cannot tell a machine from one that simulates it. -/
theorem Simulation.client {M : Machine σ α δ} {A : Machine τ γ δ} {R : σ → τ → Prop}
    (h : Simulation M A R) (P : Client κ β δ ρ) :
    Simulation (P.runs M) (P.runs A) (fun x y => x.1 = y.1 ∧ R x.2 y.2) where
  init := ⟨rfl, h.init⟩
  step := by
    rintro ⟨k, s⟩ ⟨k₁, x⟩ a ⟨k', s'⟩ es ⟨hk, hR⟩ hs
    obtain rfl : k = k₁ := hk
    cases a with
    | inl a =>
      obtain ⟨ds, hstep, hhears, rfl⟩ := Client.machine_step hs
      obtain ⟨bs, x', hexec, hR'⟩ := h.step hR hstep
      exact ⟨bs.map .inl, (k', x'), Client.exec_machine bs hexec hhears, rfl, hR'⟩
    | inr b =>
      obtain ⟨rs, hown, rfl, rfl⟩ := Client.own_step hs
      have hstep : (P.runs A).step (k, x) (.inr b) = some ((k', x), rs.map .inr) := by
        simp only [Client.runs, hown, Option.map_some]
      exact ⟨[.inr b], (k', x), Machine.exec_single hstep, rfl, hR⟩

end Toolbox.Base
