import Mathlib.Data.List.Basic
import Toolbox.Base.Machine

namespace Toolbox.Base

/-- What a caller sees of a queue operation at the instant it takes effect. -/
inductive FifoEvent (T : Type*) where
  | pushed (v : T)
  | full
  | popped (v : T)
  | empty

inductive FifoAct (T : Type*) where
  | push (v : T)
  | pop

/-- A bounded queue whose operations are atomic. It refuses a push exactly
when it holds `bound` items and a pop exactly when it holds none. -/
def fifo (T : Type*) (bound : Nat) : Machine (List T) (FifoAct T) (FifoEvent T) where
  init := []
  step
    | q, .push v => if q.length < bound then some (q ++ [v], [.pushed v]) else some (q, [.full])
    | [], .pop => some ([], [.empty])
    | v :: q, .pop => some (q, [.popped v])

namespace Fifo

variable {T : Type*} {bound : Nat} {q q' : List T} {tr es : List (FifoEvent T)} {a : FifoAct T}

def pushes (tr : List (FifoEvent T)) : List T :=
  tr.filterMap (fun | .pushed v => some v | _ => none)

def pops (tr : List (FifoEvent T)) : List T :=
  tr.filterMap (fun | .popped v => some v | _ => none)

/-- Each step moves items from the back of the log to its front, in order. -/
theorem step_order (h : (fifo T bound).step q a = some (q', es)) :
    q ++ pushes es = pops es ++ q' ∧ (q.length ≤ bound → q'.length ≤ bound) := by
  cases a with
  | push v =>
    simp only [fifo] at h
    split at h
    all_goals
      simp only [Option.some.injEq, Prod.mk.injEq] at h
      obtain ⟨rfl, rfl⟩ := h
      simp [pushes, pops]
    omega
  | pop =>
    cases q with
    | nil =>
      simp only [fifo, Option.some.injEq, Prod.mk.injEq] at h
      obtain ⟨rfl, rfl⟩ := h
      simp [pushes, pops]
    | cons v q =>
      simp only [fifo, Option.some.injEq, Prod.mk.injEq] at h
      obtain ⟨rfl, rfl⟩ := h
      simp only [pushes, pops, List.length_cons, List.filterMap_cons, List.filterMap_nil,
        List.append_nil, List.cons_append, List.nil_append, true_and]
      omega

/-- The items pushed are the items popped followed by the items still held. -/
theorem run_order (h : (fifo T bound).Run tr q) :
    pushes tr = pops tr ++ q ∧ q.length ≤ bound := by
  refine Machine.Run.invariant (I := fun tr q => pushes tr = pops tr ++ q ∧ q.length ≤ bound)
    ⟨rfl, Nat.zero_le _⟩ ?_ h
  intro tr q a q' es _ ⟨horder, hlen⟩ hs
  obtain ⟨hstep, hbound⟩ := step_order hs
  refine ⟨?_, hbound hlen⟩
  calc pushes (tr ++ es) = pushes tr ++ pushes es := by simp [pushes]
    _ = pops tr ++ (q ++ pushes es) := by rw [horder, List.append_assoc]
    _ = pops tr ++ (pops es ++ q') := by rw [hstep]
    _ = pops (tr ++ es) ++ q' := by simp [pops]

end Fifo

end Toolbox.Base
