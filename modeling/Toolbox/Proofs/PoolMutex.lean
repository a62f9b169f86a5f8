import Toolbox.Proofs.PoolMoves

namespace Toolbox.Proofs.PoolMutex
open Base Pool PoolMoves

variable {n k : Nat} {s s' : State n k} {a : Act n k} {es : List (Event n k)}

section Fields

variable (s : State n k) (i : Fin n) (pc : WorkerPc) (t : Thread n k) (e : Option EnqueuePc)

@[simp] theorem workers_at_worker (j : Fin n) :
    (s.atWorker i pc).workers j = if j = i then pc else s.workers j := by
  simp [State.atWorker, Function.update_apply]

@[simp] theorem workers_at_main (p : MainPc) : (s.atMain p).workers = s.workers := rfl
@[simp] theorem workers_set_mutex (o : Option (Thread n k)) :
    (s.setMutex o).workers = s.workers := rfl
@[simp] theorem workers_request_stop : (s.requestStop i).workers = s.workers := rfl

theorem stop_of_request {j : Fin n} (h : j = i ∨ s.stop j = true) :
    (s.requestStop i).stop j = true := by
  rcases h with h | h <;> simp [State.requestStop, Function.update_apply, h]

@[simp] theorem tasks_set_enqueue : (s.setEnqueue t e).tasks = s.tasks := by
  unfold State.setEnqueue
  split
  · split <;> rfl
  · rfl

@[simp] theorem pushed_set_enqueue : (s.setEnqueue t e).pushed = s.pushed := by
  unfold State.setEnqueue
  split
  · split <;> rfl
  · rfl

@[simp] theorem mutex_set_enqueue : (s.setEnqueue t e).mutex = s.mutex := by
  unfold State.setEnqueue
  split
  · split <;> rfl
  · rfl

@[simp] theorem stop_set_enqueue : (s.setEnqueue t e).stop = s.stop := by
  unfold State.setEnqueue
  split
  · split <;> rfl
  · rfl

@[simp] theorem main_set_enqueue : (s.setEnqueue t e).main = s.main := by
  unfold State.setEnqueue
  split
  · split <;> rfl
  · rfl

end Fields

/-- What a worker is doing, whatever its task is doing. -/
def phase : WorkerPc → WorkerPc
  | .running id _ => .running id none
  | pc => pc

/-- A call of `enqueue` does not change what any worker is doing. -/
@[simp] theorem phase_set_enqueue (s : State n k) (t : Thread n k) (e : Option EnqueuePc)
    (i : Fin n) : phase ((s.setEnqueue t e).workers i) = phase (s.workers i) := by
  unfold State.setEnqueue
  split
  · rename_i j
    split
    · rename_i id e' hw
      by_cases he : i = j
      · subst he
        simp [hw, phase]
      · simp [he]
    · rfl
  · rfl

def enqueueHolds : Option EnqueuePc → Prop
  | some .push | some .unlock => True
  | _ => False

def workerHolds : WorkerPc → Prop
  | .test | .park | .check | .take | .unlockReturn | .unlockRun _ => True
  | .running _ e => enqueueHolds e
  | _ => False

/-- Between locking and unlocking `queue_mutex`. -/
def Holds (s : State n k) : Thread n k → Prop
  | .worker i => workerHolds (s.workers i)
  | .outside j => enqueueHolds (s.outside j)

/-- Only the program counters matter. -/
theorem holds_congr (hw : s'.workers = s.workers) (ho : s'.outside = s.outside)
    {t : Thread n k} (h : Holds s' t) : Holds s t := by
  cases t with
  | worker i => simpa [Holds, hw] using h
  | outside j => simpa [Holds, ho] using h

def Exclusive (s : State n k) : Prop := ∀ t, Holds s t → s.mutex = some t

theorem Exclusive.eq {t u : Thread n k} (h : Exclusive s) (ht : Holds s t) (hu : Holds s u) :
    t = u :=
  Option.some.inj ((h t ht).symm.trans (h u hu))

theorem Exclusive.keep (h : Exclusive s) (hmutex : s'.mutex = s.mutex)
    (hsame : ∀ t, Holds s' t → Holds s t) : Exclusive s' :=
  fun t ht => hmutex.trans (h t (hsame t ht))

theorem Exclusive.acquire {t : Thread n k} (h : Exclusive s) (hfree : s.mutex = none)
    (hmutex : s'.mutex = some t) (hsame : ∀ u, u ≠ t → Holds s' u → Holds s u) :
    Exclusive s' := by
  intro u hu
  by_cases he : u = t
  · rw [he]
    exact hmutex
  · have := h u (hsame u he hu)
    rw [hfree] at this
    cases this

theorem Exclusive.release {t : Thread n k} (h : Exclusive s) (ht : Holds s t)
    (hgone : ¬ Holds s' t) (hsame : ∀ u, u ≠ t → Holds s' u → Holds s u) : Exclusive s' := by
  intro u hu
  by_cases he : u = t
  · rw [he] at hu
    exact absurd hu hgone
  · exact absurd (h.eq (hsame u he hu) ht) he

theorem holds_at_worker {i : Fin n} {pc : WorkerPc} {u : Thread n k} (hu : u ≠ .worker i)
    (h : Holds (s.atWorker i pc) u) : Holds s u := by
  cases u with
  | worker j =>
    have he : j ≠ i := by
      rintro rfl
      exact hu rfl
    simpa [Holds, he] using h
  | outside j => exact h

/-- A worker's step that neither takes nor releases the mutex. -/
theorem Exclusive.at_worker {i : Fin n} {pc : WorkerPc} (h : Exclusive s)
    (hpc : workerHolds pc → workerHolds (s.workers i)) : Exclusive (s.atWorker i pc) := by
  refine h.keep rfl ?_
  intro u hu
  by_cases he : u = .worker i
  · subst he
    simp only [Holds, workers_at_worker, ↓reduceIte] at hu ⊢
    exact hpc hu
  · exact holds_at_worker he hu

/-- May be inside a call of `enqueue`. -/
def Inside (s : State n k) : Thread n k → Prop
  | .worker i => ∃ id e, s.workers i = .running id e
  | .outside _ => True

theorem inside_of_enqueue {t : Thread n k} {e : EnqueuePc} (h : s.enqueueOf t = some e) :
    Inside s t := by
  cases t with
  | worker i =>
    cases hw : s.workers i with
    | running id e => exact ⟨id, e, hw⟩
    | _ => simp [State.enqueueOf, hw] at h
  | outside j => trivial

theorem inside_of_may {t : Thread n k} (h : s.MayEnqueue t) : Inside s t := by
  cases t with
  | worker i =>
    obtain ⟨id, hw⟩ := h
    exact ⟨id, none, hw⟩
  | outside j => trivial

theorem holds_of_enqueue {t : Thread n k} {e : EnqueuePc} (h : s.enqueueOf t = some e) :
    Holds s t ↔ enqueueHolds (some e) := by
  cases t with
  | worker i =>
    cases hw : s.workers i with
    | running id e' =>
      obtain rfl : e' = some e := by simpa [State.enqueueOf, hw] using h
      simp [Holds, hw, workerHolds]
    | _ => simp [State.enqueueOf, hw] at h
  | outside j =>
    have hout : s.outside j = some e := h
    simp [Holds, hout]

theorem holds_set_enqueue_self {t : Thread n k} {e : Option EnqueuePc} (h : Inside s t) :
    Holds (s.setEnqueue t e) t ↔ enqueueHolds e := by
  cases t with
  | worker i =>
    obtain ⟨id, e', hw⟩ := h
    simp [Holds, State.setEnqueue, hw, workerHolds]
  | outside j => simp [Holds, State.setEnqueue]

theorem holds_set_enqueue {t u : Thread n k} {e : Option EnqueuePc} (hu : u ≠ t)
    (h : Holds (s.setEnqueue t e) u) : Holds s u := by
  unfold State.setEnqueue at h
  split at h
  · split at h
    · exact holds_at_worker hu h
    · exact h
  · rename_i j
    cases u with
    | worker i => exact h
    | outside l =>
      have he : l ≠ j := by
        rintro rfl
        exact hu rfl
      simpa [Holds, Function.update_apply, he] using h

/-- A step inside `enqueue` that neither takes nor releases the mutex. -/
theorem Exclusive.set_enqueue {t : Thread n k} {e : Option EnqueuePc} (h : Exclusive s)
    (hin : Inside s t) (he : enqueueHolds e → Holds s t) : Exclusive (s.setEnqueue t e) := by
  refine h.keep (by simp) ?_
  intro u hu
  by_cases hut : u = t
  · subst hut
    exact he ((holds_set_enqueue_self hin).mp hu)
  · exact holds_set_enqueue hut hu

theorem worker_holds_woken (pc : WorkerPc) : workerHolds pc.woken ↔ workerHolds pc := by
  cases pc <;> exact Iff.rfl

theorem Exclusive.wake (h : Exclusive s) (i : Fin n) : Exclusive (s.wake i) :=
  h.at_worker (worker_holds_woken _).mp

theorem inside_wake {i : Fin n} {t : Thread n k} (h : Inside s t) : Inside (s.wake i) t := by
  cases t with
  | worker j =>
    obtain ⟨id, e, hw⟩ := h
    refine ⟨id, e, ?_⟩
    by_cases he : j = i
    · subst he
      simp [State.wake, hw, WorkerPc.woken]
    · simp [State.wake, he, hw]
  | outside j => trivial

theorem move_exclusive (h : Exclusive s) (hm : Move s a s' es) : Exclusive s' := by
  cases hm with
  | built | spawnFails | destroy | requestStop | stopped | join | joined | unwindStop | unwound
  | unwindJoin => exact h
  | start hp hlt => exact h.at_worker (fun hpc => absurd hpc id)
  | notifyAll =>
    refine h.keep rfl ?_
    intro u hu
    cases u with
    | worker i => exact (worker_holds_woken _).mp hu
    | outside j => exact hu
  | @acquire i hw hfree =>
    refine h.acquire hfree rfl ?_
    intro u hu hold
    exact holds_at_worker hu hold
  | ready hw _ | sleepy hw _ _ | leave hw _ _ | proceed hw _ =>
    apply h.at_worker
    rw [hw]
    exact id
  | take hw _ =>
    refine Exclusive.at_worker (s := { s with tasks := _ }) h ?_
    intro _
    change workerHolds (s.workers _)
    rw [hw]
    trivial
  | undefined hw _ | invoke hw | finish hw => exact h.at_worker (fun hpc => absurd hpc id)
  | @park i hw | @unlockReturn i hw | @unlockRun i _ hw =>
    have hold : Holds s (.worker i) := by
      change workerHolds (s.workers i)
      rw [hw]
      trivial
    refine h.release hold (by simp [Holds, workerHolds]) ?_
    intro u hu hnew
    exact holds_at_worker hu hnew
  | enqueue hmay => exact h.set_enqueue (inside_of_may hmay) (fun he => absurd he id)
  | @lock t he hfree =>
    refine h.acquire (t := t) hfree (by simp [State.setMutex]) ?_
    intro u hu hnew
    have hmid := holds_set_enqueue hu hnew
    exact holds_congr rfl rfl hmid
  | @push t he =>
    have hold : Holds s t := (holds_of_enqueue he).mpr trivial
    refine h.keep (by simp) ?_
    intro u hu
    by_cases hut : u = t
    · rw [hut]
      exact hold
    · have hmid := holds_set_enqueue hut hu
      exact holds_congr rfl rfl hmid
  | @unlock t he =>
    have hold : Holds s t := (holds_of_enqueue he).mpr trivial
    have hin : Inside (s.setMutex none) t := by
      cases t <;> exact inside_of_enqueue he
    refine h.release hold ?_ ?_
    · intro hnew
      exact (holds_set_enqueue_self hin).mp hnew
    · intro u hu hnew
      have hmid := holds_set_enqueue hu hnew
      exact holds_congr rfl rfl hmid
  | @notify t i he hw =>
    exact (h.wake i).set_enqueue (inside_wake (inside_of_enqueue he)) (fun hnone => absurd hnone id)
  | notifyNobody he _ =>
    exact h.set_enqueue (inside_of_enqueue he) (fun hnone => absurd hnone id)
  | spurious hw => exact h.wake _

end Toolbox.Proofs.PoolMutex
