import Toolbox.Proofs.PoolEffort
import Toolbox.Proofs.PoolUnwind

namespace Toolbox.Proofs.PoolRest
open Base Keyed Pool PoolMoves PoolMutex PoolDrain PoolShutdown PoolSleepers PoolEffort

variable {n k : Nat} {s s' : State n k} {a : Act n k} {tr es : List (Event n k)}

section Mutex

/-- Whoever has the mutex is between locking and unlocking it. -/
def Owned (s : State n k) : Prop := ∀ t, s.mutex = some t → Holds s t

theorem holds_beside_worker {i : Fin n} {pc : WorkerPc} {u : Thread n k} (hu : u ≠ .worker i)
    (h : Holds s u) : Holds (s.atWorker i pc) u := by
  cases u with
  | worker j =>
    have he : j ≠ i := fun he => hu (congrArg _ he)
    simpa [Holds, he] using h
  | outside j => exact h

theorem holds_beside_enqueue {t u : Thread n k} {e : Option EnqueuePc} (hu : u ≠ t)
    (h : Holds s u) : Holds (s.setEnqueue t e) u := by
  unfold State.setEnqueue
  split
  · split
    · exact holds_beside_worker hu h
    · exact h
  · rename_i j
    cases u with
    | worker i => exact h
    | outside l =>
      have he : l ≠ j := fun he => hu (congrArg _ he)
      simpa [Holds, Function.update_apply, he] using h

/-- A worker's step, with the mutex taken, released or left as it was. -/
theorem Owned.step_worker (h : Owned s) {o : Option (Thread n k)} {i : Fin n} {pc : WorkerPc}
    (howned : ∀ t, o = some t →
      (t = .worker i → workerHolds pc) ∧ (t ≠ .worker i → s.mutex = some t)) :
    Owned ((s.setMutex o).atWorker i pc) := by
  intro t ht
  obtain ⟨hself, hother⟩ := howned t ht
  by_cases he : t = .worker i
  · subst he
    simp only [Holds, workers_at_worker, ↓reduceIte]
    exact hself rfl
  · exact holds_beside_worker he (h t (hother he))

theorem Owned.at_worker (h : Owned s) {i : Fin n} {pc : WorkerPc}
    (hpc : workerHolds (s.workers i) → workerHolds pc) : Owned (s.atWorker i pc) := by
  refine h.step_worker (o := s.mutex) ?_
  intro t ht
  refine ⟨?_, fun _ => ht⟩
  rintro rfl
  exact hpc (h _ ht)

theorem Owned.release (h : Owned s) {i : Fin n} {pc : WorkerPc} :
    Owned ((s.setMutex none).atWorker i pc) :=
  h.step_worker (fun _ ht => by cases ht)

theorem Owned.step_enqueue (h : Owned s) {o : Option (Thread n k)} {t : Thread n k}
    {e : Option EnqueuePc} (hin : Inside s t)
    (howned : ∀ u, o = some u → (u = t → enqueueHolds e) ∧ (u ≠ t → s.mutex = some u)) :
    Owned ((s.setMutex o).setEnqueue t e) := by
  intro u hu
  rw [mutex_set_enqueue] at hu
  obtain ⟨hself, hother⟩ := howned u hu
  by_cases he : u = t
  · subst he
    exact (holds_set_enqueue_self (s := s.setMutex o) hin).mpr (hself rfl)
  · exact holds_beside_enqueue he (h u (hother he))

theorem Owned.set_enqueue (h : Owned s) {t : Thread n k} {e : Option EnqueuePc}
    (hin : Inside s t) (he : Holds s t → enqueueHolds e) : Owned (s.setEnqueue t e) := by
  refine h.step_enqueue (o := s.mutex) hin ?_
  intro u hu
  refine ⟨?_, fun _ => hu⟩
  rintro rfl
  exact he (h u hu)

theorem Owned.wake (h : Owned s) (i : Fin n) : Owned (s.wake i) :=
  h.at_worker (worker_holds_woken _).mpr

theorem not_holds_of_may {t : Thread n k} (h : s.MayEnqueue t) : ¬ Holds s t := by
  cases t with
  | worker i =>
    obtain ⟨id, hw⟩ := h
    simp [Holds, hw, workerHolds, enqueueHolds]
  | outside j => simp [Holds, h.2, enqueueHolds]

theorem move_owned (h : Owned s) (hi : Inv s) (hu : Unstarted s) (hm : Move s a s' es) : Owned s' := by
  cases hm with
  | built | spawnFails | destroy | requestStop | stopped | join | joined | unwindStop | unwound
  | unwindJoin => exact h
  | @start i hp hlt =>
    refine Owned.at_worker h ?_
    rw [hu i hp ⟨i, hlt⟩ (Nat.le_refl i)]
    exact id
  | notifyAll =>
    intro t ht
    have hold := h t ht
    cases t with
    | worker i => exact (worker_holds_woken _).mpr hold
    | outside j => exact hold
  | acquire hw hfree =>
    refine h.step_worker ?_
    intro t ht
    exact ⟨fun _ => trivial, fun hne => absurd (Option.some.inj ht).symm hne⟩
  | ready hw _ | sleepy hw _ _ | leave hw _ _ | proceed hw _ => exact h.at_worker (fun _ => trivial)
  | take hw _ => exact Owned.at_worker (s := { s with tasks := _ }) h (fun _ => trivial)
  | @undefined i hw hnone =>
    have hok := hi.worker i
    rw [hw] at hok
    exact absurd hnone hok
  | invoke hw | finish hw =>
    refine h.at_worker ?_
    rw [hw]
    exact id
  | park | unlockReturn | unlockRun => exact h.release
  | enqueue hmay =>
    exact h.set_enqueue (inside_of_may hmay) (fun hold => absurd hold (not_holds_of_may hmay))
  | lock he _ =>
    refine h.step_enqueue (inside_of_enqueue he) ?_
    intro u hu
    exact ⟨fun _ => trivial, fun hne => absurd (Option.some.inj hu).symm hne⟩
  | @push t he =>
    refine Owned.set_enqueue (s := { s with tasks := s.tasks ++ [s.pushed], pushed := s.pushed + 1 })
      h ?_ (fun _ => trivial)
    cases t with
    | worker i => exact inside_of_enqueue he
    | outside j => trivial
  | unlock he => exact h.step_enqueue (inside_of_enqueue he) (fun _ hu => by cases hu)
  | @notify t i he hw =>
    refine (h.wake i).set_enqueue (inside_wake (inside_of_enqueue he)) ?_
    rw [holds_of_enqueue ((enqueue_of_wake s i t).trans he)]
    exact id
  | notifyNobody he _ =>
    refine h.set_enqueue (inside_of_enqueue he) ?_
    rw [holds_of_enqueue he]
    exact id
  | spurious hw => exact h.wake _

end Mutex

section Places

/-- Has not been started, or has come to its end. -/
def Fixed : WorkerPc → Prop
  | .notStarted | .returned => True
  | _ => False

/-- The workers that the thread which owns the pool has not come to yet. -/
def Unspawned : MainPc → Fin n → Prop
  | .constructing i, j => i ≤ j
  | .unwindStop _ started, j | .unwindJoin _ started, j => started ≤ j
  | _, _ => False

/-- The workers that it has joined. -/
def Joined : MainPc → Fin n → Prop
  | .joining i, j | .unwindStop i _, j | .unwindJoin i _, j => j < i
  | .done, _ | .failed, _ => True
  | _, _ => False

/-- Which workers have been started, asked to stop and joined. -/
structure Placed (s : State n k) : Prop where
  started : ∀ j, s.workers j = .notStarted → Unspawned s.main j ∨ s.main = .failed
  unspawned : ∀ j, Unspawned s.main j → s.workers j = .notStarted
  joined : ∀ j, Joined s.main j → Fixed (s.workers j)
  told : ∀ j, Told s.main j → s.stop j = true

/-- A worker that stands still for good stays, and none gets where it has not been
started. -/
def Stays (s s' : State n k) (j : Fin n) : Prop :=
  (Fixed (s.workers j) → s'.workers j = s.workers j) ∧
    (s'.workers j = .notStarted → s.workers j = .notStarted)

theorem stays_at_worker {i : Fin n} {pc : WorkerPc} (hfree : ¬ Fixed (s.workers i))
    (hpc : pc ≠ .notStarted) (j : Fin n) : Stays s (s.atWorker i pc) j := by
  unfold Stays
  rw [workers_at_worker]
  split
  · rename_i he
    rw [he]
    exact ⟨fun hfixed => absurd hfixed hfree, fun hnew => absurd hnew hpc⟩
  · exact ⟨fun _ => rfl, id⟩

theorem stays_woken (pc : WorkerPc) :
    (Fixed pc → pc.woken = pc) ∧ (pc.woken = .notStarted → pc = .notStarted) := by
  cases pc <;> simp [Fixed, WorkerPc.woken]

theorem stays_wake (i j : Fin n) : Stays s (s.wake i) j := by
  unfold Stays State.wake
  rw [workers_at_worker]
  split
  · rename_i he
    rw [he]
    exact stays_woken _
  · exact ⟨fun _ => rfl, id⟩

theorem stays_set_enqueue (t : Thread n k) (e : Option EnqueuePc) (j : Fin n) :
    Stays s (s.setEnqueue t e) j := by
  have hphase := phase_set_enqueue s t e j
  refine ⟨?_, fun hnew => workers_set_enqueue (fun _ _ => WorkerPc.noConfusion) hnew⟩
  intro hfixed
  have hne : ∀ id e, s.workers j ≠ .running id e := by
    intro id e he
    rw [he] at hfixed
    exact hfixed
  rw [phase_of_ne hne] at hphase
  exact eq_of_phase hne hphase

/-- What holds of the workers that stand still is left to the owner's steps. -/
theorem move_stays (hm : Move s a s' es) (hmain : s'.main = s.main) (j : Fin n) :
    Stays s s' j := by
  have hfree : ∀ {i pc}, s.workers i = pc → ¬ Fixed pc → ¬ Fixed (s.workers i) := by
    rintro i pc rfl h
    exact h
  cases hm with
  | start hp _ =>
    rw [hp] at hmain
    cases hmain
  | built | spawnFails | destroy | requestStop | stopped | join | joined | unwindStop | unwound
  | unwindJoin => exact ⟨fun _ => rfl, id⟩
  | notifyAll => exact stays_woken _
  | acquire hw _ =>
    refine stays_at_worker ?_ (by simp) j
    rcases hw with hw | hw <;> exact hfree hw id
  | ready hw _ | sleepy hw _ _ | leave hw _ _ | proceed hw _ | park hw | unlockReturn hw
  | unlockRun hw | invoke hw | finish hw | undefined hw _ | take hw _ =>
    exact stays_at_worker (hfree hw id) (by simp) j
  | enqueue | notifyNobody => exact stays_set_enqueue _ _ j
  | @lock t _ _ => exact stays_set_enqueue (s := s.setMutex (some t)) t (some .push) j
  | @unlock t _ => exact stays_set_enqueue (s := s.setMutex none) t (some .notifyOne) j
  | push =>
    exact stays_set_enqueue (s := { s with tasks := s.tasks ++ [s.pushed], pushed := s.pushed + 1 })
      _ _ j
  | @notify t i _ _ =>
    have hwake := stays_wake (s := s) i j
    have hcall := stays_set_enqueue (s := s.wake i) t none j
    refine ⟨?_, fun hnew => hwake.2 (hcall.2 hnew)⟩
    intro hfixed
    have hsame := hwake.1 hfixed
    exact (hcall.1 (by rwa [hsame])).trans hsame
  | spurious => exact stays_wake _ j

theorem Placed.keep (h : Placed s) (hmain : s'.main = s.main) (hstop : s'.stop = s.stop)
    (hstays : ∀ j, Stays s s' j) : Placed s' := by
  refine ⟨?_, ?_, ?_, ?_⟩
  · intro j hnew
    rw [hmain]
    exact h.started j ((hstays j).2 hnew)
  · intro j hj
    rw [hmain] at hj
    have hold := h.unspawned j hj
    rw [(hstays j).1 (by rw [hold]; trivial), hold]
  · intro j hj
    rw [hmain] at hj
    have hold := h.joined j hj
    rwa [(hstays j).1 hold]
  · intro j hj
    rw [hmain] at hj
    rw [hstop]
    exact h.told j hj

theorem not_spawned (h : Placed s) {p : MainPc} (hp : s.main = p) (hne : p ≠ .failed)
    {j : Fin n} (hj : s.workers j = .notStarted) : Unspawned p j := by
  subst hp
  exact (h.started j hj).resolve_right hne

/-- The unwinding ends when the workers that had been started are joined. -/
theorem unwound_after (hs : stepMain s = some (s', es)) {i started : Nat}
    (hp : s.main = .unwindStop i started) (hfailed : s'.main = .failed) (j : Fin n)
    (hj : i ≤ j) : started ≤ j := by
  simp only [stepMain, hp] at hs
  split at hs
  · cases hs
    cases hfailed
  · rename_i hover
    have hlt := j.isLt
    omega

theorem move_placed (h : Placed s) (hs : step s a = some (s', es)) (hm : Move s a s' es) :
    Placed s' := by
  cases hm with
  | @start i hp hlt =>
    refine ⟨?_, ?_, fun _ hj => hj.elim, fun _ hj => hj.elim⟩
    · intro j hnew
      rw [workers_at_main, workers_at_worker] at hnew
      split at hnew
      · cases hnew
      · rename_i hne
        have hold : i ≤ j := not_spawned h hp (by simp) hnew
        exact .inl (Nat.lt_of_le_of_ne hold (fun he => hne (Fin.ext he.symm)))
    · intro j (hj : i + 1 ≤ j)
      rw [workers_at_main, workers_at_worker, if_neg (by rintro rfl; simp at hj)]
      apply h.unspawned
      rw [hp]
      exact Nat.le_of_succ_le hj
  | @built i hp hle =>
    refine ⟨?_, fun _ hj => hj.elim, fun _ hj => hj.elim, fun _ hj => hj.elim⟩
    intro j hnew
    have hold : i ≤ j := not_spawned h hp (by simp) hnew
    exact absurd (Nat.lt_of_le_of_lt hold j.isLt) hle
  | spawnFails hp hlt =>
    refine ⟨?_, ?_, fun _ hj => absurd hj (Nat.not_lt_zero _), fun _ hj => hj.elim⟩
    · exact fun j hnew => .inl (not_spawned h hp (by simp) hnew)
    · intro j hj
      apply h.unspawned
      rw [hp]
      exact hj
  | destroy hp hout =>
    refine ⟨?_, fun _ hj => hj.elim, fun _ hj => hj.elim, fun _ hj => absurd hj (Nat.not_lt_zero _)⟩
    exact fun j hnew => (not_spawned h hp (by simp) hnew).elim
  | @requestStop i hp hlt =>
    refine ⟨?_, fun _ hj => hj.elim, fun _ hj => hj.elim, ?_⟩
    · exact fun j hnew => (not_spawned h hp (by simp) hnew).elim
    · intro j (hj : j.val < i + 1)
      apply stop_of_request
      by_cases he : j.val = i
      · exact .inl (Fin.ext he)
      · refine .inr (h.told j ?_)
        rw [hp]
        exact Nat.lt_of_le_of_ne (Nat.lt_succ_iff.mp hj) he
  | @stopped i hp hle =>
    refine ⟨?_, fun _ hj => hj.elim, fun _ hj => hj.elim, ?_⟩
    · exact fun j hnew => (not_spawned h hp (by simp) hnew).elim
    · intro j _
      apply h.told
      rw [hp]
      exact Nat.lt_of_lt_of_le j.isLt (Nat.le_of_not_lt hle)
  | notifyAll hp =>
    refine ⟨?_, fun _ hj => hj.elim, fun _ hj => absurd hj (Nat.not_lt_zero _), ?_⟩
    · intro j hnew
      exact (not_spawned h hp (by simp) ((stays_woken _).2 hnew)).elim
    · intro j _
      apply h.told
      rw [hp]
      trivial
  | @join i hp hlt hret =>
    refine ⟨?_, fun _ hj => hj.elim, ?_, ?_⟩
    · exact fun j hnew => (not_spawned h hp (by simp) hnew).elim
    · intro j (hj : j.val < i + 1)
      change Fixed (s.workers j)
      by_cases he : j.val = i
      · rw [show j = ⟨i, hlt⟩ from Fin.ext he, hret]
        trivial
      · apply h.joined
        rw [hp]
        exact Nat.lt_of_le_of_ne (Nat.lt_succ_iff.mp hj) he
    · intro j _
      refine stop_of_request _ _ (.inr (h.told j ?_))
      rw [hp]
      trivial
  | @joined i hp hle =>
    refine ⟨?_, fun _ hj => hj.elim, ?_, ?_⟩
    · exact fun j hnew => (not_spawned h hp (by simp) hnew).elim
    · intro j _
      apply h.joined
      rw [hp]
      exact Nat.lt_of_lt_of_le j.isLt (Nat.le_of_not_lt hle)
    · intro j _
      apply h.told
      rw [hp]
      trivial
  | unwindStop hp hlt hi =>
    refine ⟨?_, ?_, ?_, fun _ hj => hj.elim⟩
    · exact fun j hnew => .inl (not_spawned h hp (by simp) hnew)
    · intro j hj
      apply h.unspawned
      rw [hp]
      exact hj
    · intro j hj
      apply h.joined
      rw [hp]
      exact hj
  | @unwound i started hp =>
    refine ⟨fun _ _ => .inr rfl, fun _ hj => hj.elim, ?_, fun _ hj => hj.elim⟩
    intro j _
    change Fixed (s.workers j)
    rcases Nat.lt_or_ge j.val i with hlt | hge
    · apply h.joined
      rw [hp]
      exact hlt
    · have hnew : s.workers j = .notStarted := by
        apply h.unspawned
        rw [hp]
        exact unwound_after hs hp rfl j hge
      rw [hnew]
      trivial
  | @unwindJoin i started hp hlt hret =>
    refine ⟨?_, ?_, ?_, fun _ hj => hj.elim⟩
    · exact fun j hnew => .inl (not_spawned h hp (by simp) hnew)
    · intro j hj
      apply h.unspawned
      rw [hp]
      exact hj
    · intro j (hj : j.val < i + 1)
      change Fixed (s.workers j)
      by_cases he : j.val = i
      · rw [show j = ⟨i, hlt⟩ from Fin.ext he, hret]
        trivial
      · apply h.joined
        rw [hp]
        exact Nat.lt_of_le_of_ne (Nat.lt_succ_iff.mp hj) he
  | acquire | ready | sleepy | park | leave | proceed | take | undefined | unlockReturn | unlockRun
  | invoke | finish | spurious => exact h.keep rfl rfl (move_stays (step_moves hs) rfl)
  | enqueue | lock | push | unlock | notify | notifyNobody =>
    exact h.keep (main_set_enqueue _ _ _) (stop_set_enqueue _ _ _)
      (move_stays (step_moves hs) (main_set_enqueue _ _ _))

end Places

section Futures

/-- The tasks whose futures have been given their value or exception. -/
def finishes (tr : List (Event n k)) : List (Fin n × Nat) :=
  tr.filterMap (fun | .finished i id _ => some (i, id) | _ => none)

/-- The task that a worker runs. -/
def current (i : Fin n) : WorkerPc → List (Fin n × Nat)
  | .running id _ => [(i, id)]
  | _ => []

/-- Each task invoked is running or has finished. -/
def Answered (tr : List (Event n k)) (s : State n k) : Prop :=
  ∀ i, entries i (invocations tr) = entries i (finishes tr) ++ current i (s.workers i)

theorem finishes_append : finishes (tr ++ es) = finishes tr ++ finishes es :=
  List.filterMap_append

theorem current_phase (i : Fin n) (pc : WorkerPc) : current i (phase pc) = current i pc := by
  cases pc <;> rfl

theorem current_woken (i : Fin n) (pc : WorkerPc) : current i pc.woken = current i pc := by
  cases pc <;> rfl

theorem current_at_worker {i : Fin n} {pc : WorkerPc}
    (hpc : current i pc = current i (s.workers i)) (j : Fin n) :
    current j ((s.atWorker i pc).workers j) = current j (s.workers j) := by
  rw [workers_at_worker]
  split
  · rename_i he
    rw [he, hpc]
  · rfl

theorem current_set_enqueue (t : Thread n k) (e : Option EnqueuePc) (j : Fin n) :
    current j ((s.setEnqueue t e).workers j) = current j (s.workers j) := by
  rw [← current_phase, phase_set_enqueue, current_phase]

theorem Answered.silent (h : Answered tr s) (hinvocations : invocations es = [])
    (hfinishes : finishes es = [])
    (hcurrent : ∀ i, current i (s'.workers i) = current i (s.workers i)) :
    Answered (tr ++ es) s' := by
  intro i
  rw [invocations_append, finishes_append, hinvocations, hfinishes, List.append_nil,
    List.append_nil, hcurrent]
  exact h i

theorem move_answered (hi : Inv s) (hstart : Unstarted s) (h : Answered tr s)
    (hm : Move s a s' es) : Answered (tr ++ es) s' := by
  cases hm with
  | built | spawnFails | destroy | requestStop | stopped | join | joined | unwindStop | unwound
  | unwindJoin => exact h.silent rfl rfl (fun _ => rfl)
  | @start i hp hlt =>
    refine h.silent rfl rfl (current_at_worker ?_)
    rw [hstart i hp ⟨i, hlt⟩ (Nat.le_refl _)]
    rfl
  | notifyAll => exact h.silent rfl rfl (fun i => current_woken i _)
  | acquire hw _ =>
    refine h.silent rfl rfl (current_at_worker ?_)
    change _ = current _ (s.workers _)
    rcases hw with hw | hw <;> rw [hw] <;> rfl
  | ready hw _ | sleepy hw _ _ | leave hw _ _ | proceed hw _ | park hw | unlockReturn hw
  | unlockRun hw =>
    refine h.silent rfl rfl (current_at_worker ?_)
    change _ = current _ (s.workers _)
    rw [hw]
    rfl
  | take hw _ =>
    refine h.silent rfl rfl (current_at_worker (s := { s with tasks := _ }) ?_)
    change _ = current _ (s.workers _)
    rw [hw]
    rfl
  | @undefined i hw hnone =>
    have hok := hi.worker i
    rw [hw] at hok
    exact absurd hnone hok
  | @invoke i id hw =>
    intro j
    rw [invocations_append, finishes_append, entries_append, entries_append, h j,
      workers_at_worker]
    by_cases he : j = i
    · subst he
      simp [entries, invocations, finishes, current, hw]
    · simp [entries, invocations, finishes, he, Ne.symm he]
  | @finish i id threw hw =>
    intro j
    rw [invocations_append, finishes_append, entries_append, entries_append, h j,
      workers_at_worker]
    by_cases he : j = i
    · subst he
      simp [entries, invocations, finishes, current, hw]
    · simp [entries, invocations, finishes, he, Ne.symm he]
  | enqueue | notifyNobody => exact h.silent rfl rfl (current_set_enqueue _ _)
  | lock | push | unlock => exact h.silent rfl rfl (current_set_enqueue _ _)
  | @notify t i he hw =>
    refine h.silent rfl rfl ?_
    intro j
    rw [current_set_enqueue]
    exact current_at_worker (current_woken _ _) j
  | spurious => exact h.silent rfl rfl (current_at_worker (current_woken _ _))

end Futures

section Rest

/-- Nobody has a step of its own: there is nothing to come but new calls, the start
of the destructor and spurious wakeups. -/
def Resting (s : State n k) : Prop := ∀ a, brings n a = 0 → step s a = none

/-- Has no step of its own unless somebody wakes it. -/
def Idle : WorkerPc → Prop
  | .notStarted | .parked | .returned => True
  | _ => False

theorem Resting.contra {P : Prop} (h : Resting s) {a : Act n k} (hin : brings n a = 0)
    (hs : step s a ≠ none) : P :=
  absurd (h a hin) hs

theorem Resting.not_holding (h : Resting s) (t : Thread n k) : ¬ Holds s t := by
  intro hold
  have hcall : ∀ e, s.enqueueOf t = some e → enqueueHolds (some e) → False := by
    intro e he hholds
    refine h.contra (a := .enqueuer t) rfl ?_
    cases e with
    | push | unlock => simp [step, stepEnqueue, he]
    | lock | notifyOne => exact hholds.elim
  cases t with
  | worker i =>
    change workerHolds (s.workers i) at hold
    cases hw : s.workers i with
    | test =>
      refine h.contra (a := .worker i) rfl ?_
      simp only [step, stepWorker, hw]
      split <;> exact Option.some_ne_none _
    | check =>
      refine h.contra (a := .worker i) rfl ?_
      simp only [step, stepWorker, hw]
      split <;> exact Option.some_ne_none _
    | take =>
      refine h.contra (a := .worker i) rfl ?_
      simp only [step, stepWorker, hw]
      split <;> exact Option.some_ne_none _
    | park | unlockReturn | unlockRun =>
      exact h.contra (a := .worker i) rfl (by simp [step, stepWorker, hw])
    | running id e =>
      rw [hw] at hold
      cases e with
      | none => exact hold
      | some e => exact hcall e (by simp [State.enqueueOf, hw]) hold
    | _ =>
      rw [hw] at hold
      exact hold
  | outside j =>
    change enqueueHolds (s.outside j) at hold
    cases he : s.outside j with
    | none =>
      rw [he] at hold
      exact hold
    | some e =>
      rw [he] at hold
      exact hcall e he hold

theorem Resting.unlocked (h : Resting s) (howned : Owned s) : s.mutex = none := by
  cases hm : s.mutex with
  | none => rfl
  | some t => exact absurd (howned t hm) (h.not_holding t)

theorem Resting.not_calling (h : Resting s) (hfree : s.mutex = none) (t : Thread n k) :
    s.enqueueOf t = none := by
  cases he : s.enqueueOf t with
  | none => rfl
  | some e =>
    cases e with
    | lock => exact h.contra (a := .enqueuer t) rfl (by simp [step, stepEnqueue, he, hfree])
    | push | unlock => exact h.contra (a := .enqueuer t) rfl (by simp [step, stepEnqueue, he])
    | notifyOne =>
      by_cases hsome : ∃ i, s.workers i = .parked
      · obtain ⟨i, hw⟩ := hsome
        exact h.contra (a := .notifyOne t (some i)) rfl (by simp [step, stepNotifyOne, he, hw])
      · exact h.contra (a := .notifyOne t none) rfl (by simp [step, stepNotifyOne, he, hsome])

theorem Resting.idle (h : Resting s) (hfree : s.mutex = none) (i : Fin n) :
    Idle (s.workers i) := by
  have hholds := h.not_holding (.worker i)
  have hcall := h.not_calling hfree (.worker i)
  change ¬ workerHolds (s.workers i) at hholds
  rw [enqueue_of_worker] at hcall
  cases hw : s.workers i with
  | notStarted | parked | returned => trivial
  | lock | relock => exact h.contra (a := .worker i) rfl (by simp [step, stepWorker, hw, hfree])
  | invoke => exact h.contra (a := .worker i) rfl (by simp [step, stepWorker, hw])
  | running id e =>
    rw [hw] at hcall
    obtain rfl : e = none := hcall
    exact h.contra (a := .finish i false) rfl (by simp [step, hw])
  | test | park | check | take | unlockReturn | unlockRun =>
    rw [hw] at hholds
    exact absurd trivial hholds

/-- Where the owner is while nobody moves: nowhere in particular, done with the pool,
or waiting for a worker that sleeps although it has been asked to stop. -/
inductive Place (s : State n k) : Prop
  | running (hp : s.main = .running) (hw : ∀ i, s.workers i = .parked)
  | done (hp : s.main = .done) (hw : ∀ i, s.workers i = .returned)
  | failed (hp : s.main = .failed) (hw : ∀ i, Fixed (s.workers i))
  | joining (i : Fin n) (hp : s.main = .joining i) (hw : s.workers i = .parked)
      (hstop : s.stop i = true)
  | unwinding (i : Fin n) (started : Nat) (hp : s.main = .unwindJoin i started)
      (hw : s.workers i = .parked) (hstop : s.stop i = true)

/-- What is left when nobody moves: every task has run to its end and nothing is under way. -/
structure AtRest (tr : List (Event n k)) (s : State n k) : Prop where
  unlocked : s.mutex = none
  called : ∀ t, s.enqueueOf t = none
  idle : ∀ i, Idle (s.workers i)
  drained : s.tasks = []
  finished : ((finishes tr).map Prod.snd).Perm (pushes tr)
  place : Place s

theorem AtRest.resting (h : AtRest tr s) : Resting s := by
  intro a hin
  cases a with
  | main =>
    cases h.place with
    | running hp | done hp | failed hp => simp [step, stepMain, hp]
    | joining i hp hw | unwinding i _ hp hw => simp [step, stepMain, hp, hw]
  | spawnFails =>
    cases h.place with
    | running hp | done hp | failed hp | joining _ hp | unwinding _ _ hp => simp [step, hp]
  | worker i =>
    have hidle := h.idle i
    cases hw : s.workers i with
    | notStarted | parked | returned => simp [step, stepWorker, hw]
    | _ =>
      rw [hw] at hidle
      exact hidle.elim
  | finish i threw =>
    have hidle := h.idle i
    cases hw : s.workers i with
    | running id e =>
      rw [hw] at hidle
      exact hidle.elim
    | _ => simp [step, hw]
  | enqueuer t => simp [step, stepEnqueue, h.called t]
  | notifyOne t woken => simp [step, stepNotifyOne, h.called t]
  | enqueue | destroy | spurious => simp [brings] at hin

end Rest

section Runs

variable {threads : Nat} {s : State (workerCount threads) k}
  {tr : List (Event (workerCount threads) k)}

theorem run_places (hr : (machine threads k).Run tr s) :
    Owned s ∧ Placed s ∧ Answered tr s := by
  refine Machine.Run.invariant (I := fun tr s => Owned s ∧ Placed s ∧ Answered tr s) ?_ ?_ hr
  · refine ⟨fun _ ht => absurd ht.symm (Option.some_ne_none _), ⟨?_, fun _ _ => rfl, fun _ hj => hj.elim,
      fun _ hj => hj.elim⟩, fun _ => rfl⟩
    exact fun _ _ => .inl (Nat.zero_le _)
  · intro tr s a s' es hr ⟨howned, hplaced, hanswered⟩ hs
    have hsound := run_sound hr
    have hm := step_moves hs
    exact ⟨move_owned howned hsound.inv hsound.unstarted hm, move_placed hplaced hs hm,
      move_answered hsound.inv hsound.unstarted hanswered hm⟩

theorem Resting.place (h : Resting s) (hr : (machine threads k).Run tr s)
    (hidle : ∀ i, Idle (s.workers i)) : Place s := by
  have hsound := run_sound hr
  have hplaced := (run_places hr).2.1
  cases hp : s.main with
  | constructing i =>
    refine h.contra (a := .main) rfl ?_
    simp only [step, stepMain, hp]
    split <;> exact Option.some_ne_none _
  | running =>
    refine .running hp ?_
    intro i
    have hi := hidle i
    cases hw : s.workers i with
    | parked => rfl
    | notStarted => exact (not_spawned hplaced hp (by simp) hw).elim
    | returned =>
      have hstop := hsound.inv.worker i
      rw [hw] at hstop
      have hending := hsound.inv.ending i hstop
      rw [hp] at hending
      exact hending.elim
    | _ =>
      rw [hw] at hi
      exact hi.elim
  | stopping i =>
    refine h.contra (a := .main) rfl ?_
    simp only [step, stepMain, hp]
    split <;> exact Option.some_ne_none _
  | notifyAll => exact h.contra (a := .main) rfl (by simp [step, stepMain, hp])
  | joining i =>
    by_cases hlt : i < workerCount threads
    · have hi := hidle ⟨i, hlt⟩
      refine .joining ⟨i, hlt⟩ hp ?_ (hplaced.told _ (by rw [hp]; trivial))
      cases hw : s.workers ⟨i, hlt⟩ with
      | parked => rfl
      | notStarted => exact (not_spawned hplaced hp (by simp) hw).elim
      | returned => exact h.contra (a := .main) rfl (by simp [step, stepMain, hp, hlt, hw])
      | _ =>
        rw [hw] at hi
        exact hi.elim
    · exact h.contra (a := .main) rfl (by simp [step, stepMain, hp, hlt])
  | done =>
    refine .done hp ?_
    intro i
    have hfixed := hplaced.joined i (by rw [hp]; trivial)
    cases hw : s.workers i with
    | returned => rfl
    | notStarted => exact (not_spawned hplaced hp (by simp) hw).elim
    | _ =>
      rw [hw] at hfixed
      exact hfixed.elim
  | unwindStop i started =>
    refine h.contra (a := .main) rfl ?_
    simp only [step, stepMain, hp]
    split <;> exact Option.some_ne_none _
  | unwindJoin i started =>
    obtain ⟨hlt, hi, hstop⟩ := (PoolUnwind.run_barren hr (by rw [hp]; trivial)).told i started hp
    have hpc := hidle ⟨i, hlt⟩
    refine .unwinding ⟨i, hlt⟩ started hp ?_ hstop
    cases hw : s.workers ⟨i, hlt⟩ with
    | parked => rfl
    | notStarted => exact absurd (not_spawned hplaced hp (by simp) hw) (Nat.not_le_of_lt hi)
    | returned => exact h.contra (a := .main) rfl (by simp [step, stepMain, hp, hlt, hw])
    | _ =>
      rw [hw] at hpc
      exact hpc.elim
  | failed => exact .failed hp (fun i => hplaced.joined i (by rw [hp]; trivial))

theorem idle_not_awake {pc : WorkerPc} (h : Idle pc) : awake pc = false := by
  cases pc <;> first | rfl | exact h.elim

/-- Has no task in its hands. -/
theorem idle_handed {i : Fin n} {pc : WorkerPc} (h : Idle pc) :
    pending i pc = [] ∧ current i pc = [] := by
  cases pc <;> first | exact ⟨rfl, rfl⟩ | exact h.elim

theorem count_none {κ : Type*} [Fintype κ] {p : κ → Bool} (h : ∀ i, p i = false) :
    count p = 0 := by
  rw [count_congr h]
  simp [count]

/-- A sleeping worker would have been told of a task, and those that have returned
left none behind. -/
theorem Resting.drained (hr : (machine threads k).Run tr s) (hplace : Place s)
    (hidle : ∀ i, Idle (s.workers i)) (hcalled : ∀ t, s.enqueueOf t = none) : s.tasks = [] := by
  have hparked : (∃ i, s.workers i = .parked) → s.tasks = [] := by
    intro hsome
    have hattended := (run_attended hr).2 hsome
    have hawake : awakeWorkers s = 0 := count_none (fun i => idle_not_awake (hidle i))
    have howed : owedNotifies s = 0 := count_none (fun t => by rw [hcalled t]; rfl)
    rw [hawake, howed] at hattended
    exact List.length_eq_zero_iff.mp (Nat.le_zero.mp hattended)
  cases hplace with
  | running hp hw => exact hparked ⟨⟨0, worker_count_pos threads⟩, hw _⟩
  | joining i _ hw _ | unwinding i _ _ hw _ => exact hparked ⟨i, hw⟩
  | done hp hw =>
    apply (run_sound hr).inv.drained
    intro i
    rw [hw i]
    trivial
  | failed hp _ => exact (PoolUnwind.run_barren hr (by rw [hp]; trivial)).tasks

theorem Resting.finished (hr : (machine threads k).Run tr s) (htasks : s.tasks = [])
    (hidle : ∀ i, Idle (s.workers i)) : ((finishes tr).map Prod.snd).Perm (pushes tr) := by
  have hperm : (finishes tr).Perm (invocations tr) := by
    apply perm_of_entries
    intro i
    rw [(run_places hr).2.2 i, (idle_handed (hidle i)).2, List.append_nil]
  exact (hperm.map Prod.snd).trans
    ((run_sound hr).ledger.settled htasks (fun i => (idle_handed (hidle i)).1))

end Runs

end Toolbox.Proofs.PoolRest
