import Mathlib.Data.Fintype.Sum
import Toolbox.Base.Count
import Toolbox.Proofs.PoolDrain

namespace Toolbox.Proofs.PoolSleepers
open Base Pool PoolMoves PoolMutex PoolDrain

variable {n k : Nat} {s s' : State n k} {a : Act n k} {tr es : List (Event n k)}

/-- Started, not parked, not executing a task and not on its way out. -/
def awake : WorkerPc → Bool
  | .lock | .test | .park | .relock | .check | .take => true
  | _ => false

/-- Has pushed and not yet executed its `notify_one`. -/
def owes : Option EnqueuePc → Bool
  | some .unlock | some .notifyOne => true
  | _ => false

instance : Fintype (Thread n k) :=
  Fintype.ofEquiv (Fin n ⊕ Fin k) {
    toFun := Sum.elim .worker .outside
    invFun := fun | .worker i => .inl i | .outside j => .inr j
    left_inv := by rintro (i | j) <;> rfl
    right_inv := by rintro (i | j) <;> rfl }

def awakeWorkers (s : State n k) : Nat := count (fun i => awake (s.workers i))

def owedNotifies (s : State n k) : Nat := count (fun t => owes (s.enqueueOf t))

/-- The call of `enqueue` made by the task that a worker runs. -/
def nested : WorkerPc → Option EnqueuePc
  | .running _ e => e
  | _ => none

theorem enqueue_of_worker (s : State n k) (i : Fin n) :
    s.enqueueOf (.worker i) = nested (s.workers i) := by
  cases hw : s.workers i <;> simp [State.enqueueOf, nested, hw]

theorem enqueue_of_at_worker (s : State n k) (i : Fin n) (pc : WorkerPc) (t : Thread n k) :
    (s.atWorker i pc).enqueueOf t = if t = .worker i then nested pc else s.enqueueOf t := by
  cases t with
  | worker j =>
    rw [enqueue_of_worker, enqueue_of_worker, workers_at_worker]
    by_cases he : j = i
    · simp [he]
    · simp [he]
  | outside j => rfl

theorem enqueue_of_set_enqueue {t : Thread n k} {e : Option EnqueuePc} (h : Inside s t)
    (u : Thread n k) : (s.setEnqueue t e).enqueueOf u = if u = t then e else s.enqueueOf u := by
  cases t with
  | worker i =>
    obtain ⟨id, e', hw⟩ := h
    simp [State.setEnqueue, hw, enqueue_of_at_worker, nested]
  | outside j =>
    cases u with
    | worker i => rfl
    | outside l => simp [State.setEnqueue, State.enqueueOf, Function.update_apply]

theorem awake_phase (pc : WorkerPc) : awake (phase pc) = awake pc := by
  cases pc <;> rfl

theorem awake_set_enqueue (s : State n k) (t : Thread n k) (e : Option EnqueuePc) :
    awakeWorkers (s.setEnqueue t e) = awakeWorkers s := by
  apply count_congr
  intro i
  rw [← awake_phase, phase_set_enqueue, awake_phase]

theorem awake_at_worker (s : State n k) (i : Fin n) (pc : WorkerPc) :
    awakeWorkers (s.atWorker i pc) + (awake (s.workers i)).toNat =
      awakeWorkers s + (awake pc).toNat := by
  have hcount := count_update (p := fun j => awake (s.workers j))
    (q := fun j => awake ((s.atWorker i pc).workers j)) i (fun j hj => by simp [hj])
  simpa [awakeWorkers] using hcount

theorem owed_at_worker (s : State n k) (i : Fin n) (pc : WorkerPc)
    (h : owes (nested pc) = owes (nested (s.workers i))) :
    owedNotifies (s.atWorker i pc) = owedNotifies s := by
  apply count_congr
  intro t
  rw [enqueue_of_at_worker]
  split
  · subst t
    rw [h, enqueue_of_worker]
  · rfl

theorem owed_set_enqueue {t : Thread n k} {e : Option EnqueuePc} (h : Inside s t) :
    owedNotifies (s.setEnqueue t e) + (owes (s.enqueueOf t)).toNat =
      owedNotifies s + (owes e).toNat := by
  have hcount := count_update (p := fun u => owes (s.enqueueOf u))
    (q := fun u => owes ((s.setEnqueue t e).enqueueOf u)) t
    (fun u hu => by simp [enqueue_of_set_enqueue h, hu])
  simpa [owedNotifies, enqueue_of_set_enqueue h] using hcount

/-- A sleeping worker never leaves more tasks waiting than there are workers and
notifications to come for them. -/
def Attended (s : State n k) : Prop :=
  (∃ i, s.workers i = .parked) → s.tasks.length ≤ awakeWorkers s + owedNotifies s

/-- A worker that is about to park has found the queue empty and still holds the mutex. -/
def Convinced (s : State n k) : Prop := ∀ i, s.workers i = .park → s.tasks = []

theorem Convinced.keep (h : Convinced s) (htasks : s.tasks = [] → s'.tasks = [])
    (hsame : ∀ i, s'.workers i = .park → s.workers i = .park) : Convinced s' :=
  fun i hi => htasks (h i (hsame i hi))

theorem Convinced.at_worker (h : Convinced s) {i : Fin n} {pc : WorkerPc}
    (hpc : pc = .park → s.tasks = []) : Convinced (s.atWorker i pc) := by
  intro j hj
  rw [workers_at_worker] at hj
  split at hj
  · exact hpc hj
  · exact h j hj

theorem phase_of_ne {pc : WorkerPc} (h : ∀ id e, pc ≠ .running id e) : phase pc = pc := by
  cases pc with
  | running id e => exact absurd rfl (h id e)
  | _ => rfl

theorem eq_of_phase {pc pc' : WorkerPc} (h : ∀ id e, pc ≠ .running id e) (he : phase pc' = pc) :
    pc' = pc := by
  cases pc' with
  | running id e => exact absurd he.symm (h id none)
  | _ => exact he

/-- A call of `enqueue` moves no worker that is outside a task. -/
theorem workers_set_enqueue {t : Thread n k} {e : Option EnqueuePc} {i : Fin n} {pc : WorkerPc}
    (hpc : ∀ id e, pc ≠ .running id e) (hi : (s.setEnqueue t e).workers i = pc) :
    s.workers i = pc := by
  apply eq_of_phase hpc
  rw [← phase_set_enqueue s t e, hi]
  exact phase_of_ne hpc

theorem workers_push {t : Thread n k} {e : Option EnqueuePc} {i : Fin n} {pc : WorkerPc}
    (hpc : ∀ id e, pc ≠ .running id e)
    (hi : ({ s with tasks := s.tasks ++ [s.pushed], pushed := s.pushed + 1 }.setEnqueue t
      e).workers i = pc) : s.workers i = pc :=
  workers_set_enqueue (s := { s with tasks := s.tasks ++ [s.pushed], pushed := s.pushed + 1 })
    hpc hi

theorem Convinced.set_enqueue (h : Convinced s) (t : Thread n k) (e : Option EnqueuePc) :
    Convinced (s.setEnqueue t e) := by
  refine h.keep (by simp) ?_
  intro i hi
  exact workers_set_enqueue (by simp) hi

theorem Convinced.wake (h : Convinced s) (i : Fin n) : Convinced (s.wake i) := by
  apply h.at_worker
  intro hpc
  apply h i
  cases hw : s.workers i <;> simp [hw, WorkerPc.woken] at hpc ⊢

theorem Convinced.set_mutex (h : Convinced s) (o : Option (Thread n k)) :
    Convinced (s.setMutex o) := h

theorem move_convinced (h : Convinced s) (hex : Exclusive s) (hm : Move s a s' es) :
    Convinced s' := by
  cases hm with
  | built | spawnFails | destroy | requestStop | stopped | join | joined | unwindStop | unwound
  | unwindJoin => exact h
  | start hp hlt => exact h.at_worker (by simp)
  | notifyAll =>
    refine h.keep id ?_
    intro i hi
    change (s.workers i).woken = .park at hi
    cases hw : s.workers i <;> simp [hw, WorkerPc.woken] at hi ⊢
  | acquire _ _ | park _ | unlockReturn _ | unlockRun _ =>
    exact (h.set_mutex _).at_worker (by simp)
  | ready _ _ | leave _ _ _ | proceed _ _ | undefined _ _ | invoke _ | finish _ =>
    exact h.at_worker (by simp)
  | sleepy _ _ hnone => exact h.at_worker (fun _ => hnone)
  | @take i id rest hw hfront =>
    refine h.keep (fun hnone => ?_) ?_
    · rw [hfront] at hnone
      cases hnone
    · intro j hj
      change (s.atWorker i (.unlockRun id)).workers j = .park at hj
      rw [workers_at_worker] at hj
      split at hj
      · cases hj
      · exact hj
  | enqueue | notifyNobody => exact h.set_enqueue _ _
  | lock | unlock => exact (h.set_mutex _).set_enqueue _ _
  | @push t he =>
    intro i hi
    have hpark : s.workers i = .park := workers_push (by simp) hi
    have hold : Holds s (.worker i) := by
      change workerHolds (s.workers i)
      rw [hpark]
      trivial
    -- the pusher and the worker about to park cannot both hold the mutex
    have hsame := hex.eq ((holds_of_enqueue he).mpr trivial) hold
    rw [hsame, enqueue_of_worker, hpark] at he
    cases he
  | notify => exact (h.wake _).set_enqueue _ _
  | spurious => exact h.wake _

theorem Attended.keep (h : Attended s)
    (hparked : ∀ i, s'.workers i = .parked → s.workers i = .parked)
    (hcount : s'.tasks.length + (awakeWorkers s + owedNotifies s) ≤
      s.tasks.length + (awakeWorkers s' + owedNotifies s')) : Attended s' := by
  rintro ⟨i, hi⟩
  have hbound := h ⟨i, hparked i hi⟩
  omega

theorem parked_at_worker {i j : Fin n} {pc : WorkerPc} (hpc : pc ≠ .parked)
    (hj : (s.atWorker i pc).workers j = .parked) : s.workers j = .parked := by
  rw [workers_at_worker] at hj
  split at hj
  · exact absurd hj hpc
  · exact hj

theorem Attended.at_worker (h : Attended s) {i : Fin n} {pc : WorkerPc} (hpc : pc ≠ .parked)
    (howes : owes (nested pc) = owes (nested (s.workers i)))
    (hawake : awake (s.workers i) = true → awake pc = true) : Attended (s.atWorker i pc) := by
  refine h.keep (fun j => parked_at_worker hpc) ?_
  have hsum := awake_at_worker s i pc
  have howed := owed_at_worker s i pc howes
  have hle := Bool.toNat_le_toNat hawake
  have htasks : (s.atWorker i pc).tasks = s.tasks := rfl
  rw [htasks]
  omega

theorem Attended.set_enqueue (h : Attended s) {t : Thread n k} {e : Option EnqueuePc}
    (hin : Inside s t) (howes : owes (s.enqueueOf t) = true → owes e = true) :
    Attended (s.setEnqueue t e) := by
  refine h.keep (fun i => workers_set_enqueue (by simp)) ?_
  have hawake := awake_set_enqueue s t e
  have hsum := owed_set_enqueue (s := s) (e := e) hin
  have hle := Bool.toNat_le_toNat howes
  rw [tasks_set_enqueue]
  omega

/-- Nobody sleeps, or nothing waits. -/
theorem attended_of (h : (∀ i, s.workers i ≠ .parked) ∨ s.tasks = []) : Attended s := by
  rintro ⟨i, hi⟩
  rcases h with h | h
  · exact absurd hi (h i)
  · simp [h]

theorem Attended.set_mutex (h : Attended s) (o : Option (Thread n k)) :
    Attended (s.setMutex o) := h

/-- A woken worker is there for one task more. -/
theorem Attended.wake (h : Attended s) {i : Fin n} (hw : s.workers i = .parked) :
    Attended (s.wake i) := by
  unfold State.wake
  rw [hw]
  exact h.at_worker (by simp [WorkerPc.woken]) (by simp [hw, WorkerPc.woken, nested])
    (fun _ => rfl)

theorem awake_wake {i : Fin n} (hw : s.workers i = .parked) :
    awakeWorkers (s.wake i) = awakeWorkers s + 1 := by
  have hsum := awake_at_worker s i (s.workers i).woken
  rw [hw] at hsum
  unfold State.wake
  rw [hw]
  exact hsum

theorem owed_wake {i : Fin n} (hw : s.workers i = .parked) :
    owedNotifies (s.wake i) = owedNotifies s := by
  apply owed_at_worker
  rw [hw]
  rfl

theorem Attended.push (h : Attended s) {t : Thread n k} (he : s.enqueueOf t = some .push) :
    Attended ({ s with tasks := s.tasks ++ [s.pushed], pushed := s.pushed + 1 }.setEnqueue t
      (some .unlock)) := by
  have hawake := awake_set_enqueue
    { s with tasks := s.tasks ++ [s.pushed], pushed := s.pushed + 1 } t (some .unlock)
  have hsum := owed_set_enqueue
    (s := { s with tasks := s.tasks ++ [s.pushed], pushed := s.pushed + 1 })
    (e := some .unlock) (inside_of_enqueue he)
  change _ + (owes (s.enqueueOf t)).toNat = owedNotifies s + _ at hsum
  change _ = awakeWorkers s at hawake
  rw [he] at hsum
  refine h.keep (fun i hi => workers_push (by simp) hi) ?_
  simp only [owes, Bool.toNat_false, Bool.toNat_true] at hsum
  rw [tasks_set_enqueue, List.length_append, List.length_singleton]
  omega

/-- The notification that was owed wakes a worker. -/
theorem Attended.notify (h : Attended s) {t : Thread n k} {i : Fin n}
    (he : s.enqueueOf t = some .notifyOne) (hw : s.workers i = .parked) :
    Attended ((s.wake i).setEnqueue t none) := by
  have hin : Inside (s.wake i) t := inside_wake (inside_of_enqueue he)
  have hsame : (s.wake i).enqueueOf t = s.enqueueOf t := by
    unfold State.wake
    rw [enqueue_of_at_worker, hw]
    split
    · subst t
      rw [enqueue_of_worker, hw]
      rfl
    · rfl
  have hawake := awake_set_enqueue (s.wake i) t none
  have hsum := owed_set_enqueue (e := none) hin
  rw [hsame, he, owed_wake hw] at hsum
  rw [awake_wake hw] at hawake
  simp only [owes, Bool.toNat_false, Bool.toNat_true] at hsum
  refine h.keep ?_ ?_
  · intro j hj
    exact parked_at_worker (by simp [hw, WorkerPc.woken]) (workers_set_enqueue (by simp) hj)
  · have htasks : ((s.wake i).setEnqueue t none).tasks = s.tasks := tasks_set_enqueue _ _ _
    rw [htasks]
    omega

theorem Attended.take (h : Attended s) {i : Fin n} {id : Nat} {rest : List Nat}
    (hw : s.workers i = .take) (hfront : s.tasks = id :: rest) :
    Attended ({ s with tasks := rest }.atWorker i (.unlockRun id)) := by
  have hsum := awake_at_worker { s with tasks := rest } i (.unlockRun id)
  have howed := owed_at_worker { s with tasks := rest } i (.unlockRun id)
    (by simp [hw, nested])
  change _ + (awake (s.workers i)).toNat = awakeWorkers s + _ at hsum
  change _ = owedNotifies s at howed
  rw [hw] at hsum
  simp only [awake, Bool.toNat_false, Bool.toNat_true] at hsum
  refine h.keep (fun j hj => parked_at_worker (by simp) hj) ?_
  have htasks : ({ s with tasks := rest }.atWorker i (.unlockRun id)).tasks = rest := rfl
  rw [htasks, hfront, List.length_cons]
  omega

theorem owes_of_may {t : Thread n k} (h : s.MayEnqueue t) : s.enqueueOf t = none := by
  cases t with
  | worker i =>
    obtain ⟨id, hw⟩ := h
    rw [enqueue_of_worker, hw]
    rfl
  | outside j => exact h.2

theorem move_attended (h : Attended s) (hc : Convinced s) (hu : Unstarted s)
    (hm : Move s a s' es) : Attended s' := by
  cases hm with
  | built | spawnFails | destroy | requestStop | stopped | join | joined | unwindStop | unwound
  | unwindJoin => exact h
  | @start i hp hlt =>
    have hw : s.workers ⟨i, hlt⟩ = .notStarted := hu i hp _ (Nat.le_refl i)
    exact h.at_worker (by simp) (by simp [hw, nested]) (fun _ => rfl)
  | notifyAll =>
    apply attended_of
    left
    intro i hi
    change (s.workers i).woken = .parked at hi
    cases hw : s.workers i <;> simp [hw, WorkerPc.woken] at hi
  | acquire hw _ =>
    rcases hw with hw | hw <;>
      exact (h.set_mutex _).at_worker (by simp) (by simp [hw, nested]) (fun _ => rfl)
  | ready hw _ | sleepy hw _ _ | proceed hw _ | finish hw =>
    exact h.at_worker (by simp) (by simp [hw, nested, owes]) (fun _ => rfl)
  | park hw => exact attended_of (.inr (hc _ hw))
  | leave hw _ hnone => exact attended_of (.inr hnone)
  | take hw hfront => exact h.take hw hfront
  | @undefined i hw hnone => exact attended_of (.inr hnone)
  | unlockReturn hw | unlockRun hw =>
    exact (h.set_mutex _).at_worker (by simp) (by simp [hw, nested]) (by simp [hw, awake])
  | invoke hw => exact h.at_worker (by simp) (by simp [hw, nested]) (by simp [hw, awake])
  | enqueue hmay =>
    exact h.set_enqueue (inside_of_may hmay) (by simp [owes_of_may hmay, owes])
  | @lock t he _ =>
    have hin : Inside (s.setMutex (some t)) t := by cases t <;> exact inside_of_enqueue he
    refine (h.set_mutex _).set_enqueue hin ?_
    intro howes
    change owes (s.enqueueOf t) = true at howes
    simp [he, owes] at howes
  | push he => exact h.push he
  | @unlock t he =>
    have hin : Inside (s.setMutex none) t := by cases t <;> exact inside_of_enqueue he
    exact (h.set_mutex _).set_enqueue hin (fun _ => rfl)
  | notify he hw => exact h.notify he hw
  | notifyNobody he hnone =>
    apply attended_of
    left
    intro i hi
    exact hnone i (workers_set_enqueue (by simp) hi)
  | spurious hw => exact h.wake hw

section Runs

variable {threads k : Nat} {s : State (workerCount threads) k}
variable {tr : List (Event (workerCount threads) k)}

theorem run_attended (hr : (machine threads k).Run tr s) : Convinced s ∧ Attended s := by
  refine Machine.Run.invariant (I := fun _ s => Convinced s ∧ Attended s) ?_ ?_ hr
  · refine ⟨?_, attended_of (.inr rfl)⟩
    intro i hi
    cases hi
  · rintro tr s a s' es hr ⟨hc, h⟩ hs
    have hsound := run_sound hr
    have hm := step_moves hs
    exact ⟨move_convinced hc hsound.exclusive hm, move_attended h hc hsound.unstarted hm⟩

/-- With a worker asleep, every queued task has an awake idle worker or a
`notify_one` still to come. -/
theorem tasks_attended (hr : (machine threads k).Run tr s)
    (hsleeper : ∃ i, s.workers i = .parked) :
    s.tasks.length ≤ awakeWorkers s + owedNotifies s :=
  (run_attended hr).2 hsleeper

end Runs

/-- Two workers park and one task is pushed from outside. -/
def parkedThenPush (i₀ i₁ : Fin 2) (j : Fin 1) : List (Act 2 1) :=
  [.main, .main, .main, .worker i₀, .worker i₀, .worker i₀, .worker i₁, .worker i₁, .worker i₁,
   .enqueue (.outside j), .enqueuer (.outside j), .enqueuer (.outside j),
   .enqueuer (.outside j), .notifyOne (.outside j) (some i₀)]

theorem tasks_attended_two_workers : ∃ tr s, (machine 2 1).Run tr s ∧ s.tasks.length = 1 ∧
    s.tasks.length ≤ awakeWorkers s + owedNotifies s := by
  have hr : (machine 2 1).Run _ _ := Machine.run_of_exec (parkedThenPush 0 1 0) rfl
  exact ⟨_, _, hr, rfl, tasks_attended hr ⟨⟨1, Nat.one_lt_two⟩, rfl⟩⟩

end Toolbox.Proofs.PoolSleepers
