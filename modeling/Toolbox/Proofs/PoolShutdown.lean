import Toolbox.Proofs.PoolMutex

namespace Toolbox.Proofs.PoolShutdown
open Base Pool PoolMoves PoolMutex

variable {n k : Nat} {s s' : State n k} {a : Act n k} {tr es : List (Event n k)}

/-- The destructor has executed its `notify_all`. -/
def AfterNotify : MainPc → Prop
  | .joining _ | .done => True
  | _ => False

/-- The workers that the destructor has asked to stop. -/
def Told : MainPc → Fin n → Prop
  | .stopping j, i => i.val < j
  | .notifyAll, _ | .joining _, _ | .done, _ => True
  | _, _ => False

/-- Has found the predicate false and has not been notified since. -/
def Asleep : WorkerPc → Prop
  | .park | .parked => True
  | _ => False

/-- A `notify_all` between some worker's test of the predicate and its parking. -/
def Missed (s : State n k) : Act n k → Prop
  | .main => s.main = .notifyAll ∧ ∃ i, s.workers i = .park
  | _ => False

instance (s : State n k) (a : Act n k) : Decidable (Missed s a) :=
  match a with
  | .main => inferInstanceAs (Decidable (s.main = .notifyAll ∧ ∃ i, s.workers i = .park))
  | .spawnFails | .destroy | .worker _ | .finish _ _ | .enqueue _ | .enqueuer _ | .notifyOne _ _
  | .spurious _ => isFalse id

structure Awake (s : State n k) : Prop where
  told : ∀ i, Told s.main i → s.stop i = true
  awake : AfterNotify s.main → ∀ i, ¬ Asleep (s.workers i)

theorem told_of_after {p : MainPc} (h : AfterNotify p) (i : Fin n) : Told p i := by
  cases p <;> first | exact h.elim | trivial

theorem asleep_woken {pc : WorkerPc} (h : Asleep pc.woken) : pc = .park := by
  cases pc <;> first | rfl | exact h.elim

theorem asleep_of_woken {pc : WorkerPc} (h : Asleep pc.woken) : Asleep pc := by
  rw [asleep_woken h]
  trivial

theorem asleep_phase {pc : WorkerPc} : Asleep (phase pc) ↔ Asleep pc := by
  cases pc <;> exact Iff.rfl

theorem Awake.rewire (h : Awake s) (hmain : s'.main = s.main) (hstop : s'.stop = s.stop)
    (hsame : ∀ i, Asleep (s'.workers i) → Asleep (s.workers i)) : Awake s' := by
  refine ⟨?_, ?_⟩
  · rw [hmain, hstop]
    exact h.told
  · rw [hmain]
    intro hafter i hi
    exact h.awake hafter i (hsame i hi)

theorem Awake.at_worker (h : Awake s) {i : Fin n} {pc : WorkerPc}
    (hpc : Asleep pc → Asleep (s.workers i)) : Awake (s.atWorker i pc) := by
  refine h.rewire rfl rfl ?_
  intro j hj
  by_cases he : j = i
  · subst he
    rw [workers_at_worker, if_pos rfl] at hj
    exact hpc hj
  · rwa [workers_at_worker, if_neg he] at hj

theorem Awake.set_mutex (h : Awake s) (o : Option (Thread n k)) : Awake (s.setMutex o) :=
  h.rewire rfl rfl (fun _ hpc => hpc)

theorem Awake.wake (h : Awake s) (i : Fin n) : Awake (s.wake i) :=
  h.at_worker asleep_of_woken

theorem Awake.set_enqueue (h : Awake s) (t : Thread n k) (e : Option EnqueuePc) :
    Awake (s.setEnqueue t e) := by
  refine h.rewire (by simp) (by simp) ?_
  intro i hi
  apply asleep_phase.mp
  rw [← phase_set_enqueue s t e]
  exact asleep_phase.mpr hi

theorem Awake.stopped (h : Awake s) {p : MainPc} (hp : s.main = p) {i : Fin n} (ht : Told p i) :
    s.stop i = true := by
  apply h.told
  rwa [hp]

/-- Steps of the main thread before the `notify_all`. -/
theorem Awake.before (htold : ∀ i, Told s'.main i → s'.stop i = true)
    (hbefore : ¬ AfterNotify s'.main) : Awake s' :=
  ⟨htold, fun hafter => absurd hafter hbefore⟩

theorem Awake.request_stop (h : Awake s) {j : Nat} (hp : s.main = .stopping j) (hlt : j < n) :
    Awake ((s.requestStop ⟨j, hlt⟩).atMain (.stopping (j + 1))) := by
  refine .before ?_ id
  intro i hi
  apply stop_of_request
  rcases Nat.lt_succ_iff_lt_or_eq.mp hi with hold | hnew
  · exact .inr (h.stopped hp hold)
  · exact .inl (Fin.ext hnew)

/-- The destructor's remaining steps leave the workers alone. -/
theorem Awake.after (h : Awake s) {p : MainPc} (hafter : AfterNotify s.main)
    (hworkers : s'.workers = s.workers) (hstop : ∀ i, s.stop i = true → s'.stop i = true) :
    Awake (s'.atMain p) := by
  refine ⟨?_, ?_⟩
  · intro i _
    exact hstop i (h.told i (told_of_after hafter i))
  · intro _ i
    rw [workers_at_main, hworkers]
    exact h.awake hafter i

/-- A worker that tests the predicate once its stop is requested does not go to
sleep, so after the `notify_all` only a worker already at `park` could. -/
theorem move_awake (h : Awake s) (hok : ¬ Missed s a) (hm : Move s a s' es) : Awake s' := by
  cases hm with
  | start | built | spawnFails | unwindStop | unwound | unwindJoin =>
    exact .before (fun _ ht => ht.elim) id
  | destroy => exact .before (fun _ ht => absurd ht (Nat.not_lt_zero _)) id
  | requestStop hp hlt => exact h.request_stop hp hlt
  | stopped hp hlt =>
    refine .before ?_ id
    intro i _
    exact h.stopped hp (Nat.lt_of_lt_of_le i.isLt (Nat.le_of_not_lt hlt))
  | notifyAll hp =>
    refine ⟨fun i _ => h.stopped hp trivial, ?_⟩
    intro _ i hi
    exact hok ⟨hp, i, asleep_woken hi⟩
  | join hp hlt _ =>
    have hafter : AfterNotify s.main := by
      rw [hp]
      trivial
    exact h.after hafter rfl (fun i hi => stop_of_request s _ (.inr hi))
  | joined hp _ =>
    have hafter : AfterNotify s.main := by
      rw [hp]
      trivial
    exact h.after hafter rfl (fun _ hi => hi)
  | acquire => exact (h.set_mutex _).at_worker False.elim
  | @sleepy i hw hstop _ =>
    refine ⟨h.told, ?_⟩
    intro hafter
    have htold := h.told i (told_of_after hafter i)
    rw [hstop] at htold
    cases htold
  | park hw =>
    refine (h.set_mutex none).at_worker ?_
    intro _
    change Asleep (s.workers _)
    rw [hw]
    trivial
  | ready | leave | proceed | undefined | invoke | finish =>
    exact h.at_worker False.elim
  | @take i id rest hw _ =>
    have hpopped : Awake { s with tasks := rest } := h.rewire rfl rfl (fun _ hpc => hpc)
    exact hpopped.at_worker False.elim
  | unlockReturn | unlockRun => exact (h.set_mutex none).at_worker False.elim
  | enqueue | notifyNobody => exact h.set_enqueue _ _
  | lock | unlock => exact (h.set_mutex _).set_enqueue _ _
  | @push t he =>
    have hpushed : Awake { s with tasks := s.tasks ++ [s.pushed], pushed := s.pushed + 1 } :=
      h.rewire rfl rfl (fun _ hpc => hpc)
    exact hpushed.set_enqueue _ _
  | notify => exact (h.wake _).set_enqueue _ _
  | spurious => exact h.wake _

/-- The worker that missed the `notify_all` parks with its next step. -/
theorem missed_parks (hmissed : Missed s a) (hs : step s a = some (s', es)) :
    ∃ i s'' es', step s' (.worker i) = some (s'', es') ∧ AfterNotify s''.main ∧
      s''.workers i = .parked := by
  unfold Missed at hmissed
  split at hmissed
  · obtain ⟨hmain, i, hw⟩ := hmissed
    have hnotify : step s .main = some (s.wakeAll.atMain (.joining 0), []) := by
      simp only [step, stepMain, hmain]
    rw [hnotify] at hs
    cases hs
    have hpark : (s.wakeAll.atMain (.joining 0)).workers i = .park := by
      change (s.workers i).woken = .park
      rw [hw]
      rfl
    refine ⟨i, ((s.wakeAll.atMain (.joining 0)).setMutex none).atWorker i .parked, [], ?_,
      trivial, ?_⟩
    · simp only [step, stepWorker, hpark]
    · rw [workers_at_worker, if_pos rfl]
  · exact hmissed.elim

theorem run_awake {threads : Nat} {s : State (workerCount threads) k}
    {tr : List (Event (workerCount threads) k)}
    (hr : (machine threads k).RunWhere (fun s a => ¬ Missed s a) tr s) : Awake s := by
  refine Machine.Steps.invariant (I := fun _ s => Awake s) ?_ ?_ hr
  · exact .before (fun _ => False.elim) id
  · intro tr s a s' es _ h hok hs
    exact move_awake h hok (step_moves hs)

/-- Nobody sleeps through the shutdown in exactly the runs in which no worker is
between its test of the predicate and its parking at the `notify_all`. -/
theorem shutdown_wakes (threads k : Nat) :
    (∀ tr s, (machine threads k).RunWhere (fun s a => ¬ Missed s a) tr s →
      AfterNotify s.main → ∀ i, s.workers i ≠ .parked) ∧
    (∀ tr s a s' es, (machine threads k).Run tr s → Missed s a →
      (machine threads k).step s a = some (s', es) →
      ∃ i s'' es', (machine threads k).step s' (.worker i) = some (s'', es') ∧
        AfterNotify s''.main ∧ s''.workers i = .parked) := by
  refine ⟨?_, ?_⟩
  · intro tr s hr hafter i hi
    apply (run_awake hr).awake hafter i
    rw [hi]
    trivial
  · intro tr s a s' es _ hmissed hs
    exact missed_parks hmissed hs

/-- The only worker finds the predicate false, and the destructor gets to its
`notify_all` before it parks. -/
def destroyBeforePark (i : Fin 1) : List (Act 1 0) :=
  [.main, .main, .worker i, .worker i, .destroy, .main, .main]

/-- The destructor gets through its `notify_all` before the worker takes the mutex. -/
def destroyBeforeLock : List (Act 1 0) := [.main, .main, .destroy, .main, .main, .main]

theorem shutdown_wakes_one_worker :
    (∃ tr s, (machine 1 0).RunWhere (fun s a => ¬ Missed s a) tr s ∧ AfterNotify s.main ∧
      ∀ i, s.workers i ≠ .parked) ∧
    ∃ tr s s' es, (machine 1 0).Run tr s ∧ (machine 1 0).step s .main = some (s', es) ∧
      ∃ i s'' es', (machine 1 0).step s' (.worker i) = some (s'', es') ∧
        AfterNotify s''.main ∧ s''.workers i = .parked := by
  refine ⟨?_, ?_⟩
  · have hr : (machine 1 0).RunWhere (fun s a => ¬ Missed s a) _ _ :=
      Machine.run_where_of_exec destroyBeforeLock rfl
    exact ⟨_, _, hr, trivial, (shutdown_wakes 1 0).1 _ _ hr trivial⟩
  · have hr : (machine 1 0).Run _ _ := Machine.run_of_exec (destroyBeforePark 0) rfl
    exact ⟨_, _, _, _, hr, rfl,
      (shutdown_wakes 1 0).2 _ _ .main _ _ hr ⟨rfl, ⟨0, Nat.one_pos⟩, rfl⟩ rfl⟩

/-- Once every worker is parked and the destructor waits for one, nothing but a
spurious wakeup is left. -/
theorem parked_stuck {s s' : State n 0} {a : Act n 0} {es : List (Event n 0)} {i : Nat}
    (hmain : s.main = .joining i) (hi : i < n) (hw : ∀ j, s.workers j = .parked)
    (hm : Move s a s' es) : ∃ j, a = .spurious j := by
  have hnone : ∀ t, s.enqueueOf t = none := by
    rintro (j | j)
    · simp [State.enqueueOf, hw]
    · exact j.elim0
  cases hm with
  | spurious => exact ⟨_, rfl⟩
  | join hp hlt hret =>
    rw [hw] at hret
    cases hret
  | joined hp hlt =>
    rw [hmain] at hp
    cases hp
    exact absurd hi hlt
  | start hp | built hp | spawnFails hp | destroy hp | requestStop hp | stopped hp | notifyAll hp
  | unwindStop hp | unwound hp | unwindJoin hp =>
    rw [hmain] at hp
    cases hp
  | acquire hwi =>
    rw [hw] at hwi
    rcases hwi with hwi | hwi <;> cases hwi
  | ready hwi | sleepy hwi | park hwi | leave hwi | proceed hwi | take hwi | undefined hwi
  | unlockReturn hwi | unlockRun hwi | invoke hwi | finish hwi =>
    rw [hw] at hwi
    cases hwi
  | @enqueue t hmay =>
    rcases t with j | j
    · obtain ⟨id, hwj⟩ := hmay
      rw [hw] at hwj
      cases hwj
    · exact j.elim0
  | lock he | push he | unlock he | notify he | notifyNobody he =>
    rw [hnone] at he
    cases he

/-- The worker is parked, the destructor waits for it, and no other step is left. -/
theorem sleeper_after_notify : ∃ tr s, (machine 1 0).Run tr s ∧ AfterNotify s.main ∧
    (∃ i, s.workers i = .parked) ∧
    ∀ a s' es, (machine 1 0).step s a = some (s', es) → ∃ i, a = .spurious i := by
  have hr : (machine 1 0).Run _ _ :=
    Machine.run_of_exec (destroyBeforePark 0 ++ [.main, .worker 0]) rfl
  refine ⟨_, _, hr, trivial, ⟨⟨0, Nat.one_pos⟩, rfl⟩, ?_⟩
  intro a s' es hs
  refine parked_stuck rfl Nat.one_pos ?_ (step_moves hs)
  rintro ⟨j, hj⟩
  obtain rfl : j = 0 := Nat.lt_one_iff.mp hj
  rfl

end Toolbox.Proofs.PoolShutdown
