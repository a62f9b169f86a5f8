import Mathlib.Algebra.Order.BigOperators.Group.Finset
import Toolbox.Base.Effort
import Toolbox.Proofs.PoolSleepers

namespace Toolbox.Proofs.PoolEffort
open Base Pool PoolMoves PoolMutex PoolDrain PoolSleepers

variable {n k : Nat} {s s' : State n k} {a : Act n k} {es : List (Event n k)}

/-- How many steps a worker has before it at most, until it sleeps or takes a task. -/
def workerEffort : WorkerPc → Nat
  | .lock | .relock => 4
  | .test => 3
  | .check => 2
  | .park | .take | .unlockReturn => 1
  | .unlockRun _ => 7
  | .invoke _ => 6
  | .running _ _ => 5
  | .notStarted | .parked | .returned => 0

/-- The steps of a call of `enqueue` with those that its task and its notification
call for. -/
def callEffort : Option EnqueuePc → Nat
  | some .lock => 15
  | some .push => 14
  | some .unlock => 6
  | some .notifyOne => 5
  | none => 0

/-- The same for the thread that owns the pool of `n` workers. -/
def mainEffort (n : Nat) : MainPc → Nat
  | .constructing i => 5 * (n - i) + 2 * n + 2
  | .stopping i => n - i + 1 + (5 * n + 2)
  | .notifyAll => 5 * n + 2
  | .joining i => n - i + 1
  | .unwindStop i started => 2 * (started - i) + 1
  | .unwindJoin i started => 2 * (started - (i + 1)) + 2
  | .running | .done | .failed => 0

/-- What all threads together still have to do. A task in the queue stands for the
seven steps of the worker that takes it. -/
def effort (s : State n k) : Nat :=
  mainEffort n s.main + ∑ i, workerEffort (s.workers i) + ∑ t, callEffort (s.enqueueOf t) +
    7 * s.tasks.length

/-- What a choice adds that is nobody's next step: a new call of `enqueue`, the start
of the destructor, or a wakeup for no reason. -/
def brings (n : Nat) : Act n k → Nat
  | .enqueue _ => 16
  | .destroy => 6 * n + 4
  | .spurious _ => 5
  | _ => 0

theorem worker_effort_phase (pc : WorkerPc) : workerEffort (phase pc) = workerEffort pc := by
  cases pc <;> rfl

theorem worker_effort_at_worker (s : State n k) (i : Fin n) (pc : WorkerPc) :
    ∑ j, workerEffort ((s.atWorker i pc).workers j) + workerEffort (s.workers i) =
      ∑ j, workerEffort (s.workers j) + workerEffort pc :=
  sum_update workerEffort s.workers i pc

theorem worker_effort_set_enqueue (s : State n k) (t : Thread n k) (e : Option EnqueuePc) :
    ∑ i, workerEffort ((s.setEnqueue t e).workers i) = ∑ i, workerEffort (s.workers i) := by
  apply Finset.sum_congr rfl
  intro i _
  rw [← worker_effort_phase, phase_set_enqueue, worker_effort_phase]

theorem call_effort_at_worker (s : State n k) (i : Fin n) (pc : WorkerPc)
    (h : nested pc = nested (s.workers i)) :
    ∑ t, callEffort ((s.atWorker i pc).enqueueOf t) = ∑ t, callEffort (s.enqueueOf t) := by
  apply Finset.sum_congr rfl
  intro t _
  rw [enqueue_of_at_worker]
  split
  · subst t
    rw [h, enqueue_of_worker]
  · rfl

theorem call_effort_set_enqueue {t : Thread n k} {e : Option EnqueuePc} (h : Inside s t) :
    ∑ u, callEffort ((s.setEnqueue t e).enqueueOf u) + callEffort (s.enqueueOf t) =
      ∑ u, callEffort (s.enqueueOf u) + callEffort e := by
  have hsum := sum_change (f := fun u => callEffort (s.enqueueOf u))
    (g := fun u => callEffort ((s.setEnqueue t e).enqueueOf u)) t
    (fun u hu => by simp [enqueue_of_set_enqueue h, hu])
  simpa [enqueue_of_set_enqueue h] using hsum

@[simp] theorem enqueue_of_set_mutex (s : State n k) (o : Option (Thread n k)) (t : Thread n k) :
    (s.setMutex o).enqueueOf t = s.enqueueOf t := by
  cases t <;> rfl

@[simp] theorem enqueue_of_at_main (s : State n k) (p : MainPc) (t : Thread n k) :
    (s.atMain p).enqueueOf t = s.enqueueOf t := by
  cases t <;> rfl

/-- A worker's step within a call or outside all tasks. -/
theorem effort_at_worker (s : State n k) (i : Fin n) (pc : WorkerPc)
    (h : nested pc = nested (s.workers i)) :
    effort (s.atWorker i pc) + workerEffort (s.workers i) = effort s + workerEffort pc := by
  have hworkers := worker_effort_at_worker s i pc
  have hcalls := call_effort_at_worker s i pc h
  have hmain : (s.atWorker i pc).main = s.main := rfl
  have htasks : (s.atWorker i pc).tasks = s.tasks := rfl
  unfold effort
  rw [hcalls, hmain, htasks]
  omega

theorem effort_set_enqueue {t : Thread n k} {e : Option EnqueuePc} (h : Inside s t) :
    effort (s.setEnqueue t e) + callEffort (s.enqueueOf t) = effort s + callEffort e := by
  have hcalls := call_effort_set_enqueue (e := e) h
  unfold effort
  rw [worker_effort_set_enqueue, main_set_enqueue, tasks_set_enqueue]
  omega

@[simp] theorem effort_set_mutex (s : State n k) (o : Option (Thread n k)) :
    effort (s.setMutex o) = effort s := by
  unfold effort
  simp only [enqueue_of_set_mutex]
  rfl

theorem effort_at_main (s : State n k) (p : MainPc) :
    effort (s.atMain p) + mainEffort n s.main = effort s + mainEffort n p := by
  unfold effort
  simp only [enqueue_of_at_main, workers_at_main]
  have hmain : (s.atMain p).main = p := rfl
  have htasks : (s.atMain p).tasks = s.tasks := rfl
  rw [hmain, htasks]
  omega

@[simp] theorem effort_request_stop (s : State n k) (i : Fin n) :
    effort (s.requestStop i) = effort s := rfl

/-- The queue changes, and whoever changed it goes on. -/
theorem effort_set_tasks (s : State n k) (tasks : List Nat) (pushed : Nat) :
    effort { s with tasks := tasks, pushed := pushed } + 7 * s.tasks.length =
      effort s + 7 * tasks.length := by
  unfold effort
  have hcalls : ∀ t, ({ s with tasks := tasks, pushed := pushed } : State n k).enqueueOf t =
      s.enqueueOf t := by
    intro t
    cases t <;> rfl
  simp only [hcalls]
  omega

theorem worker_effort_woken (pc : WorkerPc) : workerEffort pc.woken ≤ workerEffort pc + 4 := by
  cases pc <;> simp [WorkerPc.woken, workerEffort]

theorem nested_woken (pc : WorkerPc) : nested pc.woken = nested pc := by
  cases pc <;> rfl

theorem enqueue_of_wake (s : State n k) (i : Fin n) (t : Thread n k) :
    (s.wake i).enqueueOf t = s.enqueueOf t := by
  unfold State.wake
  rw [enqueue_of_at_worker, nested_woken, ← enqueue_of_worker]
  exact ite_eq_right_iff.mpr (fun h => by rw [h])

/-- `notify_all` gives every worker four steps at most. -/
theorem effort_wake_all (s : State n k) : effort s.wakeAll ≤ effort s + 4 * n := by
  have hcalls : ∀ t, s.wakeAll.enqueueOf t = s.enqueueOf t := by
    intro t
    cases t with
    | worker i =>
      rw [enqueue_of_worker, enqueue_of_worker]
      exact nested_woken _
    | outside j => rfl
  have hworkers : ∑ i, workerEffort (s.wakeAll.workers i) ≤
      ∑ i, workerEffort (s.workers i) + 4 * n :=
    calc ∑ i, workerEffort (s.wakeAll.workers i)
      _ ≤ ∑ i : Fin n, (workerEffort (s.workers i) + 4) :=
        Finset.sum_le_sum (fun i _ => worker_effort_woken _)
      _ = ∑ i, workerEffort (s.workers i) + 4 * n := by
        rw [Finset.sum_add_distrib, Finset.sum_const_nat (fun _ _ => rfl), Finset.card_univ,
          Fintype.card_fin, Nat.mul_comm]
  unfold effort
  have hmain : s.wakeAll.main = s.main := rfl
  have htasks : s.wakeAll.tasks = s.tasks := rfl
  simp only [hcalls]
  rw [hmain, htasks]
  omega

theorem effort_wake {i : Fin n} (hw : s.workers i = .parked) :
    effort (s.wake i) = effort s + 4 := by
  have heffort := effort_at_worker s i (s.workers i).woken (nested_woken _)
  rw [hw] at heffort
  simp only [WorkerPc.woken, workerEffort] at heffort
  unfold State.wake
  rw [hw]
  simpa [WorkerPc.woken] using heffort

/-- A worker's step with the mutex taken or released. -/
theorem pays_worker {o : Option (Thread n k)} {i : Fin n} {pc : WorkerPc}
    (hnested : nested pc = nested (s.workers i))
    (hless : workerEffort pc + 1 ≤ workerEffort (s.workers i)) :
    effort ((s.setMutex o).atWorker i pc) + 1 ≤ effort s := by
  have heffort := effort_at_worker (s.setMutex o) i pc hnested
  rw [effort_set_mutex, workers_set_mutex] at heffort
  omega

theorem pays_call {o : Option (Thread n k)} {t : Thread n k} {e : Option EnqueuePc}
    (hin : Inside s t) (hless : callEffort e + 1 ≤ callEffort (s.enqueueOf t)) :
    effort ((s.setMutex o).setEnqueue t e) + 1 ≤ effort s := by
  have heffort := effort_set_enqueue (s := s.setMutex o) (e := e) (t := t) hin
  rw [effort_set_mutex, enqueue_of_set_mutex] at heffort
  omega

theorem pays_main {p : MainPc} (hless : mainEffort n p + 1 ≤ mainEffort n s.main) :
    effort (s.atMain p) + 1 ≤ effort s := by
  have heffort := effort_at_main s p
  omega

/-- Every step that is somebody's next one leaves less to do. -/
theorem move_pays (hstart : Unstarted s) (hm : Move s a s' es) :
    effort s' + 1 ≤ effort s + brings n a := by
  cases hm with
  | @start i hp hlt =>
    have hmain := effort_at_main (s.atWorker ⟨i, hlt⟩ .lock) (.constructing (i + 1))
    have hnew : s.workers ⟨i, hlt⟩ = .notStarted := hstart i hp ⟨i, hlt⟩ (Nat.le_refl i)
    have hworker := effort_at_worker s ⟨i, hlt⟩ .lock (by rw [hnew]; rfl)
    have hold : (s.atWorker ⟨i, hlt⟩ .lock).main = .constructing i := hp
    rw [hnew] at hworker
    rw [hold] at hmain
    simp only [workerEffort, mainEffort] at hworker hmain
    omega
  | built hp _ | stopped hp _ | joined hp _ | unwound hp =>
    refine Nat.le_trans (pays_main ?_) (Nat.le_add_right _ _)
    rw [hp]
    simp only [mainEffort]
    omega
  | spawnFails hp _ | unwindJoin hp _ _ =>
    refine Nat.le_trans (pays_main ?_) (Nat.le_add_right _ _)
    rw [hp]
    simp only [mainEffort]
    omega
  | destroy hp _ =>
    have hmain := effort_at_main s (.stopping 0)
    rw [hp] at hmain
    simp only [mainEffort, brings] at hmain ⊢
    omega
  | requestStop hp _ | join hp _ _ | unwindStop hp _ _ =>
    refine Nat.le_trans (pays_main (s := s.requestStop _) ?_) (Nat.le_add_right _ _)
    have hsame : (s.requestStop ⟨_, ‹_›⟩).main = s.main := rfl
    rw [hsame, hp]
    simp only [mainEffort]
    omega
  | notifyAll hp =>
    have hmain := effort_at_main s.wakeAll (.joining 0)
    have hwake := effort_wake_all s
    have hsame : s.wakeAll.main = s.main := rfl
    rw [hsame, hp] at hmain
    simp only [mainEffort] at hmain
    omega
  | acquire hw _ =>
    rcases hw with hw | hw
    all_goals
      refine Nat.le_trans (pays_worker ?_ ?_) (Nat.le_add_right _ _)
      all_goals
        rw [hw]
      · rfl
      · simp [workerEffort]
  | ready hw _ | sleepy hw _ _ | leave hw _ _ | proceed hw _ | invoke hw | finish hw =>
    refine Nat.le_trans (pays_worker (o := s.mutex) ?_ ?_) (Nat.le_add_right _ _)
    all_goals
      rw [hw]
    · rfl
    · simp [workerEffort]
  | park hw | unlockReturn hw | unlockRun hw =>
    refine Nat.le_trans (pays_worker ?_ ?_) (Nat.le_add_right _ _)
    all_goals
      rw [hw]
    · rfl
    · simp [workerEffort]
  | undefined hw _ =>
    refine Nat.le_trans (pays_worker (o := s.mutex) ?_ ?_) (Nat.le_add_right _ _)
    all_goals
      rw [hw]
    · rfl
    · simp [workerEffort]
  | @take i id rest hw hfront =>
    have hworker := effort_at_worker { s with tasks := rest } i (.unlockRun id) (by
      change _ = nested (s.workers i)
      rw [hw]
      rfl)
    have htasks := effort_set_tasks s rest s.pushed
    have hsame : ({ s with tasks := rest } : State n k).workers i = .take := hw
    rw [hsame] at hworker
    rw [hfront, List.length_cons] at htasks
    simp only [workerEffort] at hworker
    change effort { s with tasks := rest } + 7 * (rest.length + 1) = _ at htasks
    omega
  | enqueue hmay =>
    have hcall := effort_set_enqueue (e := some .lock) (inside_of_may hmay)
    rw [owes_of_may hmay] at hcall
    simp only [callEffort, brings] at hcall ⊢
    omega
  | lock he _ | unlock he =>
    refine Nat.le_trans (pays_call (inside_of_enqueue he) ?_) (Nat.le_add_right _ _)
    rw [he]
    simp [callEffort]
  | notifyNobody he _ =>
    refine Nat.le_trans (pays_call (o := s.mutex) (inside_of_enqueue he) ?_)
      (Nat.le_add_right _ _)
    rw [he]
    simp [callEffort]
  | @push t he =>
    have htasks := effort_set_tasks s (s.tasks ++ [s.pushed]) (s.pushed + 1)
    have hin : Inside { s with tasks := s.tasks ++ [s.pushed], pushed := s.pushed + 1 } t := by
      cases t with
      | worker i => exact inside_of_enqueue he
      | outside j => trivial
    have hcall := effort_set_enqueue (e := some .unlock) hin
    have hsame : ({ s with tasks := s.tasks ++ [s.pushed], pushed := s.pushed + 1 } :
        State n k).enqueueOf t = some .push := by
      cases t <;> exact he
    rw [hsame] at hcall
    rw [List.length_append, List.length_singleton] at htasks
    simp only [callEffort] at hcall
    omega
  | @notify t i he hw =>
    have hin := inside_wake (i := i) (inside_of_enqueue he)
    have hcall := effort_set_enqueue (e := none) hin
    rw [enqueue_of_wake, he, effort_wake hw] at hcall
    simp only [callEffort] at hcall
    omega
  | spurious hw =>
    rw [effort_wake hw]
    exact Nat.le_refl _

section Runs

variable {threads : Nat} {s s' : State (workerCount threads) k}
  {tr fs : List (Event (workerCount threads) k)}

/-- A pool that is used by nobody new and woken by nobody falls silent. -/
theorem funded (threads k : Nat) :
    (machine threads k).Funded (fun s => ∃ tr, (machine threads k).Run tr s) (fun _ => 1)
      (brings (workerCount threads)) effort where
  keeps := fun ⟨_, hr⟩ hs => ⟨_, hr.next hs⟩
  pays := fun ⟨_, hr⟩ hs => move_pays (run_sound hr).unstarted (step_moves hs)

end Runs

end Toolbox.Proofs.PoolEffort
