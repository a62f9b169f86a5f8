import Mathlib.Data.List.Range
import Toolbox.Base.Keyed
import Toolbox.Proofs.PoolMutex

namespace Toolbox.Proofs.PoolDrain
open Base Keyed Pool PoolMoves PoolMutex

variable {n k : Nat} {s s' : State n k} {a : Act n k} {tr es : List (Event n k)}

/-- Under destruction or unwinding, where stop requests are made. -/
def Ending : MainPc → Prop
  | .constructing _ | .running => False
  | _ => True

/-- Past the point where the worker saw an empty queue for the last time. -/
def Finished : WorkerPc → Prop
  | .unlockReturn | .returned => True
  | _ => False

/-- What a worker has seen and still relies on. -/
def WorkerOk (s : State n k) (i : Fin n) : WorkerPc → Prop
  | .check => s.stop i = true ∨ s.tasks ≠ []
  | .take => s.tasks ≠ []
  | .unlockReturn | .returned => s.stop i = true
  | _ => True

structure Inv (s : State n k) : Prop where
  ending : ∀ i, s.stop i = true → Ending s.main
  outside : ∀ j, s.outside j ≠ none → s.main = .running
  worker : ∀ i, WorkerOk s i (s.workers i)
  drained : (∀ i, Finished (s.workers i)) → s.tasks = []

theorem WorkerOk.keep {i : Fin n} {pc : WorkerPc} (h : WorkerOk s i pc)
    (hstop : s.stop i = true → s'.stop i = true) (htasks : s.tasks ≠ [] → s'.tasks ≠ []) :
    WorkerOk s' i pc := by
  cases pc with
  | check => exact h.imp hstop htasks
  | take => exact htasks h
  | unlockReturn | returned => exact hstop h
  | _ => trivial

theorem worker_ok_phase {i : Fin n} {pc : WorkerPc} : WorkerOk s i (phase pc) ↔ WorkerOk s i pc := by
  cases pc <;> exact Iff.rfl

theorem finished_phase {pc : WorkerPc} : Finished (phase pc) ↔ Finished pc := by
  cases pc <;> exact Iff.rfl

theorem Inv.quiet (hi : Inv s) (h : s.main ≠ .running) (j : Fin k) : s.outside j = none := by
  by_contra hout
  exact h (hi.outside j hout)

theorem Inv.at_main (hi : Inv s) {pc : MainPc} (hend : Ending s.main → Ending pc)
    (hquiet : ∀ j, s.outside j = none) : Inv (s.atMain pc) := by
  refine ⟨fun i h => hend (hi.ending i h), ?_, ?_, hi.drained⟩
  · intro j hj
    exact absurd (hquiet j) hj
  · exact fun i => (hi.worker i).keep id id

theorem Inv.request_stop (hi : Inv s) (h : Ending s.main) (i : Fin n) :
    Inv (s.requestStop i) := by
  refine ⟨fun _ _ => h, hi.outside, ?_, hi.drained⟩
  intro j
  exact (hi.worker j).keep (fun hj => stop_of_request s i (.inr hj)) id

theorem Inv.set_mutex (hi : Inv s) (o : Option (Thread n k)) : Inv (s.setMutex o) :=
  ⟨hi.ending, hi.outside, fun i => (hi.worker i).keep id id, hi.drained⟩

/-- Steps that leave the queue, the stop requests and the main thread alone. -/
theorem Inv.rewire (hi : Inv s) (hstop : s'.stop = s.stop) (hmain : s'.main = s.main)
    (htasks : s'.tasks = s.tasks) (hout : ∀ j, s'.outside j ≠ none → s.main = .running)
    (hok : ∀ i, WorkerOk s i (s'.workers i))
    (hfin : ∀ i, Finished (s'.workers i) → Finished (s.workers i) ∨ s.tasks = []) : Inv s' := by
  refine ⟨?_, ?_, ?_, ?_⟩
  · rw [hstop, hmain]
    exact hi.ending
  · intro j hj
    rw [hmain]
    exact hout j hj
  · intro i
    exact (hok i).keep (by rw [hstop]; exact id) (by rw [htasks]; exact id)
  · intro hall
    rw [htasks]
    by_contra hne
    apply hne
    apply hi.drained
    intro i
    exact (hfin i (hall i)).resolve_right hne

theorem Inv.at_worker (hi : Inv s) {i : Fin n} {pc : WorkerPc} (hok : WorkerOk s i pc)
    (hfin : Finished pc → Finished (s.workers i) ∨ s.tasks = []) : Inv (s.atWorker i pc) := by
  refine hi.rewire rfl rfl rfl hi.outside ?_ ?_
  all_goals
    intro j
    by_cases he : j = i
  · subst he
    simpa using hok
  · simpa [he] using hi.worker j
  · subst he
    simpa using hfin
  · simpa [he] using Or.inl

theorem worker_ok_woken {i : Fin n} {pc : WorkerPc} (h : WorkerOk s i pc) :
    WorkerOk s i pc.woken := by
  cases pc <;> exact h

theorem finished_woken {pc : WorkerPc} (h : Finished pc.woken) : Finished pc := by
  cases pc <;> exact h

theorem Inv.wake (hi : Inv s) (i : Fin n) : Inv (s.wake i) :=
  hi.at_worker (worker_ok_woken (hi.worker i)) (fun h => .inl (finished_woken h))

theorem Inv.wake_all (hi : Inv s) : Inv s.wakeAll :=
  hi.rewire rfl rfl rfl hi.outside (fun i => worker_ok_woken (hi.worker i))
    (fun _ h => .inl (finished_woken h))

theorem outside_set_enqueue {t : Thread n k} {e : Option EnqueuePc} {j : Fin k}
    (h : (s.setEnqueue t e).outside j ≠ none) : s.outside j ≠ none ∨ t = .outside j := by
  unfold State.setEnqueue at h
  split at h
  · split at h <;> exact .inl h
  · rename_i l
    by_cases he : j = l
    · subst he
      exact .inr rfl
    · left
      simpa [Function.update_apply, he] using h

/-- A step inside `enqueue` changes nothing a worker relies on. -/
theorem Inv.set_enqueue (hi : Inv s) {t : Thread n k} {e : Option EnqueuePc}
    (hrun : ∀ j, t = .outside j → s.main = .running) : Inv (s.setEnqueue t e) := by
  refine hi.rewire (by simp) (by simp) (by simp) ?_ ?_ ?_
  · intro j hj
    rcases outside_set_enqueue hj with hj | hj
    · exact hi.outside j hj
    · exact hrun j hj
  · intro i
    apply worker_ok_phase.mp
    rw [phase_set_enqueue]
    exact worker_ok_phase.mpr (hi.worker i)
  · intro i hfin
    left
    apply finished_phase.mp
    rw [← phase_set_enqueue s t e]
    exact finished_phase.mpr hfin

/-- Whoever is in a call of `enqueue` either is a task or was let in before the
destructor. -/
theorem Inv.enqueue_running (hi : Inv s) {t : Thread n k} {e : EnqueuePc}
    (he : s.enqueueOf t = some e) (j : Fin k) (ht : t = .outside j) : s.main = .running := by
  subst ht
  have hout : s.outside j = some e := he
  exact hi.outside j (by simp [hout])

/-- A push happens while some worker has not finished. -/
theorem Inv.pusher_unfinished (hi : Inv s) (hn : 0 < n) {t : Thread n k} {e : EnqueuePc}
    (he : s.enqueueOf t = some e) : ∃ i, ¬ Finished (s.workers i) := by
  cases t with
  | worker i =>
    obtain ⟨task, e', hw⟩ := inside_of_enqueue he
    refine ⟨i, ?_⟩
    rw [hw]
    exact id
  | outside j =>
    have hrun := hi.enqueue_running he j rfl
    refine ⟨⟨0, hn⟩, ?_⟩
    intro hfin
    have hok := hi.worker ⟨0, hn⟩
    have hstop : s.stop ⟨0, hn⟩ = true := by
      cases hw : s.workers ⟨0, hn⟩ <;> rw [hw] at hok hfin <;> first | exact hok | exact hfin.elim
    have hend := hi.ending _ hstop
    rw [hrun] at hend
    exact hend

theorem Inv.push (hi : Inv s) (hn : 0 < n) {t : Thread n k}
    (he : s.enqueueOf t = some .push) :
    Inv ({ s with tasks := s.tasks ++ [s.pushed], pushed := s.pushed + 1 }.setEnqueue t
      (some .unlock)) := by
  have hpushed : Inv { s with tasks := s.tasks ++ [s.pushed], pushed := s.pushed + 1 } := by
    refine ⟨hi.ending, hi.outside, ?_, ?_⟩
    · exact fun i => (hi.worker i).keep id (by simp)
    · intro hall
      obtain ⟨i, hi⟩ := hi.pusher_unfinished hn he
      exact absurd (hall i) hi
  exact hpushed.set_enqueue (fun j ht => hi.enqueue_running he j ht)

/-- Only the holder of the mutex may rely on the queue, so a take disturbs nobody. -/
theorem Inv.take (hi : Inv s) (hex : Exclusive s) {i : Fin n} {id : Nat} {rest : List Nat}
    (hw : s.workers i = .take) :
    Inv ({ s with tasks := rest }.atWorker i (.unlockRun id)) := by
  have hold : Holds s (.worker i) := by
    change workerHolds (s.workers i)
    rw [hw]
    trivial
  refine ⟨hi.ending, hi.outside, ?_, ?_⟩
  · intro j
    by_cases he : j = i
    · subst he
      rw [workers_at_worker, if_pos rfl]
      trivial
    · have hfree : ¬ Holds s (.worker j) := by
        intro hj
        exact he (Thread.worker.inj (hex.eq hj hold))
      have hok := hi.worker j
      rw [workers_at_worker, if_neg he]
      change WorkerOk _ j (s.workers j)
      cases hwj : s.workers j with
      | check | take =>
        apply hfree.elim
        change workerHolds (s.workers j)
        rw [hwj]
        trivial
      | unlockReturn | returned =>
        rw [hwj] at hok
        exact hok
      | _ => trivial
  · intro hall
    have := hall i
    simp [Finished] at this

theorem move_inv (hn : 0 < n) (hi : Inv s) (hex : Exclusive s) (hm : Move s a s' es) :
    Inv s' := by
  cases hm with
  | @start i hp hlt =>
    have hlock : Inv (s.atWorker ⟨i, hlt⟩ .lock) := hi.at_worker trivial (fun h => h.elim)
    apply hlock.at_main
    · change Ending s.main → _
      rw [hp]
      exact id
    · exact hi.quiet (by simp [hp])
  | built hp _ =>
    apply hi.at_main
    · rw [hp]
      exact id
    · exact hi.quiet (by simp [hp])
  | spawnFails hp _ | stopped hp _ | joined hp _ | unwound hp | unwindJoin hp _ _ =>
    exact hi.at_main (fun _ => trivial) (hi.quiet (by simp [hp]))
  | destroy hp hout => exact hi.at_main (fun _ => trivial) hout
  | requestStop hp hlt | join hp hlt _ | unwindStop hp hlt _ =>
    have hend : Ending s.main := by
      rw [hp]
      trivial
    exact (hi.request_stop hend _).at_main (fun _ => trivial) (hi.quiet (by simp [hp]))
  | notifyAll hp =>
    exact hi.wake_all.at_main (fun _ => trivial) (hi.quiet (by simp [hp]))
  | acquire hw _ => exact (hi.set_mutex _).at_worker trivial (fun h => h.elim)
  | ready hw hpred => exact hi.at_worker hpred (fun h => h.elim)
  | sleepy hw _ _ | invoke hw | finish hw => exact hi.at_worker trivial (fun h => h.elim)
  | park hw | unlockRun hw => exact (hi.set_mutex _).at_worker trivial (fun h => h.elim)
  | leave hw hstop hnone => exact hi.at_worker hstop (fun _ => .inr hnone)
  | @proceed i hw hpred =>
    have hok := hi.worker i
    rw [hw] at hok
    refine hi.at_worker ?_ (fun h => h.elim)
    intro hnone
    exact hpred ⟨hok.resolve_right (fun h => h hnone), hnone⟩
  | take hw _ => exact hi.take hex hw
  | @undefined i hw hnone =>
    have hok := hi.worker i
    rw [hw] at hok
    exact absurd hnone hok
  | @unlockReturn i hw =>
    have hok := hi.worker i
    rw [hw] at hok
    refine (hi.set_mutex none).at_worker hok (fun _ => .inl ?_)
    change Finished (s.workers i)
    rw [hw]
    trivial
  | @enqueue t hmay =>
    apply hi.set_enqueue
    rintro j rfl
    exact hmay.1
  | lock he _ | unlock he => exact (hi.set_mutex _).set_enqueue (hi.enqueue_running he)
  | push he => exact hi.push hn he
  | @notify t i he hw => exact (hi.wake i).set_enqueue (hi.enqueue_running he)
  | notifyNobody he _ => exact hi.set_enqueue (hi.enqueue_running he)
  | spurious hw => exact hi.wake _

/-- Workers are started in order, each once. -/
def Unstarted (s : State n k) : Prop :=
  ∀ i, s.main = .constructing i → ∀ j : Fin n, i ≤ j.val → s.workers j = .notStarted

theorem Unstarted.rewire (h : Unstarted s) (hmain : s'.main = s.main)
    (hold : ∀ j, s.workers j = .notStarted → s'.workers j = .notStarted) : Unstarted s' := by
  intro i hp j hle
  rw [hmain] at hp
  exact hold j (h i hp j hle)

theorem unstarted_at_worker {i j : Fin n} {pc : WorkerPc} (hne : s.workers i ≠ .notStarted)
    (hj : s.workers j = .notStarted) : (s.atWorker i pc).workers j = .notStarted := by
  have he : j ≠ i := by
    rintro rfl
    exact hne hj
  simpa [he] using hj

theorem unstarted_wake {i j : Fin n} (hj : s.workers j = .notStarted) :
    (s.wake i).workers j = .notStarted := by
  by_cases he : j = i
  · subst he
    simp [State.wake, hj, WorkerPc.woken]
  · simpa [State.wake, he] using hj

theorem unstarted_set_enqueue {t : Thread n k} {e : Option EnqueuePc} {j : Fin n}
    (hj : s.workers j = .notStarted) : (s.setEnqueue t e).workers j = .notStarted := by
  have hphase := phase_set_enqueue s t e j
  rw [hj] at hphase
  cases hw : (s.setEnqueue t e).workers j <;> rw [hw] at hphase <;> first | rfl | cases hphase

theorem move_unstarted (h : Unstarted s) (hm : Move s a s' es) : Unstarted s' := by
  cases hm with
  | @start i hp hlt =>
    intro l hl j hle
    cases hl
    have he : j ≠ ⟨i, hlt⟩ := by
      rintro rfl
      exact absurd hle (Nat.not_succ_le_self _)
    rw [workers_at_main, workers_at_worker, if_neg he]
    exact h i hp j (Nat.le_of_succ_le hle)
  | built | spawnFails | destroy | requestStop | stopped | notifyAll | join | joined | unwindStop
  | unwound | unwindJoin =>
    intro l hl
    cases hl
  | acquire hw _ =>
    refine h.rewire rfl (fun j hj => unstarted_at_worker ?_ hj)
    rcases hw with hw | hw <;> simp [hw]
  | ready hw _ | sleepy hw _ _ | park hw | leave hw _ _ | proceed hw _ | take hw _
  | undefined hw _ | unlockReturn hw | unlockRun hw | invoke hw | finish hw =>
    exact h.rewire rfl (fun j hj => unstarted_at_worker (by simp [hw]) hj)
  | enqueue | notifyNobody | lock | push | unlock =>
    exact h.rewire (by simp [State.setMutex]) (fun j hj => unstarted_set_enqueue hj)
  | notify =>
    exact h.rewire (by simp [State.wake, State.atWorker])
      (fun j hj => unstarted_set_enqueue (unstarted_wake hj))
  | spurious => exact h.rewire rfl (fun j hj => unstarted_wake hj)

/-- A task taken from the queue and not yet invoked. -/
def pending (i : Fin n) : WorkerPc → List (Fin n × Nat)
  | .unlockRun id | .invoke id => [(i, id)]
  | _ => []

/-- Where every task pushed so far is. -/
structure Ledger (tr : List (Event n k)) (s : State n k) : Prop where
  order : pushes tr = List.range s.pushed
  queue : (takes tr).map Prod.snd ++ s.tasks = List.range s.pushed
  mine : ∀ i, entries i (takes tr) = entries i (invocations tr) ++ pending i (s.workers i)

theorem pushes_append : pushes (tr ++ es) = pushes tr ++ pushes es := List.filterMap_append
theorem takes_append : takes (tr ++ es) = takes tr ++ takes es := List.filterMap_append
theorem invocations_append : invocations (tr ++ es) = invocations tr ++ invocations es :=
  List.filterMap_append

theorem pending_phase (i : Fin n) (pc : WorkerPc) : pending i (phase pc) = pending i pc := by
  cases pc <;> rfl

theorem pending_woken (i : Fin n) (pc : WorkerPc) : pending i pc.woken = pending i pc := by
  cases pc <;> rfl

theorem pending_at_worker {i : Fin n} {pc : WorkerPc}
    (hpc : pending i pc = pending i (s.workers i)) (j : Fin n) :
    pending j ((s.atWorker i pc).workers j) = pending j (s.workers j) := by
  by_cases he : j = i
  · subst he
    simpa using hpc
  · simp [he]

theorem pending_wake (i j : Fin n) :
    pending j ((s.wake i).workers j) = pending j (s.workers j) :=
  pending_at_worker (pending_woken i _) j

theorem pending_set_enqueue (t : Thread n k) (e : Option EnqueuePc) (j : Fin n) :
    pending j ((s.setEnqueue t e).workers j) = pending j (s.workers j) := by
  rw [← pending_phase, phase_set_enqueue, pending_phase]

/-- Steps that neither push, take nor invoke keep the accounts. -/
theorem Ledger.silent (h : Ledger tr s) (hpushes : pushes es = []) (htakes : takes es = [])
    (hinvocations : invocations es = []) (hpushed : s'.pushed = s.pushed)
    (htasks : s'.tasks = s.tasks)
    (hpending : ∀ i, pending i (s'.workers i) = pending i (s.workers i)) :
    Ledger (tr ++ es) s' := by
  refine ⟨?_, ?_, ?_⟩
  · rw [pushes_append, hpushes, List.append_nil, hpushed]
    exact h.order
  · rw [takes_append, htakes, List.append_nil, htasks, hpushed]
    exact h.queue
  · intro i
    rw [takes_append, invocations_append, htakes, hinvocations, List.append_nil,
      List.append_nil, hpending]
    exact h.mine i

theorem Ledger.push (h : Ledger tr s) (t : Thread n k) :
    Ledger (tr ++ [.pushed t s.pushed])
      ({ s with tasks := s.tasks ++ [s.pushed], pushed := s.pushed + 1 }.setEnqueue t
        (some .unlock)) := by
  refine ⟨?_, ?_, ?_⟩
  · rw [pushes_append, h.order, pushed_set_enqueue, List.range_succ]
    rfl
  · have hnone : takes [(.pushed t s.pushed : Event n k)] = [] := rfl
    rw [takes_append, hnone, List.append_nil, tasks_set_enqueue, pushed_set_enqueue,
      ← List.append_assoc, h.queue, List.range_succ]
  · intro i
    rw [takes_append, invocations_append, pending_set_enqueue]
    simpa [takes, invocations] using h.mine i

theorem Ledger.take (h : Ledger tr s) {i : Fin n} {id : Nat} {rest : List Nat}
    (hw : s.workers i = .take) (hfront : s.tasks = id :: rest) :
    Ledger (tr ++ [.took i id]) ({ s with tasks := rest }.atWorker i (.unlockRun id)) := by
  refine ⟨?_, ?_, ?_⟩
  · rw [pushes_append, h.order]
    exact List.append_nil _
  · have hqueue := h.queue
    rw [hfront] at hqueue
    rw [takes_append]
    simpa [takes, State.atWorker] using hqueue
  · intro j
    rw [takes_append, invocations_append, entries_append, entries_append, h.mine j]
    by_cases he : j = i
    · subst he
      simp [entries, takes, invocations, pending, hw]
    · simp [entries, takes, invocations, he, Ne.symm he]

theorem Ledger.invoke (h : Ledger tr s) {i : Fin n} {id : Nat} (hw : s.workers i = .invoke id) :
    Ledger (tr ++ [.invoked i id]) (s.atWorker i (.running id none)) := by
  refine ⟨?_, ?_, ?_⟩
  · rw [pushes_append, h.order]
    exact List.append_nil _
  · have hnone : takes [(.invoked i id : Event n k)] = [] := rfl
    rw [takes_append, hnone, List.append_nil]
    exact h.queue
  · intro j
    rw [takes_append, invocations_append, entries_append, entries_append, h.mine j]
    by_cases he : j = i
    · subst he
      simp [entries, takes, invocations, pending, hw]
    · simp [entries, takes, invocations, he, Ne.symm he]

theorem move_ledger (hi : Inv s) (hstart : Unstarted s) (h : Ledger tr s) (hm : Move s a s' es) :
    Ledger (tr ++ es) s' := by
  cases hm with
  | built | spawnFails | destroy | requestStop | stopped | join | joined | unwindStop | unwound
  | unwindJoin => exact h.silent rfl rfl rfl rfl rfl (fun _ => rfl)
  | @start i hp hlt =>
    refine h.silent rfl rfl rfl rfl rfl (pending_at_worker ?_)
    rw [hstart i hp ⟨i, hlt⟩ (Nat.le_refl _)]
    rfl
  | notifyAll => exact h.silent rfl rfl rfl rfl rfl (fun i => pending_woken i _)
  | acquire hw _ =>
    refine h.silent rfl rfl rfl rfl rfl (pending_at_worker ?_)
    change _ = pending _ (s.workers _)
    rcases hw with hw | hw <;> rw [hw] <;> rfl
  | ready hw _ | sleepy hw _ _ | leave hw _ _ | proceed hw _ | park hw | unlockReturn hw
  | unlockRun hw | finish hw =>
    refine h.silent rfl rfl rfl rfl rfl (pending_at_worker ?_)
    change _ = pending _ (s.workers _)
    rw [hw]
    rfl
  | take hw hfront => exact h.take hw hfront
  | @undefined i hw hnone =>
    have hok := hi.worker i
    rw [hw] at hok
    exact absurd hnone hok
  | invoke hw => exact h.invoke hw
  | enqueue | notifyNobody =>
    exact h.silent rfl rfl rfl (by simp) (by simp) (pending_set_enqueue _ _)
  | push he => exact h.push _
  | lock | unlock =>
    exact h.silent rfl rfl rfl (by simp [State.setMutex]) (by simp [State.setMutex])
      (pending_set_enqueue _ _)
  | @notify t i he hw =>
    refine h.silent rfl rfl rfl (by simp [State.wake, State.atWorker])
      (by simp [State.wake, State.atWorker]) ?_
    intro j
    rw [pending_set_enqueue, pending_wake]
  | spurious hw => exact h.silent rfl rfl rfl rfl rfl (pending_wake _)

/-- No worker ever takes from an empty queue. -/
theorem move_defined (hi : Inv s) (hm : Move s a s' es) (i : Fin n) : .undefined i ∉ es := by
  cases hm with
  | @undefined i hw hnone =>
    have hok := hi.worker i
    rw [hw] at hok
    exact absurd hnone hok
  | _ => simp

theorem worker_count_pos (threads : Nat) : 0 < workerCount threads := by
  unfold workerCount
  split
  · exact Nat.one_pos
  · rename_i h
    exact Nat.pos_of_ne_zero h

section Runs

variable {threads : Nat} {s : State (workerCount threads) k}
  {tr : List (Event (workerCount threads) k)}

structure Sound (tr : List (Event n k)) (s : State n k) : Prop where
  exclusive : Exclusive s
  inv : Inv s
  unstarted : Unstarted s
  ledger : Ledger tr s
  defined : ∀ i, .undefined i ∉ tr

theorem initial_sound : Sound [] (machine threads k).init := by
  refine ⟨?_, ?_, fun _ _ _ _ => rfl, ⟨rfl, rfl, fun _ => rfl⟩, fun _ => List.not_mem_nil⟩
  · intro t ht
    cases t <;> exact ht.elim
  · refine ⟨?_, ?_, fun _ => trivial, fun _ => rfl⟩
    · intro i hstop
      cases hstop
    · intro j hout
      exact absurd rfl hout

theorem run_sound (hr : (machine threads k).Run tr s) : Sound tr s := by
  refine Machine.Run.invariant (I := Sound) initial_sound ?_ hr
  intro tr s a s' es _ h hs
  have hm := step_moves hs
  refine ⟨move_exclusive h.exclusive hm,
    move_inv (worker_count_pos threads) h.inv h.exclusive hm, move_unstarted h.unstarted hm,
    move_ledger h.inv h.unstarted h.ledger hm, ?_⟩
  intro i hmem
  rcases List.mem_append.mp hmem with hold | hnew
  · exact h.defined i hold
  · exact move_defined h.inv hm i hnew

theorem Ledger.takes_prefix (h : Ledger tr s) : (takes tr).map Prod.snd <+: pushes tr := by
  rw [h.order, ← h.queue]
  exact List.prefix_append _ _

theorem Ledger.pushes_nodup (h : Ledger tr s) : (pushes tr).Nodup := by
  rw [h.order]
  exact List.nodup_range

theorem Ledger.invoked_taken (h : Ledger tr s) : List.Subperm (invocations tr) (takes tr) := by
  apply subperm_of_entries
  intro i
  rw [h.mine i]
  exact List.prefix_append _ _

/-- With nothing left in the queue and no task in a worker's hands, what was
invoked is what was pushed. -/
theorem Ledger.settled (h : Ledger tr s) (htasks : s.tasks = [])
    (hidle : ∀ i, pending i (s.workers i) = []) :
    ((invocations tr).map Prod.snd).Perm (pushes tr) := by
  have htaken : (takes tr).map Prod.snd = pushes tr := by
    have hqueue := h.queue
    rwa [htasks, List.append_nil, ← h.order] at hqueue
  have hperm : (takes tr).Perm (invocations tr) := by
    apply perm_of_entries
    intro i
    rw [h.mine i, hidle i, List.append_nil]
  rw [← htaken]
  exact (hperm.map Prod.snd).symm

/-- Tasks leave the queue in the order they were pushed, none is invoked twice,
and once every worker has returned each has been invoked. -/
theorem drains_once (hr : (machine threads k).Run tr s) :
    (∀ i, .undefined i ∉ tr) ∧
    (takes tr).map Prod.snd <+: pushes tr ∧
    (pushes tr).Nodup ∧
    ((invocations tr).map Prod.snd).Nodup ∧
    ((∀ i, s.workers i = .returned) →
      s.tasks = [] ∧ ((invocations tr).map Prod.snd).Perm (pushes tr)) := by
  have h := run_sound hr
  have htakes : ((takes tr).map Prod.snd).Nodup :=
    h.ledger.pushes_nodup.sublist h.ledger.takes_prefix.sublist
  refine ⟨h.defined, h.ledger.takes_prefix, h.ledger.pushes_nodup,
    nodup_values_of_subperm h.ledger.invoked_taken htakes, ?_⟩
  intro hall
  have htasks : s.tasks = [] := by
    apply h.inv.drained
    intro i
    rw [hall i]
    trivial
  refine ⟨htasks, h.ledger.settled htasks ?_⟩
  intro i
  rw [hall i]
  rfl

end Runs

/-- One task from outside; while the destructor is already waiting it enqueues a
second one and ends by an exception. -/
def nestedAtShutdown (i j : Fin 1) : List (Act 1 1) :=
  [.main, .main,
   .enqueue (.outside j), .enqueuer (.outside j), .enqueuer (.outside j),
   .enqueuer (.outside j), .notifyOne (.outside j) none,
   .worker i, .worker i, .worker i, .worker i, .worker i, .worker i,
   .destroy, .main, .main, .main,
   .enqueue (.worker i), .enqueuer (.worker i), .enqueuer (.worker i),
   .enqueuer (.worker i), .notifyOne (.worker i) none, .finish i true,
   .worker i, .worker i, .worker i, .worker i, .worker i, .worker i, .finish i false,
   .worker i, .worker i, .worker i, .worker i]

theorem drains_once_nested : ∃ tr s, (machine 1 1).Run tr s ∧ pushes tr = [0, 1] ∧
    ((invocations tr).map Prod.snd).Perm [0, 1] := by
  have hr : (machine 1 1).Run _ _ := Machine.run_of_exec (nestedAtShutdown 0 0) rfl
  have hall := (drains_once hr).2.2.2.2
  refine ⟨_, _, hr, rfl, (hall ?_).2⟩
  rintro ⟨i, hi⟩
  obtain rfl : i = 0 := Nat.lt_one_iff.mp hi
  rfl

end Toolbox.Proofs.PoolDrain
