import Toolbox.Proofs.PoolDrain
import Toolbox.Proofs.PoolShutdown

namespace Toolbox.Proofs.PoolUnwind
open Base Pool PoolMoves PoolMutex PoolDrain PoolShutdown

variable {n k : Nat} {s s' : State n k} {a : Act n k} {tr es : List (Event n k)}

/-- Inside the constructor, or unwinding it. -/
def Constructing : MainPc → Prop
  | .constructing _ | .unwindStop _ _ | .unwindJoin _ _ | .failed => True
  | _ => False

/-- The workers started so far. -/
def spawned : MainPc → Nat
  | .constructing i => i
  | .unwindStop _ started | .unwindJoin _ started => started
  | _ => 0

/-- Has no task in hand. -/
def Taskless : WorkerPc → Prop
  | .take | .unlockRun _ | .invoke _ | .running _ _ => False
  | _ => True

/-- A pool that never finished its construction is one nobody can give a task. -/
structure Barren (s : State n k) : Prop where
  tasks : s.tasks = []
  outside : ∀ j, s.outside j = none
  taskless : ∀ i, Taskless (s.workers i)
  owned : ∀ t, s.mutex = some t → Holds s t
  started : ∀ i : Fin n, i.val < spawned s.main → s.workers i ≠ .notStarted
  told : ∀ i started, s.main = .unwindJoin i started →
    ∃ h : i < n, i < started ∧ s.stop ⟨i, h⟩ = true

/-- What can happen to it. -/
inductive BarrenMove (s : State n k) : Act n k → State n k → Prop
  | start {i} (hp : s.main = .constructing i) (h : i < n) :
      BarrenMove s .main ((s.atWorker ⟨i, h⟩ .lock).atMain (.constructing (i + 1)))
  | built {i} (hp : s.main = .constructing i) : BarrenMove s .main (s.atMain .running)
  | spawnFails {i} (hp : s.main = .constructing i) :
      BarrenMove s .spawnFails (s.atMain (.unwindStop 0 i))
  | requestStop {i started} (hp : s.main = .unwindStop i started) (h : i < n)
      (hi : i < started) :
      BarrenMove s .main ((s.requestStop ⟨i, h⟩).atMain (.unwindJoin i started))
  | unwound {i started} (hp : s.main = .unwindStop i started) :
      BarrenMove s .main (s.atMain .failed)
  | join {i started} (hp : s.main = .unwindJoin i started) (h : i < n)
      (hret : s.workers ⟨i, h⟩ = .returned) :
      BarrenMove s .main (s.atMain (.unwindStop (i + 1) started))
  | acquire {i} (hw : s.workers i = .lock ∨ s.workers i = .relock) (hfree : s.mutex = none) :
      BarrenMove s (.worker i) ((s.setMutex (some (.worker i))).atWorker i .test)
  | ready {i} (hw : s.workers i = .test) : BarrenMove s (.worker i) (s.atWorker i .check)
  | sleepy {i} (hw : s.workers i = .test) (hstop : s.stop i = false) :
      BarrenMove s (.worker i) (s.atWorker i .park)
  | park {i} (hw : s.workers i = .park) :
      BarrenMove s (.worker i) ((s.setMutex none).atWorker i .parked)
  | leave {i} (hw : s.workers i = .check) : BarrenMove s (.worker i) (s.atWorker i .unlockReturn)
  | unlockReturn {i} (hw : s.workers i = .unlockReturn) :
      BarrenMove s (.worker i) ((s.setMutex none).atWorker i .returned)
  | spurious {i} (hw : s.workers i = .parked) : BarrenMove s (.spurious i) (s.wake i)

theorem Barren.no_enqueue (h : Barren s) (t : Thread n k) : s.enqueueOf t = none := by
  cases t with
  | worker i =>
    have hi := h.taskless i
    cases hw : s.workers i with
    | running id e =>
      rw [hw] at hi
      exact hi.elim
    | _ => simp [State.enqueueOf, hw]
  | outside j => exact h.outside j

theorem Barren.not_may (h : Barren s) (hp : Constructing s.main) (t : Thread n k) :
    ¬ s.MayEnqueue t := by
  intro hmay
  cases t with
  | worker i =>
    obtain ⟨id, hw⟩ := hmay
    have hi := h.taskless i
    rw [hw] at hi
    exact hi
  | outside j =>
    rw [hmay.1] at hp
    exact hp

/-- No task, hence no call of `enqueue` and no `notify_one`; and the `notify_all`
is the destructor's, which does not run. -/
theorem barren_moves (h : Barren s) (hi : Inv s) (hp : Constructing s.main)
    (hm : Move s a s' es) : BarrenMove s a s' := by
  have htask : ∀ {i pc}, s.workers i = pc → Taskless pc := by
    intro i pc hw
    rw [← hw]
    exact h.taskless i
  cases hm with
  | start hmain hlt => exact .start hmain hlt
  | spawnFails hmain _ => exact .spawnFails hmain
  | unwindStop hmain hlt hi => exact .requestStop hmain hlt hi
  | unwound hmain => exact .unwound hmain
  | unwindJoin hmain hlt hret => exact .join hmain hlt hret
  | built hmain _ => exact .built hmain
  | destroy hmain | requestStop hmain | stopped hmain | notifyAll hmain | join hmain
  | joined hmain =>
    rw [hmain] at hp
    exact hp.elim
  | acquire hw hfree => exact .acquire hw hfree
  | ready hw _ => exact .ready hw
  | sleepy hw hstop _ => exact .sleepy hw hstop
  | park hw => exact .park hw
  | leave hw _ _ => exact .leave hw
  | @proceed i hw hpred =>
    have hok := hi.worker i
    rw [hw] at hok
    exact absurd ⟨hok.resolve_right (fun hne => hne h.tasks), h.tasks⟩ hpred
  | take hw _ | undefined hw _ | unlockRun hw | invoke hw | finish hw => exact (htask hw).elim
  | unlockReturn hw => exact .unlockReturn hw
  | enqueue hmay => exact absurd hmay (h.not_may hp _)
  | lock he | push he | unlock he | notify he | notifyNobody he =>
    rw [h.no_enqueue] at he
    cases he
  | spurious hw => exact .spurious hw

theorem Barren.step_worker (h : Barren s) {o : Option (Thread n k)} {i : Fin n} {pc : WorkerPc}
    (hpc : Taskless pc) (hstarted : pc ≠ .notStarted)
    (howned : ∀ t, o = some t →
      (t = .worker i → workerHolds pc) ∧ (t ≠ .worker i → s.mutex = some t)) :
    Barren ((s.setMutex o).atWorker i pc) := by
  refine ⟨h.tasks, h.outside, ?_, ?_, ?_, h.told⟩
  · intro j
    rw [workers_at_worker]
    split
    · exact hpc
    · exact h.taskless j
  · intro t ht
    obtain ⟨hself, hother⟩ := howned t ht
    by_cases he : t = .worker i
    · subst he
      simp only [Holds, workers_at_worker, ↓reduceIte]
      exact hself rfl
    · have hold := h.owned t (hother he)
      cases t with
      | worker j =>
        have hj : j ≠ i := fun hji => he (congrArg _ hji)
        simpa [Holds, hj] using hold
      | outside j => exact hold
  · intro j hj
    rw [workers_at_worker]
    split
    · exact hstarted
    · exact h.started j hj

/-- A worker's step that leaves the mutex alone. -/
theorem Barren.at_worker (h : Barren s) {i : Fin n} {pc : WorkerPc} (hpc : Taskless pc)
    (hstarted : pc ≠ .notStarted) (hholds : workerHolds (s.workers i) → workerHolds pc) :
    Barren (s.atWorker i pc) := by
  refine h.step_worker (o := s.mutex) hpc hstarted ?_
  intro t ht
  refine ⟨?_, fun _ => ht⟩
  intro he
  subst he
  exact hholds (h.owned _ ht)

theorem Barren.release (h : Barren s) {i : Fin n} {pc : WorkerPc} (hpc : Taskless pc)
    (hstarted : pc ≠ .notStarted) : Barren ((s.setMutex none).atWorker i pc) :=
  h.step_worker hpc hstarted (fun _ ht => by cases ht)

theorem Barren.at_main (h : Barren s) {p : MainPc} (hspawned : spawned p ≤ spawned s.main)
    (htold : ∀ i started, p = .unwindJoin i started →
      ∃ h : i < n, i < started ∧ s.stop ⟨i, h⟩ = true) : Barren (s.atMain p) :=
  ⟨h.tasks, h.outside, h.taskless, h.owned,
    fun i hi => h.started i (Nat.lt_of_lt_of_le hi hspawned), htold⟩

theorem barren_keeps (h : Barren s) (hu : Unstarted s) (hm : BarrenMove s a s') : Barren s' := by
  cases hm with
  | @start i hp hlt =>
    have hnew : s.workers ⟨i, hlt⟩ = .notStarted := hu i hp ⟨i, hlt⟩ (Nat.le_refl i)
    have hstep : Barren (s.atWorker ⟨i, hlt⟩ .lock) :=
      h.at_worker trivial (by simp) (by rw [hnew]; exact id)
    refine ⟨hstep.tasks, hstep.outside, hstep.taskless, hstep.owned, ?_, ?_⟩
    · intro j hj
      rw [workers_at_main, workers_at_worker]
      split
      · simp
      · rename_i hne
        refine h.started j ?_
        rw [hp]
        have hval : j.val ≠ i := fun he => hne (Fin.ext he)
        exact Nat.lt_of_le_of_ne (Nat.lt_succ_iff.mp hj) hval
    · intro j started hj
      cases hj
  | spawnFails hp =>
    refine h.at_main ?_ (fun _ _ hj => by cases hj)
    rw [hp]
    exact Nat.le_refl _
  | @requestStop i started hp hlt hi =>
    have hstop := stop_of_request s ⟨i, hlt⟩ (j := ⟨i, hlt⟩) (.inl rfl)
    refine ⟨h.tasks, h.outside, h.taskless, ?_, ?_, ?_⟩
    · intro t ht
      exact holds_congr rfl rfl (h.owned t ht)
    · intro j hj
      refine h.started j ?_
      rw [hp]
      exact hj
    · intro j m hj
      obtain ⟨rfl, rfl⟩ := MainPc.unwindJoin.inj hj
      exact ⟨hlt, hi, hstop⟩
  | built | unwound => exact h.at_main (Nat.zero_le _) (fun _ _ hj => by cases hj)
  | join hp _ _ =>
    refine h.at_main ?_ (fun _ _ hj => by cases hj)
    rw [hp]
    exact Nat.le_refl _
  | acquire hw hfree =>
    refine h.step_worker trivial (by simp) ?_
    intro t ht
    exact ⟨fun _ => trivial, fun hne => absurd (Option.some.inj ht).symm hne⟩
  | ready hw | sleepy hw _ | leave hw => exact h.at_worker trivial (by simp) (fun _ => trivial)
  | park hw | unlockReturn hw => exact h.release trivial (by simp)
  | spurious hw =>
    refine h.at_worker ?_ ?_ ?_
    all_goals
      rw [hw]
    · trivial
    · simp [WorkerPc.woken]
    · exact id

theorem constructing_before (hm : Move s a s' es) (hp' : Constructing s'.main) :
    Constructing s.main := by
  cases hm with
  | start hp | built hp | spawnFails hp | unwindStop hp | unwound hp | unwindJoin hp =>
    rw [hp]
    trivial
  | destroy | requestStop | stopped | notifyAll | join | joined => exact hp'.elim
  | acquire | ready | sleepy | park | leave | proceed | take | undefined | unlockReturn | unlockRun
  | invoke | finish | spurious => exact hp'
  | enqueue | lock | push | unlock | notify | notifyNobody =>
    rw [main_set_enqueue] at hp'
    exact hp'

/-- The worker that the unwinding asks to stop next. -/
def Requested : MainPc → Fin n → Prop
  | .unwindStop i started, j => j.val = i ∧ i < started
  | _, _ => False

instance (p : MainPc) (j : Fin n) : Decidable (Requested p j) :=
  match p with
  | .unwindStop i started => inferInstanceAs (Decidable (j.val = i ∧ i < started))
  | .constructing _ | .running | .stopping _ | .notifyAll | .joining _ | .done | .unwindJoin _ _
  | .failed => isFalse id

instance (pc : WorkerPc) : Decidable (Asleep pc) :=
  match pc with
  | .park | .parked => isTrue trivial
  | .notStarted | .lock | .test | .relock | .check | .take | .unlockReturn | .unlockRun _
  | .invoke _ | .running _ _ | .returned => isFalse id

/-- A `request_stop` of the unwinding that finds its worker asleep. -/
def Caught (s : State n k) : Act n k → Prop
  | .main => ∃ j, Requested s.main j ∧ Asleep (s.workers j)
  | _ => False

instance (s : State n k) (a : Act n k) : Decidable (Caught s a) :=
  match a with
  | .main => inferInstanceAs (Decidable (∃ j, Requested s.main j ∧ Asleep (s.workers j)))
  | .spawnFails | .destroy | .worker _ | .finish _ _ | .enqueue _ | .enqueuer _ | .notifyOne _ _
  | .spurious _ => isFalse id

/-- No worker that was asked to stop is asleep. -/
def Heard (s : State n k) : Prop := ∀ i, s.stop i = true → ¬ Asleep (s.workers i)

theorem Heard.step_worker (h : Heard s) {o : Option (Thread n k)} {i : Fin n} {pc : WorkerPc}
    (hpc : Asleep pc → s.stop i = false) : Heard ((s.setMutex o).atWorker i pc) := by
  intro j hj
  change s.stop j = true at hj
  rw [workers_at_worker]
  split
  · rename_i he
    intro hasleep
    rw [he, hpc hasleep] at hj
    cases hj
  · exact h j hj

theorem heard_keeps (h : Heard s) (hok : ¬ Caught s a) (hm : BarrenMove s a s') : Heard s' := by
  cases hm with
  | start hp hlt => exact h.step_worker (o := s.mutex) False.elim
  | built | spawnFails | unwound | join => exact h
  | @requestStop i started hp hlt hi =>
    intro j hj
    by_cases he : j = ⟨i, hlt⟩
    · intro hasleep
      refine hok ⟨j, ?_, hasleep⟩
      rw [hp, he]
      exact ⟨rfl, hi⟩
    · refine h j ?_
      simpa [State.atMain, State.requestStop, Function.update_apply, he] using hj
  | acquire => exact h.step_worker False.elim
  | ready | leave => exact h.step_worker (o := s.mutex) False.elim
  | sleepy _ hstop => exact h.step_worker (o := s.mutex) (fun _ => hstop)
  | @park i hw =>
    refine h.step_worker (fun _ => ?_)
    by_contra hstop
    refine h i (by simpa using hstop) ?_
    rw [hw]
    trivial
  | unlockReturn => exact h.step_worker False.elim
  | spurious hw =>
    refine h.step_worker (o := s.mutex) ?_
    rw [hw]
    exact False.elim

theorem asleep_at_worker {o : Option (Thread n k)} {i j : Fin n} {pc : WorkerPc}
    (hj : Asleep (s.workers j)) (hpc : Asleep (s.workers i) → Asleep pc) :
    Asleep (((s.setMutex o).atWorker i pc).workers j) := by
  rw [workers_at_worker]
  split
  · rename_i he
    rw [he] at hj
    exact hpc hj
  · exact hj

/-- Without a spurious wakeup a sleeper sleeps on, and the join waits for it. -/
theorem sleeps_on {j : Fin n} {started : Nat} (hmain : s.main = .unwindJoin j.val started)
    (hj : Asleep (s.workers j)) (hne : a ≠ .spurious j) (hm : BarrenMove s a s') :
    s'.main = s.main ∧ Asleep (s'.workers j) := by
  cases hm with
  | start hp | built hp | spawnFails hp | requestStop hp | unwound hp =>
    rw [hmain] at hp
    cases hp
  | join hp hlt hret =>
    rw [hmain] at hp
    obtain ⟨rfl, rfl⟩ := MainPc.unwindJoin.inj hp
    rw [hret] at hj
    exact hj.elim
  | acquire hw _ =>
    refine ⟨rfl, asleep_at_worker hj ?_⟩
    rcases hw with hw | hw <;> (rw [hw]; exact False.elim)
  | ready hw | sleepy hw _ | leave hw =>
    refine ⟨rfl, asleep_at_worker (o := s.mutex) hj ?_⟩
    rw [hw]
    exact False.elim
  | park hw => exact ⟨rfl, asleep_at_worker hj (fun _ => trivial)⟩
  | unlockReturn hw =>
    refine ⟨rfl, asleep_at_worker hj ?_⟩
    rw [hw]
    exact False.elim
  | @spurious i hw =>
    have hij : j ≠ i := fun he => hne (congrArg _ he.symm)
    refine ⟨rfl, ?_⟩
    rw [State.wake, workers_at_worker, if_neg hij]
    exact hj

section Runs

variable {threads : Nat} {s s' : State (workerCount threads) k}
  {a : Act (workerCount threads) k} {tr es : List (Event (workerCount threads) k)}

theorem run_barren (hr : (machine threads k).Run tr s) : Constructing s.main → Barren s := by
  refine Machine.Run.invariant (I := fun _ s => Constructing s.main → Barren s) ?_ ?_ hr
  · intro _
    exact {
      tasks := rfl
      outside := fun _ => rfl
      taskless := fun _ => trivial
      owned := fun _ ht => by cases ht
      started := fun _ hi => absurd hi (Nat.not_lt_zero _)
      told := fun _ _ hj => by cases hj }
  · intro tr s a s' es hr h hs hp'
    have hm := step_moves hs
    have hp := constructing_before hm hp'
    exact barren_keeps (h hp) (run_sound hr).unstarted
      (barren_moves (h hp) (run_sound hr).inv hp hm)

theorem run_heard (hr : (machine threads k).RunWhere (fun s a => ¬ Caught s a) tr s) :
    Constructing s.main → Heard s := by
  refine Machine.Steps.invariant (I := fun _ s => Constructing s.main → Heard s) ?_ ?_ hr
  · intro _ i hi
    cases hi
  · intro tr s a s' es hr h hok hs hp'
    have hrun := Machine.RunWhere.run hr
    have hm := step_moves hs
    have hp := constructing_before hm hp'
    exact heard_keeps (h hp) hok
      (barren_moves (run_barren hrun hp) (run_sound hrun).inv hp hm)

/-- A worker that was asked to stop and has the mutex leaves. -/
theorem leaves_alone {i : Fin (workerCount threads)} (htasks : s.tasks = [])
    (hstop : s.stop i = true)
    (hw : s.workers i = .test ∨ s.workers i = .check ∨ s.workers i = .unlockReturn) :
    (machine threads k).Alone (.worker i) s [.returned i]
      ((s.setMutex none).atWorker i .returned) := by
  have hunlock : (machine threads k).Alone (.worker i) (s.atWorker i .unlockReturn)
      [.returned i] ((s.setMutex none).atWorker i .returned) := by
    refine .last ?_
    simp [machine, step, stepWorker, State.setMutex, State.atWorker]
  have hcheck : (machine threads k).Alone (.worker i) (s.atWorker i .check) [.returned i]
      ((s.setMutex none).atWorker i .returned) := by
    refine .silent ?_ hunlock
    simp [machine, step, stepWorker, State.atWorker, hstop, htasks]
  rcases hw with hw | hw | hw
  · refine .silent ?_ hcheck
    simp [machine, step, stepWorker, hw, hstop]
  · refine .silent ?_ hunlock
    simp [machine, step, stepWorker, hw, hstop, htasks]
  · refine .last ?_
    simp [machine, step, stepWorker, hw]

/-- A worker that was not asked to stop and has the mutex goes to sleep. -/
theorem parks_alone {i : Fin (workerCount threads)} (htasks : s.tasks = [])
    (hw : s.workers i = .test ∧ s.stop i = false ∨ s.workers i = .park) :
    (machine threads k).Alone (.worker i) s [] ((s.setMutex none).atWorker i .parked) := by
  rcases hw with ⟨hw, hstop⟩ | hw
  · refine .silent (t := s.atWorker i .park) ?_ (.last ?_)
    · simp [machine, step, stepWorker, hw, hstop, htasks]
    · simp [machine, step, stepWorker, State.setMutex, State.atWorker]
  · refine .last ?_
    simp [machine, step, stepWorker, hw]

/-- Whoever has the mutex gives it up, since nobody has a task. -/
theorem gives_up (h : Barren s) (hi : Inv s) {i : Fin (workerCount threads)}
    (hmutex : s.mutex = some (.worker i)) :
    ∃ later pc, (machine threads k).Alone (.worker i) s later
      ((s.setMutex none).atWorker i pc) := by
  have hholds := h.owned _ hmutex
  have htask := h.taskless i
  have hok := hi.worker i
  change workerHolds (s.workers i) at hholds
  cases hw : s.workers i with
  | notStarted | lock | parked | relock | returned | invoke =>
    rw [hw] at hholds
    exact hholds.elim
  | take | unlockRun | running =>
    rw [hw] at htask
    exact htask.elim
  | park => exact ⟨_, _, parks_alone h.tasks (.inr hw)⟩
  | test =>
    by_cases hstop : s.stop i = true
    · exact ⟨_, _, leaves_alone h.tasks hstop (.inl hw)⟩
    · exact ⟨_, _, parks_alone h.tasks (.inl ⟨hw, by simpa using hstop⟩)⟩
  | check =>
    rw [hw] at hok
    have hstop := hok.resolve_right (fun hne => hne h.tasks)
    exact ⟨_, _, leaves_alone h.tasks hstop (.inr (.inl hw))⟩
  | unlockReturn =>
    rw [hw] at hok
    exact ⟨_, _, leaves_alone h.tasks hok (.inr (.inr hw))⟩

theorem locks_and_leaves {j : Fin (workerCount threads)} (htasks : s.tasks = [])
    (hfree : s.mutex = none) (hstop : s.stop j = true)
    (hw : s.workers j = .lock ∨ s.workers j = .relock) :
    ∃ t, (machine threads k).Alone (.worker j) s [.returned j] t ∧ t.workers j = .returned := by
  refine ⟨_, .silent (t := (s.setMutex (some (.worker j))).atWorker j .test) ?_
    (leaves_alone htasks hstop (.inl (by simp))), by simp⟩
  rcases hw with hw | hw <;> simp [machine, step, stepWorker, hw, hfree]

/-- A step of some worker. -/
def ByWorker (_ : State (workerCount threads) k) : Act (workerCount threads) k → Prop
  | .worker _ => True
  | _ => False

/-- A worker that was asked to stop and is not asleep can return. -/
theorem returns (h : Barren s) (hi : Inv s) {j : Fin (workerCount threads)}
    (hstop : s.stop j = true) (hstarted : s.workers j ≠ .notStarted)
    (hawake : ¬ Asleep (s.workers j)) :
    ∃ later t, (machine threads k).Steps ByWorker s later t ∧ t.workers j = .returned := by
  have htask := h.taskless j
  have hleave : s.workers j = .test ∨ s.workers j = .check ∨ s.workers j = .unlockReturn →
      ∃ later t, (machine threads k).Steps ByWorker s later t ∧ t.workers j = .returned :=
    fun hw => ⟨_, _, (leaves_alone h.tasks hstop hw).steps (fun _ => trivial), by simp⟩
  have hlock : s.workers j = .lock ∨ s.workers j = .relock →
      ∃ later t, (machine threads k).Steps ByWorker s later t ∧ t.workers j = .returned := by
    intro hw
    cases hmutex : s.mutex with
    | none =>
      obtain ⟨t, halone, hret⟩ := locks_and_leaves h.tasks hmutex hstop hw
      exact ⟨_, t, halone.steps (fun _ => trivial), hret⟩
    | some owner =>
      have hholds := h.owned owner hmutex
      cases owner with
      | outside l =>
        change enqueueHolds (s.outside l) at hholds
        rw [h.outside l] at hholds
        exact hholds.elim
      | worker i =>
        have hne : j ≠ i := by
          intro he
          change workerHolds (s.workers i) at hholds
          rw [← he] at hholds
          rcases hw with hw | hw <;> (rw [hw] at hholds; exact hholds)
        obtain ⟨later, pc, hfirst⟩ := gives_up h hi hmutex
        obtain ⟨t, hlast, hret⟩ := locks_and_leaves (j := j)
          (s := (s.setMutex none).atWorker i pc) h.tasks rfl hstop (by simpa [hne] using hw)
        exact ⟨_, t, (hfirst.steps (fun _ => trivial)).trans (hlast.steps (fun _ => trivial)), hret⟩
  cases hw : s.workers j with
  | notStarted => exact absurd hw hstarted
  | lock => exact hlock (.inl hw)
  | relock => exact hlock (.inr hw)
  | test => exact hleave (.inl hw)
  | check => exact hleave (.inr (.inl hw))
  | unlockReturn => exact hleave (.inr (.inr hw))
  | park | parked =>
    rw [hw] at hawake
    exact absurd trivial hawake
  | take | unlockRun | invoke | running =>
    rw [hw] at htask
    exact htask.elim
  | returned => exact ⟨[], s, .refl, hw⟩

theorem by_worker_main {later : List (Event (workerCount threads) k)}
    {t : State (workerCount threads) k} (h : (machine threads k).Steps ByWorker s later t) :
    t.main = s.main := by
  refine Machine.Steps.invariant (I := fun _ t => t.main = s.main) rfl ?_ h
  intro tr u a v es _ hmain hok hs
  cases a with
  | worker i =>
    have hm : Move u (.worker i) v es := step_moves hs
    cases hm <;> exact hmain
  | _ => exact hok.elim

/-- The join that the unwinding waits in can complete. -/
theorem join_completes (h : Barren s) (hi : Inv s) (hheard : Heard s) {j started : Nat}
    (hmain : s.main = .unwindJoin j started) :
    ∃ later t, (machine threads k).Steps ByWorker s later t ∧
      (machine threads k).step t .main = some (t.atMain (.unwindStop (j + 1) started), []) := by
  obtain ⟨hlt, hj, hstop⟩ := h.told j started hmain
  have hstarted : s.workers ⟨j, hlt⟩ ≠ .notStarted := by
    refine h.started ⟨j, hlt⟩ ?_
    rw [hmain]
    exact hj
  obtain ⟨later, t, hsteps, hret⟩ := returns h hi hstop hstarted (hheard _ hstop)
  refine ⟨later, t, hsteps, ?_⟩
  have hkeep : t.main = .unwindJoin j started := (by_worker_main hsteps).trans hmain
  simp only [machine, step, stepMain, hkeep, hlt, hret, ↓reduceDIte, ↓reduceIte]

/-- What `request_stop` does to a worker that is asleep. -/
theorem caught_sleeps (hcaught : Caught s a)
    (hs : (machine threads k).step s a = some (s', es)) :
    ∃ j started, s'.main = .unwindJoin j.val started ∧ s'.stop j = true ∧
      Asleep (s'.workers j) := by
  cases a with
  | main =>
    obtain ⟨j, hreq, hasleep⟩ := hcaught
    cases hmain : s.main with
    | unwindStop i started =>
      rw [hmain] at hreq
      obtain ⟨rfl, hi⟩ := hreq
      have hstep : (machine threads k).step s .main =
          some ((s.requestStop j).atMain (.unwindJoin j.val started), []) := by
        simp only [machine, step, stepMain, hmain]
        exact dif_pos ⟨j.isLt, hi⟩
      rw [hstep] at hs
      cases hs
      exact ⟨j, started, rfl, stop_of_request s j (.inl rfl), hasleep⟩
    | _ =>
      rw [hmain] at hreq
      exact hreq.elim
  | _ => exact hcaught.elim

/-- A worker at `park` goes to sleep with its next step. -/
theorem goes_to_sleep {j : Fin (workerCount threads)} (hj : Asleep (s.workers j)) :
    ∃ later t, (machine threads k).Steps ByWorker s later t ∧ t.workers j = .parked ∧
      t.stop = s.stop := by
  cases hw : s.workers j with
  | parked => exact ⟨[], s, .refl, hw, rfl⟩
  | park =>
    have hpark : (machine threads k).step s (.worker j) =
        some ((s.setMutex none).atWorker j .parked, []) := by
      simp only [machine, step, stepWorker, hw]
    exact ⟨_, _, .step (a := .worker j) .refl (by trivial) hpark, by simp, rfl⟩
  | _ =>
    rw [hw] at hj
    exact hj.elim

theorem stays_asleep (hr : (machine threads k).Run tr s) {j : Fin (workerCount threads)}
    {started : Nat} (hmain : s.main = .unwindJoin j.val started) (hj : Asleep (s.workers j))
    {later : List (Event (workerCount threads) k)} {t : State (workerCount threads) k}
    (h : (machine threads k).Steps (fun _ a => a ≠ .spurious j) s later t) :
    t.main = s.main ∧ Asleep (t.workers j) := by
  refine Machine.Steps.invariant (I := fun _ t => t.main = s.main ∧ Asleep (t.workers j))
    ⟨rfl, hj⟩ ?_ h
  intro tr' u a v es hu hi hok hs
  obtain ⟨humain, huj⟩ := hi
  have hrun : (machine threads k).Run (tr ++ tr') u :=
    Machine.Steps.trans hr (hu.weaken (fun _ _ _ => trivial))
  have hcons : Constructing u.main := by
    rw [humain, hmain]
    trivial
  obtain ⟨hvmain, hvj⟩ := sleeps_on (humain.trans hmain) huj hok
    (barren_moves (run_barren hrun hcons) (run_sound hrun).inv hcons (step_moves hs))
  exact ⟨hvmain.trans humain, hvj⟩

end Runs

/-- The unwinding gets through exactly when none of its stop requests finds its
worker asleep; a worker that is asleep then sleeps on, and the join waits. -/
theorem unwinding_wakes (threads k : Nat) :
    (∀ tr s, (machine threads k).RunWhere (fun s a => ¬ Caught s a) tr s →
      Constructing s.main →
      (∀ i, s.stop i = true → s.workers i ≠ .parked) ∧
      (∀ j started, s.main = .unwindJoin j started →
        ∃ later t, (machine threads k).Steps ByWorker s later t ∧
          (machine threads k).step t .main = some (t.atMain (.unwindStop (j + 1) started), [])) ∧
      (∀ j started, s.main = .unwindStop j started → started ≤ j →
        (machine threads k).step s .main = some (s.atMain .failed, []))) ∧
    (∀ tr s a s' es, (machine threads k).Run tr s → Caught s a →
      (machine threads k).step s a = some (s', es) →
      ∃ j started, s'.main = .unwindJoin j.val started ∧ s'.stop j = true ∧
        (∃ later t, (machine threads k).Steps ByWorker s' later t ∧ t.workers j = .parked ∧
          t.stop j = true) ∧
        (∀ later t, (machine threads k).Steps (fun _ a => a ≠ .spurious j) s' later t →
          t.main = s'.main ∧ Asleep (t.workers j))) := by
  refine ⟨?_, ?_⟩
  · intro tr s hr hcons
    have hrun := Machine.RunWhere.run hr
    have hbarren := run_barren hrun hcons
    have hheard := run_heard hr hcons
    refine ⟨?_, ?_, ?_⟩
    · intro i hstop hparked
      apply hheard i hstop
      rw [hparked]
      trivial
    · intro j started hmain
      exact join_completes hbarren (run_sound hrun).inv hheard hmain
    · intro j started hmain hle
      simp only [machine, step, stepMain, hmain]
      exact dif_neg (fun h => Nat.not_lt_of_le hle h.2)
  · intro tr s a s' es hr hcaught hs
    obtain ⟨j, started, hmain, hstop, hj⟩ := caught_sleeps hcaught hs
    obtain ⟨later, t, hsteps, hparked, hsame⟩ : ∃ later t,
        (machine threads k).Steps ByWorker s' later t ∧ t.workers j = .parked ∧
          t.stop = s'.stop := goes_to_sleep hj
    refine ⟨j, started, hmain, hstop, ⟨later, t, hsteps, hparked, ?_⟩, ?_⟩
    · rw [hsame]
      exact hstop
    · intro later t h
      exact stays_asleep (hr.next hs) hmain hj h

/-- Of two workers the second cannot be started; the first has not taken the mutex
yet. -/
def failEarly : List (Act 2 0) := [.main, .spawnFails, .main]

/-- The first worker has found nothing to do. -/
def failAfterTest (i : Fin 2) : List (Act 2 0) := [.main, .worker i, .worker i, .spawnFails]

theorem unwinding_wakes_two_workers :
    (∃ tr s, (machine 2 0).RunWhere (fun s a => ¬ Caught s a) tr s ∧
      s.main = .unwindJoin 0 1 ∧
      ∃ later t, (machine 2 0).Steps ByWorker s later t ∧
        (machine 2 0).step t .main = some (t.atMain (.unwindStop 1 1), [])) ∧
    ∃ tr s s' es, (machine 2 0).Run tr s ∧ (machine 2 0).step s .main = some (s', es) ∧
      ∃ j started, s'.main = .unwindJoin j.val started ∧ s'.stop j = true ∧
        ∃ later t, (machine 2 0).Steps ByWorker s' later t ∧ t.workers j = .parked := by
  refine ⟨?_, ?_⟩
  · have hr : (machine 2 0).RunWhere (fun s a => ¬ Caught s a) _ _ :=
      Machine.run_where_of_exec failEarly rfl
    exact ⟨_, _, hr, rfl, ((unwinding_wakes 2 0).1 _ _ hr trivial).2.1 0 1 rfl⟩
  · have hr : (machine 2 0).Run _ _ := Machine.run_of_exec (failAfterTest 0) rfl
    obtain ⟨j, started, hmain, hstop, ⟨later, t, hsteps, hparked, _⟩, _⟩ :=
      (unwinding_wakes 2 0).2 _ _ .main _ _ hr
        ⟨⟨0, Nat.two_pos⟩, ⟨rfl, Nat.one_pos⟩, trivial⟩ rfl
    exact ⟨_, _, _, _, hr, rfl, j, started, hmain, hstop, later, t, hsteps, hparked⟩

/-- The first worker sleeps already. -/
def failAfterPark (i : Fin 2) : List (Act 2 0) :=
  [.main, .worker i, .worker i, .worker i, .spawnFails, .main]

/-- The first worker is parked when the second cannot be started: the exception
never leaves the constructor. -/
theorem exception_never_arrives : ∃ tr s, (machine 2 0).Run tr s ∧ s.main = .unwindJoin 0 1 ∧
    ∃ i, s.workers i = .parked ∧ s.stop i = true ∧
      ∀ later t, (machine 2 0).Steps (fun _ a => a ≠ .spurious i) s later t →
        t.main = .unwindJoin 0 1 ∧ Asleep (t.workers i) := by
  have hr : (machine 2 0).Run _ _ :=
    Machine.run_of_exec (failAfterPark ⟨0, Nat.two_pos⟩) rfl
  refine ⟨_, _, hr, rfl, ⟨0, Nat.two_pos⟩, rfl, rfl, ?_⟩
  intro later t h
  exact stays_asleep (j := ⟨0, Nat.two_pos⟩) hr rfl trivial h

end Toolbox.Proofs.PoolUnwind
