import Toolbox.Pool

namespace Toolbox.Proofs.PoolMoves
open Base Pool

variable {n k : Nat} {s s' : State n k} {a : Act n k} {es : List (Event n k)}

/-- Everything the atomic steps can do to a pool. -/
inductive Move (s : State n k) : Act n k → State n k → List (Event n k) → Prop
  | start {i} (hp : s.main = .constructing i) (h : i < n) :
      Move s .main ((s.atWorker ⟨i, h⟩ .lock).atMain (.constructing (i + 1))) []
  | built {i} (hp : s.main = .constructing i) (h : ¬ i < n) : Move s .main (s.atMain .running) []
  | spawnFails {i} (hp : s.main = .constructing i) (h : i < n) :
      Move s .spawnFails (s.atMain (.unwindStop 0 i)) []
  | destroy (hp : s.main = .running) (hout : ∀ j, s.outside j = none) :
      Move s .destroy (s.atMain (.stopping 0)) []
  | requestStop {i} (hp : s.main = .stopping i) (h : i < n) :
      Move s .main ((s.requestStop ⟨i, h⟩).atMain (.stopping (i + 1))) []
  | stopped {i} (hp : s.main = .stopping i) (h : ¬ i < n) : Move s .main (s.atMain .notifyAll) []
  | notifyAll (hp : s.main = .notifyAll) : Move s .main (s.wakeAll.atMain (.joining 0)) []
  | join {i} (hp : s.main = .joining i) (h : i < n) (hret : s.workers ⟨i, h⟩ = .returned) :
      Move s .main ((s.requestStop ⟨i, h⟩).atMain (.joining (i + 1))) []
  | joined {i} (hp : s.main = .joining i) (h : ¬ i < n) : Move s .main (s.atMain .done) []
  | unwindStop {i started} (hp : s.main = .unwindStop i started) (h : i < n)
      (hi : i < started) :
      Move s .main ((s.requestStop ⟨i, h⟩).atMain (.unwindJoin i started)) []
  | unwound {i started} (hp : s.main = .unwindStop i started) : Move s .main (s.atMain .failed) []
  | unwindJoin {i started} (hp : s.main = .unwindJoin i started) (h : i < n)
      (hret : s.workers ⟨i, h⟩ = .returned) :
      Move s .main (s.atMain (.unwindStop (i + 1) started)) []
  | acquire {i} (hw : s.workers i = .lock ∨ s.workers i = .relock) (hfree : s.mutex = none) :
      Move s (.worker i) ((s.setMutex (some (.worker i))).atWorker i .test) []
  | ready {i} (hw : s.workers i = .test) (hpred : s.stop i = true ∨ s.tasks ≠ []) :
      Move s (.worker i) (s.atWorker i .check) []
  | sleepy {i} (hw : s.workers i = .test) (hstop : s.stop i = false) (hnone : s.tasks = []) :
      Move s (.worker i) (s.atWorker i .park) []
  | park {i} (hw : s.workers i = .park) :
      Move s (.worker i) ((s.setMutex none).atWorker i .parked) []
  | leave {i} (hw : s.workers i = .check) (hstop : s.stop i = true) (hnone : s.tasks = []) :
      Move s (.worker i) (s.atWorker i .unlockReturn) []
  | proceed {i} (hw : s.workers i = .check) (hpred : ¬ (s.stop i = true ∧ s.tasks = [])) :
      Move s (.worker i) (s.atWorker i .take) []
  | take {i id rest} (hw : s.workers i = .take) (hfront : s.tasks = id :: rest) :
      Move s (.worker i) ({ s with tasks := rest }.atWorker i (.unlockRun id)) [.took i id]
  | undefined {i} (hw : s.workers i = .take) (hnone : s.tasks = []) :
      Move s (.worker i) (s.atWorker i .returned) [.undefined i]
  | unlockReturn {i} (hw : s.workers i = .unlockReturn) :
      Move s (.worker i) ((s.setMutex none).atWorker i .returned) [.returned i]
  | unlockRun {i id} (hw : s.workers i = .unlockRun id) :
      Move s (.worker i) ((s.setMutex none).atWorker i (.invoke id)) []
  | invoke {i id} (hw : s.workers i = .invoke id) :
      Move s (.worker i) (s.atWorker i (.running id none)) [.invoked i id]
  | finish {i id threw} (hw : s.workers i = .running id none) :
      Move s (.finish i threw) (s.atWorker i .lock) [.finished i id threw]
  | enqueue {t} (hmay : s.MayEnqueue t) : Move s (.enqueue t) (s.setEnqueue t (some .lock)) []
  | lock {t} (he : s.enqueueOf t = some .lock) (hfree : s.mutex = none) :
      Move s (.enqueuer t) ((s.setMutex (some t)).setEnqueue t (some .push)) []
  | push {t} (he : s.enqueueOf t = some .push) :
      Move s (.enqueuer t)
        ({ s with tasks := s.tasks ++ [s.pushed], pushed := s.pushed + 1 }.setEnqueue t
          (some .unlock)) [.pushed t s.pushed]
  | unlock {t} (he : s.enqueueOf t = some .unlock) :
      Move s (.enqueuer t) ((s.setMutex none).setEnqueue t (some .notifyOne)) []
  | notify {t i} (he : s.enqueueOf t = some .notifyOne) (hw : s.workers i = .parked) :
      Move s (.notifyOne t (some i)) ((s.wake i).setEnqueue t none) []
  | notifyNobody {t} (he : s.enqueueOf t = some .notifyOne)
      (hnone : ∀ i, s.workers i ≠ .parked) : Move s (.notifyOne t none) (s.setEnqueue t none) []
  | spurious {i} (hw : s.workers i = .parked) : Move s (.spurious i) (s.wake i) []

theorem main_moves (hs : stepMain s = some (s', es)) : Move s .main s' es := by
  cases hp : s.main with
  | running | done | failed => simp [stepMain, hp] at hs
  | constructing i =>
    simp only [stepMain, hp] at hs
    split at hs
    all_goals
      rename_i h
      cases hs
    · exact .start hp h
    · exact .built hp h
  | stopping i =>
    simp only [stepMain, hp] at hs
    split at hs
    all_goals
      rename_i h
      cases hs
    · exact .requestStop hp h
    · exact .stopped hp h
  | notifyAll =>
    simp only [stepMain, hp] at hs
    cases hs
    exact .notifyAll hp
  | joining i =>
    simp only [stepMain, hp] at hs
    split at hs
    · rename_i h
      split at hs
      · rename_i hret
        cases hs
        exact .join hp h hret
      · cases hs
    · rename_i h
      cases hs
      exact .joined hp h
  | unwindStop i started =>
    simp only [stepMain, hp] at hs
    split at hs
    · rename_i h
      cases hs
      exact .unwindStop hp h.1 h.2
    · cases hs
      exact .unwound hp
  | unwindJoin i started =>
    simp only [stepMain, hp] at hs
    split at hs
    · rename_i h
      split at hs
      · rename_i hret
        cases hs
        exact .unwindJoin hp h hret
      · cases hs
    · cases hs

theorem worker_moves {i : Fin n} (hs : stepWorker s i = some (s', es)) :
    Move s (.worker i) s' es := by
  cases hw : s.workers i with
  | notStarted | parked | running | returned => simp [stepWorker, hw] at hs
  | lock | relock =>
    simp only [stepWorker, hw] at hs
    split at hs
    · rename_i hfree
      cases hs
      exact .acquire (by simp [hw]) hfree
    · cases hs
  | test =>
    simp only [stepWorker, hw] at hs
    split at hs
    all_goals
      rename_i hpred
      cases hs
    · exact .ready hw hpred
    · rw [not_or] at hpred
      exact .sleepy hw (by simpa using hpred.1) (by simpa using hpred.2)
  | park =>
    simp only [stepWorker, hw] at hs
    cases hs
    exact .park hw
  | check =>
    simp only [stepWorker, hw] at hs
    split at hs
    all_goals
      rename_i hpred
      cases hs
    · exact .leave hw hpred.1 hpred.2
    · exact .proceed hw hpred
  | take =>
    simp only [stepWorker, hw] at hs
    split at hs
    all_goals
      rename_i hfront
      cases hs
    · exact .take hw hfront
    · exact .undefined hw hfront
  | unlockReturn =>
    simp only [stepWorker, hw] at hs
    cases hs
    exact .unlockReturn hw
  | unlockRun id =>
    simp only [stepWorker, hw] at hs
    cases hs
    exact .unlockRun hw
  | invoke id =>
    simp only [stepWorker, hw] at hs
    cases hs
    exact .invoke hw

theorem enqueue_moves {t : Thread n k} (hs : stepEnqueue s t = some (s', es)) :
    Move s (.enqueuer t) s' es := by
  unfold stepEnqueue at hs
  split at hs
  · rename_i he
    split at hs
    · rename_i hfree
      cases hs
      exact .lock he hfree
    · cases hs
  · rename_i he
    cases hs
    exact .push he
  · rename_i he
    cases hs
    exact .unlock he
  · cases hs
  · cases hs

theorem notify_one_moves {t : Thread n k} {woken : Option (Fin n)}
    (hs : stepNotifyOne s t woken = some (s', es)) : Move s (.notifyOne t woken) s' es := by
  unfold stepNotifyOne at hs
  split at hs
  · rename_i he
    cases woken with
    | some i =>
      simp only at hs
      split at hs
      · rename_i hw
        cases hs
        exact .notify he hw
      · cases hs
    | none =>
      simp only at hs
      split at hs
      · cases hs
      · rename_i hnone
        cases hs
        exact .notifyNobody he (fun i hi => hnone ⟨i, hi⟩)
  · cases hs

/-- The one place where the step function is taken apart. -/
theorem step_moves (hs : step s a = some (s', es)) : Move s a s' es := by
  cases a with
  | main => exact main_moves hs
  | worker i => exact worker_moves hs
  | enqueuer t => exact enqueue_moves hs
  | notifyOne t woken => exact notify_one_moves hs
  | spawnFails =>
    simp only [step] at hs
    split at hs
    · rename_i hp
      split at hs
      · rename_i h
        cases hs
        exact .spawnFails hp h
      · cases hs
    · cases hs
  | destroy =>
    simp only [step] at hs
    split at hs
    · rename_i h
      cases hs
      exact .destroy h.1 h.2
    · cases hs
  | finish i threw =>
    simp only [step] at hs
    split at hs
    · rename_i hw
      cases hs
      exact .finish hw
    · cases hs
  | enqueue t =>
    simp only [step] at hs
    split at hs
    · rename_i hmay
      cases hs
      exact .enqueue hmay
    · cases hs
  | spurious i =>
    simp only [step] at hs
    split at hs
    · rename_i hw
      cases hs
      exact .spurious hw
    · cases hs

end Toolbox.Proofs.PoolMoves
