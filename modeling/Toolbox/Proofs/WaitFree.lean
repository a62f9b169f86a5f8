import Toolbox.Base.Count
import Toolbox.Base.WaitFree
import Toolbox.Proofs.BroadcastMoves
import Toolbox.Proofs.OverwriteMoves
import Toolbox.Proofs.SpmcSlots
import Toolbox.Spsc

namespace Toolbox.Proofs.WaitFree
open Base

section Spsc
open Spsc

variable {T : Type*}

def emplaces : Act T → Bool
  | .producer => true
  | _ => false

def emplaceLeft (s : State T) : Nat :=
  match s.producer with
  | .idle => 0
  | .loadTail _ => 4
  | .loadHead _ _ => 3
  | .write _ _ => 2
  | .storeTail _ _ => 1

def pops : Act T → Bool
  | .consumer | .move _ => true
  | _ => false

def popLeft (s : State T) : Nat :=
  match s.consumer with
  | .idle => 0
  | .loadHead => 4
  | .loadTail _ => 3
  | .move _ => 2
  | .storeHead _ _ => 1

theorem spsc_emplace (T : Type*) [Inhabited T] (cap : Capacity) :
    (machine T cap).WaitFree emplaces (fun s => s.producer ≠ .idle) emplaceLeft where
  able := by
    intro s hs
    refine ⟨.producer, rfl, ?_⟩
    cases hp : s.producer with
    | idle => exact absurd hp hs
    | loadHead arg t =>
      simp only [machine, step, stepProducer, hp]
      split <;> exact Option.some_ne_none _
    | write arg t => cases arg <;> simp [machine, step, stepProducer, hp]
    | loadTail | storeTail => simp [machine, step, stepProducer, hp]
  left_pos := by
    intro s hs
    cases hp : s.producer with
    | idle => exact absurd hp hs
    | _ => simp [emplaceLeft, hp]
  own_step := by
    intro s a t es hs hown hstep ht
    cases a with
    | producer =>
      simp only [machine, step] at hstep
      cases hp : s.producer with
      | idle => exact absurd hp hs
      | loadHead arg t =>
        simp only [stepProducer, hp] at hstep
        split at hstep <;> cases hstep
        · exact absurd rfl ht
        · simp [emplaceLeft, hp]
      | write arg t =>
        cases arg <;> simp only [stepProducer, hp] at hstep <;> cases hstep
        · exact absurd rfl ht
        · simp [emplaceLeft, hp]
      | loadTail | storeTail =>
        simp only [stepProducer, hp] at hstep
        cases hstep
        simp [emplaceLeft, hp] at ht ⊢
    | _ => cases hown
  other_step := by
    intro s a t es hs hown hstep
    have hsame : t.producer = s.producer := by
      cases a with
      | producer => cases hown
      | tryEmplace arg =>
        simp only [machine, step] at hstep
        cases hstep
      | tryPop | move =>
        simp only [machine, step] at hstep
        split at hstep <;> cases hstep
        rfl
      | consumer =>
        simp only [machine, step, stepConsumer] at hstep
        repeat' split at hstep
        all_goals cases hstep
        all_goals rfl
    refine ⟨by rwa [hsame], ?_⟩
    unfold emplaceLeft
    rw [hsame]

theorem spsc_pop (T : Type*) [Inhabited T] (cap : Capacity) :
    (machine T cap).WaitFree pops (fun s => s.consumer ≠ .idle) popLeft where
  able := by
    intro s hs
    cases hc : s.consumer with
    | idle => exact absurd hc hs
    | move h => exact ⟨.move default, rfl, by simp [machine, step, hc]⟩
    | loadTail h =>
      refine ⟨.consumer, rfl, ?_⟩
      simp only [machine, step, stepConsumer, hc]
      split <;> exact Option.some_ne_none _
    | loadHead | storeHead => exact ⟨.consumer, rfl, by simp [machine, step, stepConsumer, hc]⟩
  left_pos := by
    intro s hs
    cases hc : s.consumer with
    | idle => exact absurd hc hs
    | _ => simp [popLeft, hc]
  own_step := by
    intro s a t es hs hown hstep ht
    cases a with
    | consumer =>
      simp only [machine, step] at hstep
      cases hc : s.consumer with
      | idle => exact absurd hc hs
      | loadTail h =>
        simp only [stepConsumer, hc] at hstep
        split at hstep <;> cases hstep
        · exact absurd rfl ht
        · simp [popLeft, hc]
      | move h =>
        simp only [stepConsumer, hc] at hstep
        cases hstep
      | loadHead | storeHead =>
        simp only [stepConsumer, hc] at hstep
        cases hstep
        simp [popLeft, hc] at ht ⊢
    | move left =>
      simp only [machine, step] at hstep
      split at hstep <;> cases hstep
      rename_i hc
      simp [popLeft, hc]
    | _ => cases hown
  other_step := by
    intro s a t es hs hown hstep
    have hsame : t.consumer = s.consumer := by
      cases a with
      | consumer | move => cases hown
      | tryPop =>
        simp only [machine, step] at hstep
        cases hstep
      | tryEmplace =>
        simp only [machine, step] at hstep
        split at hstep <;> cases hstep
        rfl
      | producer =>
        simp only [machine, step, stepProducer] at hstep
        repeat' split at hstep
        all_goals cases hstep
        all_goals rfl
    refine ⟨by rwa [hsame], ?_⟩
    unfold popLeft
    rw [hsame]

/-- Neither side of `SPSCQueue` ever waits for the other, nor takes more than four steps. -/
theorem spsc_wait_free (T : Type*) [Inhabited T] (cap : Capacity) (s : State T) :
    (s.producer ≠ .idle →
      (machine T cap).EndsWithin emplaces (fun s => s.producer ≠ .idle) 4 s) ∧
    (s.consumer ≠ .idle → (machine T cap).EndsWithin pops (fun s => s.consumer ≠ .idle) 4 s) := by
  refine ⟨fun hs => (spsc_emplace T cap).ends hs ?_, fun hs => (spsc_pop T cap).ends hs ?_⟩
  · unfold emplaceLeft
    split <;> omega
  · unfold popLeft
    split <;> omega

end Spsc

section Spmc
open Spmc SpmcSlots

variable {n : Nat} {T : Type*} {s : Spmc.State n T}

def emplaceSteps : Spmc.Act n T → Bool
  | .producer => true
  | _ => false

/-- Inside `try_emplace`, or past the point where `emplace_wait` waits. -/
def Trying (s : Spmc.State n T) : Prop :=
  match s.producer with
  | .loadTail .tryEmplace _ | .loadSeq .tryEmplace _ _ | .construct _ _ | .storeSeq _ _
  | .storeTail _ _ | .notifyAll _ _ => True
  | _ => False

def tryLeft (s : Spmc.State n T) : Nat :=
  match s.producer with
  | .loadTail _ _ => 6
  | .loadSeq _ _ _ => 5
  | .construct _ _ => 4
  | .storeSeq _ _ => 3
  | .storeTail _ _ => 2
  | .notifyAll _ _ => 1
  | _ => 0

theorem producer_wake (hs : Trying s) (x : Waiter n) : (s.wake x).producer = s.producer := by
  cases x with
  | consumer i => rfl
  | producer =>
    change s.producer.woken = s.producer
    unfold Trying at hs
    cases hp : s.producer <;> simp [hp, ProducerPc.woken] at hs ⊢

theorem spmc_emplace (n : Nat) (T : Type*) (w : Width) (cap : Capacity) :
    (machine n T w cap).WaitFree emplaceSteps Trying tryLeft where
  able := by
    intro s hs
    refine ⟨.producer, rfl, ?_⟩
    unfold Trying at hs
    cases hp : s.producer with
    | loadSeq call arg t =>
      simp only [machine, step, stepProducer, hp]
      split
      · exact Option.some_ne_none _
      · cases call <;> exact Option.some_ne_none _
    | construct arg t => cases arg <;> simp [machine, step, stepProducer, hp]
    | loadTail | storeSeq | storeTail | notifyAll => simp [machine, step, stepProducer, hp]
    | _ => simp [hp] at hs
  left_pos := by
    intro s hs
    unfold Trying at hs
    cases hp : s.producer <;> simp [hp, tryLeft] at hs ⊢
  own_step := by
    intro s a t es hs hown hstep ht
    cases a with
    | producer =>
      simp only [machine, step] at hstep
      unfold Trying at hs ht
      cases hp : s.producer with
      | loadSeq call arg q =>
        simp only [stepProducer, hp] at hstep
        split at hstep
        · cases hstep
          simp [tryLeft, hp]
        · cases call <;> cases hstep
          · simp at ht
          · simp at ht
      | construct arg q =>
        cases arg <;> simp only [stepProducer, hp] at hstep <;> cases hstep
        · simp at ht
        · simp [tryLeft, hp]
      | loadTail | storeSeq | storeTail | notifyAll =>
        simp only [stepProducer, hp] at hstep
        cases hstep
        simp [tryLeft, hp] at ht ⊢
      | _ => simp [hp] at hs
    | _ => cases hown
  other_step := by
    intro s a t es hs hown hstep
    have hsame : t.producer = s.producer := by
      cases a with
      | producer => cases hown
      | emplace call arg =>
        simp only [machine, step] at hstep
        unfold Trying at hs
        cases hp : s.producer <;> simp [hp] at hs hstep
      | consumer i =>
        simp only [machine, step, stepConsumer] at hstep
        repeat' split at hstep
        all_goals cases hstep
        all_goals rfl
      | pop | casFails =>
        simp only [machine, step] at hstep
        repeat' split at hstep
        all_goals cases hstep
        all_goals rfl
      | notifyOne i woken =>
        simp only [machine, step, stepNotifyOne] at hstep
        repeat' split at hstep
        all_goals cases hstep
        · exact producer_wake hs _
        · rfl
      | spurious x =>
        simp only [machine, step] at hstep
        split at hstep <;> cases hstep
        exact producer_wake hs x
    unfold Trying tryLeft at *
    rw [hsame]
    exact ⟨hs, Nat.le_refl _⟩

/-- `try_emplace` is wait-free: consumers that stall anywhere, within the slot that it
needs or parked on it, do not hold it up. -/
theorem spmc_wait_free (w : Width) (cap : Capacity) (hs : Trying s) :
    (machine n T w cap).EndsWithin emplaceSteps Trying 6 s := by
  refine (spmc_emplace n T w cap).ends hs ?_
  unfold tryLeft
  split <;> omega

theorem spmc_wait_free_called : ∃ tr s, (machine 1 Nat none twoSlots.toCapacity).Run tr s ∧
    s.producer = .loadTail .tryEmplace (some 7) ∧
    (machine 1 Nat none twoSlots.toCapacity).EndsWithin emplaceSteps Trying 6 s :=
  ⟨_, _, Machine.run_of_exec ([.emplace .tryEmplace (some 7)] : List (Spmc.Act 1 Nat)) rfl, rfl,
    spmc_wait_free _ _ trivial⟩

end Spmc

section Broadcast
open Broadcast

variable {n : Nat} {T : Type*} [Inhabited T] {s : Broadcast.State n T}

def publishSteps : Broadcast.Act n T → Bool
  | .producer => true
  | _ => false

/-- The scan has a cursor to load for each consumer that it has not come to. -/
def publishLeft (s : Broadcast.State n T) : Nat :=
  match s.producer with
  | .idle => 0
  | .loadTail _ => n + 5
  | .scan _ _ i _ => n + 4 - i
  | .construct _ _ => 3
  | .assign _ _ => 2
  | .storeTail _ _ => 1

theorem broadcast_publish (n : Nat) (T : Type*) [Inhabited T] (w : Width) (cap : Capacity) :
    (machine n T w cap).WaitFree publishSteps (fun s => s.producer ≠ .idle) publishLeft where
  able := by
    intro s hs
    refine ⟨.producer, rfl, ?_⟩
    cases hp : s.producer with
    | idle => exact absurd hp hs
    | loadTail arg =>
      simp only [machine, step, stepProducer, hp]
      split <;> exact Option.some_ne_none _
    | scan arg t i least =>
      simp only [machine, step, stepProducer, hp]
      split
      · exact Option.some_ne_none _
      · split <;> exact Option.some_ne_none _
    | construct arg t => cases arg <;> simp [machine, step, stepProducer, hp]
    | assign | storeTail => simp [machine, step, stepProducer, hp]
  left_pos := by
    intro s hs
    unfold publishLeft
    cases hp : s.producer with
    | idle => exact absurd hp hs
    | scan arg t i least =>
      have hi := i.isLt
      change 0 < n + 4 - i.val
      omega
    | _ => exact Nat.succ_pos _
  own_step := by
    intro s a t es hs hown hstep ht
    cases a with
    | producer =>
      simp only [machine, step] at hstep
      cases hp : s.producer with
      | idle => exact absurd hp hs
      | loadTail arg =>
        simp only [stepProducer, hp] at hstep
        split at hstep <;> cases hstep
        all_goals simp [publishLeft, hp, State.atProducer]
      | scan arg q i least =>
        have hi := i.isLt
        simp only [stepProducer, hp] at hstep
        split at hstep
        · cases hstep
          simp only [publishLeft, hp, State.atProducer]
          omega
        · split at hstep <;> cases hstep
          · exact absurd rfl ht
          · simp only [publishLeft, hp, State.atProducer]
            omega
      | construct arg q =>
        cases arg <;> simp only [stepProducer, hp] at hstep <;> cases hstep
        · exact absurd rfl ht
        · simp [publishLeft, hp, State.atProducer]
      | assign v q =>
        simp only [stepProducer, hp] at hstep
        cases hstep
        simp [publishLeft, hp, State.atProducer]
      | storeTail v q =>
        simp only [stepProducer, hp] at hstep
        cases hstep
        exact absurd rfl ht
    | _ => cases hown
  other_step := by
    intro s a t es hs hown hstep
    have hsame : t.producer = s.producer := by
      cases a with
      | producer => cases hown
      | publish arg =>
        simp only [machine, step] at hstep
        cases hstep
      | consumer i =>
        simp only [machine, step, stepConsumer] at hstep
        repeat' split at hstep
        all_goals cases hstep
        all_goals rfl
      | consume | throws =>
        simp only [machine, step] at hstep
        repeat' split at hstep
        all_goals cases hstep
        all_goals rfl
    refine ⟨by rwa [hsame], ?_⟩
    unfold publishLeft
    rw [hsame]

/-- `try_publish` returns within `N + 4` steps, however long a consumer stays in its
callback. -/
theorem broadcast_wait_free (w : Width) (cap : Capacity) (hs : s.producer ≠ .idle) :
    (machine n T w cap).EndsWithin publishSteps (fun s => s.producer ≠ .idle) (n + 5) s := by
  refine (broadcast_publish n T w cap).ends hs ?_
  unfold publishLeft
  split <;> omega

theorem broadcast_wait_free_called : ∃ tr s, (machine 1 Nat none twoSlots.toCapacity).Run tr s ∧
    (machine 1 Nat none twoSlots.toCapacity).EndsWithin publishSteps (fun s => s.producer ≠ .idle)
      6 s :=
  ⟨_, _, Machine.run_of_exec ([.publish (some 7)] : List (Broadcast.Act 1 Nat)) rfl,
    broadcast_wait_free _ _ (by rintro ⟨⟩)⟩

end Broadcast

section Overwrite
open Overwrite

variable {n m : Nat} {D : Type*} {s : Overwrite.State n m D}

/-- The words that a copy has still to take over. -/
def wordsLeft (done : Fin m → Bool) : Nat := count (fun k => !done k)

theorem words_left_le (done : Fin m → Bool) : wordsLeft done ≤ m := by
  unfold wordsLeft count
  exact (Finset.card_le_univ _).trans_eq (Fintype.card_fin m)

theorem words_left_word {done : Fin m → Bool} {k : Fin m} (hk : done k = false) :
    wordsLeft (Function.update done k true) + 1 = wordsLeft done := by
  have hcount := count_update (p := fun j => !done j)
    (q := fun j => !Function.update done k true j) k
    (fun j hj => by rw [Function.update_of_ne hj])
  simpa [hk, wordsLeft] using hcount

def overwriteSteps : Overwrite.Act n m D → Bool
  | .producer | .producerWord _ => true
  | _ => false

def overwriteLeft (s : Overwrite.State n m D) : Nat :=
  match s.producer with
  | .idle => 0
  | .advance _ => m + 5
  | .mark _ _ => m + 4
  | .construct _ _ => m + 3
  | .copy _ _ done => wordsLeft done + 2
  | .announce _ _ => 1

theorem overwrite_publish (n m : Nat) (D : Type*) [Inhabited D] (w : Width) (cap : Capacity) :
    (machine n m D w cap).WaitFree overwriteSteps (fun s => s.producer ≠ .idle) overwriteLeft where
  able := by
    intro s hs
    cases hp : s.producer with
    | idle => exact absurd hp hs
    | construct arg pos =>
      exact ⟨.producer, rfl, by cases arg <;> simp [machine, step, stepProducer, hp]⟩
    | copy v pos done =>
      by_cases hall : ∀ k, done k = true
      · exact ⟨.producer, rfl, by simp [machine, step, stepProducer, hp, hall]⟩
      · obtain ⟨k, hk⟩ := not_forall.mp hall
        exact ⟨.producerWord k, rfl, by simp [machine, step, stepProducerWord, hp, hk]⟩
    | advance | mark | announce => exact ⟨.producer, rfl, by simp [machine, step, stepProducer, hp]⟩
  left_pos := by
    intro s hs
    unfold overwriteLeft
    cases hp : s.producer with
    | idle => exact absurd hp hs
    | _ => exact Nat.succ_pos _
  own_step := by
    intro s a t es hs hown hstep ht
    cases a with
    | producer =>
      simp only [machine, step] at hstep
      cases hp : s.producer with
      | idle => exact absurd hp hs
      | construct arg pos =>
        cases arg <;> simp only [stepProducer, hp] at hstep <;> cases hstep
        · exact absurd rfl ht
        · have hwords := words_left_le (fun _ : Fin m => false)
          simp only [overwriteLeft, hp, State.atProducer]
          omega
      | copy v pos done =>
        simp only [stepProducer, hp] at hstep
        split at hstep <;> cases hstep
        simp only [overwriteLeft, hp, State.atProducer]
        omega
      | advance arg | mark arg pos =>
        simp only [stepProducer, hp] at hstep
        cases hstep
        simp [overwriteLeft, hp, State.atProducer]
      | announce v pos =>
        simp only [stepProducer, hp] at hstep
        cases hstep
        exact absurd rfl ht
    | producerWord k =>
      simp only [machine, step, stepProducerWord] at hstep
      cases hp : s.producer with
      | copy v pos done =>
        simp only [hp] at hstep
        split at hstep
        · cases hstep
        · rename_i hk
          cases hstep
          have hwords := words_left_word (Bool.eq_false_iff.mpr hk)
          simp only [overwriteLeft, hp, State.atProducer]
          omega
      | _ =>
        simp only [hp] at hstep
        cases hstep
    | _ => cases hown
  other_step := by
    intro s a t es hs hown hstep
    have hsame : t.producer = s.producer := by
      cases a with
      | producer | producerWord => cases hown
      | publish arg =>
        simp only [machine, step] at hstep
        cases hstep
      | makeConsumer | tryRead =>
        simp only [machine, step] at hstep
        repeat' split at hstep
        all_goals cases hstep
        all_goals rfl
      | reader i =>
        obtain ⟨c, _, hread⟩ := Option.bind_eq_some_iff.mp hstep
        simp only [stepReader, lappedTo] at hread
        repeat' split at hread
        all_goals cases hread
        all_goals rfl
      | readerWord i k =>
        obtain ⟨c, _, hread⟩ := Option.bind_eq_some_iff.mp hstep
        simp only [stepReaderWord] at hread
        repeat' split at hread
        all_goals cases hread
        all_goals rfl
    refine ⟨by rwa [hsame], ?_⟩
    unfold overwriteLeft
    rw [hsame]

def readSteps (i : Fin n) : Overwrite.Act n m D → Bool
  | .reader j | .readerWord j _ => j = i
  | _ => false

def Reading (i : Fin n) (s : Overwrite.State n m D) : Prop :=
  ∃ c, s.consumers i = some c ∧ c.pc ≠ .idle

def stepsLeft : ReaderPc m D → Nat
  | .idle => 0
  | .loadSeq _ => m + 3
  | .copy _ done _ => wordsLeft done + 2
  | .loadPublished _ _ => 1

def readLeft (i : Fin n) (s : Overwrite.State n m D) : Nat :=
  ((s.consumers i).map (fun c => stepsLeft c.pc)).getD 0

theorem read_left_of {i : Fin n} {c : Consumer m D} (hc : s.consumers i = some c) :
    readLeft i s = stepsLeft c.pc := by
  unfold readLeft
  rw [hc]
  rfl

theorem read_left_set (s : Overwrite.State n m D) (i : Fin n) (c : Consumer m D) :
    readLeft i (s.setConsumer i c) = stepsLeft c.pc :=
  read_left_of (OverwriteMoves.consumers_self _ _ _)

theorem not_reading (i : Fin n) {c : Consumer m D} (hc : c.pc = .idle)
    (h : Reading i (s.setConsumer i c)) : False := by
  obtain ⟨c', hc', hne⟩ := h
  rw [OverwriteMoves.consumers_self] at hc'
  cases hc'
  exact hne hc

theorem overwrite_read [Inhabited D] (i : Fin n) (w : Width) (cap : Capacity) :
    (machine n m D w cap).WaitFree (readSteps i) (Reading i) (readLeft i) where
  able := by
    rintro s ⟨c, hc, hne⟩
    cases hpc : c.pc with
    | idle => exact absurd hpc hne
    | loadSeq out =>
      refine ⟨.reader i, decide_eq_true rfl, ?_⟩
      simp only [machine, step, hc, Option.bind_some, stepReader, hpc]
      repeat' split
      all_goals exact Option.some_ne_none _
    | copy s1 done out =>
      by_cases hall : ∀ k, done k = true
      · refine ⟨.reader i, decide_eq_true rfl, ?_⟩
        simp only [machine, step, hc, Option.bind_some, stepReader, hpc, if_pos hall]
        split <;> exact Option.some_ne_none _
      · obtain ⟨k, hk⟩ := not_forall.mp hall
        refine ⟨.readerWord i k, decide_eq_true rfl, ?_⟩
        simp [machine, step, hc, stepReaderWord, hpc, hk]
    | loadPublished newest out =>
      exact ⟨.reader i, decide_eq_true rfl, by simp [machine, step, hc, stepReader, hpc]⟩
  left_pos := by
    rintro s ⟨c, hc, hne⟩
    rw [read_left_of hc]
    cases hpc : c.pc with
    | idle => exact absurd hpc hne
    | _ => exact Nat.succ_pos _
  own_step := by
    rintro s a t es ⟨c, hc, hne⟩ hown hstep ht
    rw [read_left_of hc]
    cases a with
    | reader j =>
      obtain rfl : j = i := of_decide_eq_true hown
      simp only [machine, step, hc, Option.bind_some] at hstep
      cases hpc : c.pc with
      | idle => exact absurd hpc hne
      | loadSeq out =>
        simp only [stepReader, hpc] at hstep
        repeat' split at hstep
        all_goals cases hstep
        · exact (not_reading j rfl ht).elim
        · exact (not_reading j rfl ht).elim
        · rw [read_left_set]
          simp only [stepsLeft]
          omega
        · have hwords := words_left_le (fun _ : Fin m => false)
          rw [read_left_set]
          simp only [stepsLeft]
          omega
      | copy s1 done out =>
        simp only [stepReader, hpc] at hstep
        repeat' split at hstep
        all_goals cases hstep
        · exact (not_reading j rfl ht).elim
        · rw [read_left_set]
          simp only [stepsLeft]
          omega
      | loadPublished newest out =>
        simp only [stepReader, hpc, lappedTo] at hstep
        split at hstep
        all_goals cases hstep
        all_goals exact (not_reading j rfl ht).elim
    | readerWord j k =>
      obtain rfl : j = i := of_decide_eq_true hown
      simp only [machine, step, hc, Option.bind_some, stepReaderWord] at hstep
      cases hpc : c.pc with
      | copy s1 done out =>
        simp only [hpc] at hstep
        split at hstep
        · cases hstep
        · rename_i hk
          cases hstep
          have hwords := words_left_word (Bool.eq_false_iff.mpr hk)
          rw [read_left_set]
          simp only [stepsLeft]
          omega
      | _ =>
        simp only [hpc] at hstep
        cases hstep
    | _ => cases hown
  other_step := by
    rintro s a t es ⟨c, hc, hne⟩ hown hstep
    have hsame : t.consumers i = s.consumers i := by
      have hother : ∀ j c', j ≠ i → (s.setConsumer j c').consumers i = s.consumers i := by
        intro j c' hj
        rw [OverwriteMoves.consumers_set_consumer, if_neg (Ne.symm hj)]
      cases a with
      | publish arg =>
        simp only [machine, step] at hstep
        split at hstep <;> cases hstep
        rfl
      | producer =>
        simp only [machine, step, stepProducer] at hstep
        repeat' split at hstep
        all_goals cases hstep
        all_goals rfl
      | producerWord k =>
        simp only [machine, step, stepProducerWord] at hstep
        repeat' split at hstep
        all_goals cases hstep
        all_goals rfl
      | makeConsumer j =>
        simp only [machine, step] at hstep
        split at hstep <;> cases hstep
        rename_i hnone
        exact hother j _ (by rintro rfl; simp [hc] at hnone)
      | tryRead j out =>
        simp only [machine, step] at hstep
        repeat' split at hstep
        all_goals cases hstep
        rename_i c' hc' _ hidle
        refine hother j _ ?_
        rintro rfl
        rw [hc] at hc'
        cases hc'
        exact hne hidle
      | reader j =>
        have hj : j ≠ i := of_decide_eq_false hown
        obtain ⟨c', _, hread⟩ := Option.bind_eq_some_iff.mp hstep
        simp only [stepReader, lappedTo] at hread
        repeat' split at hread
        all_goals cases hread
        all_goals exact hother j _ hj
      | readerWord j k =>
        have hj : j ≠ i := of_decide_eq_false hown
        obtain ⟨c', _, hread⟩ := Option.bind_eq_some_iff.mp hstep
        simp only [stepReaderWord] at hread
        repeat' split at hread
        all_goals cases hread
        all_goals exact hother j _ hj
    refine ⟨⟨c, hsame.trans hc, hne⟩, ?_⟩
    unfold readLeft
    rw [hsame]

/-- A publisher never waits for a reader, and a reader that is overtaken while it copies
gives up rather than try again: `publish` and `try_read` of an item of `m` words return
within `m + 5` and `m + 3` steps. -/
theorem overwrite_wait_free [Inhabited D] (w : Width) (cap : Capacity)
    (s : Overwrite.State n m D) :
    (s.producer ≠ .idle →
      (machine n m D w cap).EndsWithin overwriteSteps (fun s => s.producer ≠ .idle) (m + 5) s) ∧
    ∀ i, Reading i s → (machine n m D w cap).EndsWithin (readSteps i) (Reading i) (m + 3) s := by
  refine ⟨fun hs => (overwrite_publish n m D w cap).ends hs ?_,
    ?_⟩
  · unfold overwriteLeft
    split
    case h_5 _ _ done _ =>
      have hwords := words_left_le done
      omega
    all_goals omega
  · rintro i ⟨c, hc, hne⟩
    refine (overwrite_read i w cap).ends ⟨c, hc, hne⟩ ?_
    rw [read_left_of hc]
    cases c.pc with
    | copy s1 done out =>
      have hwords := words_left_le done
      simp only [stepsLeft]
      omega
    | _ => simp [stepsLeft]

theorem overwrite_wait_free_called : ∃ tr s,
    (machine 1 1 Nat none twoSlots.toCapacity).Run tr s ∧
    (machine 1 1 Nat none twoSlots.toCapacity).EndsWithin overwriteSteps
      (fun s => s.producer ≠ .idle) 6 s ∧
    (machine 1 1 Nat none twoSlots.toCapacity).EndsWithin (readSteps 0) (Reading 0) 4 s := by
  let as : List (Overwrite.Act 1 1 Nat) :=
    [.makeConsumer 0, .publish (some (fun _ => 7)), .tryRead 0 (fun _ => 9)]
  have hr : (machine 1 1 Nat none twoSlots.toCapacity).Run _ _ := Machine.run_of_exec as rfl
  exact ⟨_, _, hr, (overwrite_wait_free none twoSlots.toCapacity _).1 (by rintro ⟨⟩),
    (overwrite_wait_free none twoSlots.toCapacity _).2 0 ⟨_, rfl, by rintro ⟨⟩⟩⟩

end Overwrite

end Toolbox.Proofs.WaitFree
