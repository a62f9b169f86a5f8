import Toolbox.Proofs.SpmcSlots

namespace Toolbox.Proofs.SpmcSleepers
open Base Spmc SpmcMoves SpmcSlots

variable {n : Nat} {T : Type*} {cap : RingCapacity} {s s' : State n T} {a : Act n T}
  {tr es : List (Event n T)} {log : List T}

/-- The producer stands between its sequence store for position `h` and the
following `notify_all`. -/
def Announcing (h : Nat) : ProducerPc T → Prop
  | .storeTail _ t | .notifyAll _ t => t = h
  | _ => False

/-- A consumer in `atomic::wait` remembers a sequence from before position `h`
was produced, and sleeps only while that is so or its wakeup is still to come. -/
def Patient (log : List T) (p : ProducerPc T) : ConsumerPc T → Prop
  | .wait h old => old ≤ h
  | .parked h old => old ≤ h ∧ (log.length ≤ h ∨ Announcing h p)
  | _ => True

theorem Patient.keep {p p' : ProducerPc T} {pc : ConsumerPc T} (h : Patient log p pc)
    (hkeep : ∀ q, Announcing q p → Announcing q p') : Patient log p' pc := by
  cases pc with
  | parked q old => exact ⟨h.1, h.2.imp id (hkeep q)⟩
  | _ => exact h

theorem Patient.woken {p : ProducerPc T} {pc : ConsumerPc T} (h : Patient log p pc) :
    Patient log p pc.woken := by
  cases pc with
  | parked q old => exact h.1
  | _ => exact h

theorem announcing_woken {p : ProducerPc T} {q : Nat} (h : Announcing q p) :
    Announcing q p.woken := by
  cases p <;> exact h

theorem patient_at_consumer (h : ∀ j, Patient log s.producer (s.consumers j)) {i : Fin n}
    {pc : ConsumerPc T} (hpc : Patient log s.producer pc) (j : Fin n) :
    Patient log (s.atConsumer i pc).producer ((s.atConsumer i pc).consumers j) := by
  rw [producer_at_consumer, consumers_at_consumer]
  split
  · exact hpc
  · exact h j

theorem patient_wake (h : ∀ j, Patient log s.producer (s.consumers j)) (x : Waiter n)
    (j : Fin n) : Patient log (s.wake x).producer ((s.wake x).consumers j) := by
  cases x with
  | producer => exact (h j).keep (fun _ => announcing_woken)
  | consumer i => exact patient_at_consumer h (h i).woken j

/-- A consumer goes to sleep only where nothing has been produced yet. -/
theorem patient_consumer_move (hi : Inv cap.toCapacity log s)
    (h : ∀ j, Patient log s.producer (s.consumers j)) {i : Fin n} {pc : ConsumerPc T}
    (hm : ConsumerMove cap.toCapacity s i pc es) : Patient log s.producer pc := by
  have hok := hi.consumer i
  have hpatient := h i
  cases hm with
  | block hc hseq => exact Nat.lt_succ_iff.mp hseq
  | @park q old hc hseq =>
    rw [hc] at hok hpatient
    refine ⟨hpatient, .inl ?_⟩
    have hold : old ≤ q := hpatient
    have hfilled := (hi.seq_range hok).2.2
    omega
  | _ => trivial

theorem patient_producer_move (h : ∀ j, Patient log s.producer (s.consumers j))
    {pc : ProducerPc T} (hm : ProducerMove cap.toCapacity s pc es) (j : Fin n) :
    Patient log pc (s.consumers j) := by
  refine (h j).keep ?_
  intro q hq
  cases hm with
  | call hp | loadTail hp | free hp _ | full hp _ | block hp _ | park hp _ | changed hp _
  | threw hp =>
    rw [hp] at hq
    exact hq.elim

/-- Position `log.length` is produced, and the producer is about to say so. -/
theorem Patient.produce {p : ProducerPc T} {pc : ConsumerPc T} (h : Patient log p pc) (v : T)
    (hp : ∀ q, ¬ Announcing q p) : Patient (log ++ [v]) (.storeTail v log.length) pc := by
  cases pc with
  | parked q old =>
    refine ⟨h.1, ?_⟩
    have hle := h.2.resolve_right (hp q)
    rcases Nat.lt_or_eq_of_le hle with hlt | heq
    · left
      rw [List.length_append, List.length_singleton]
      exact hlt
    · exact .inr heq
  | _ => exact h

/-- Nobody on the announced slot is left asleep by the `notify_all`. -/
theorem patient_wake_all {v : T} {t : Nat} (hp : s.producer = .notifyAll v t)
    (h : ∀ j, Patient log s.producer (s.consumers j)) (j : Fin n) :
    Patient log .idle ((s.wakeAll cap.toCapacity t).consumers j) := by
  have hj := h j
  simp only [State.wakeAll]
  split
  · cases hc : s.consumers j with
    | parked q old =>
      rw [hc] at hj
      exact hj.1
    | wait q old =>
      rw [hc] at hj
      exact hj
    | _ => trivial
  · rename_i hnot
    cases hc : s.consumers j with
    | parked q old =>
      rw [hc, hp] at hj
      refine ⟨hj.1, .inl (hj.2.resolve_right ?_)⟩
      intro ht
      obtain rfl : t = q := ht
      apply hnot
      simp [State.ParkedOn, State.parkedAt, hc]
    | wait q old =>
      rw [hc] at hj
      exact hj
    | _ => trivial

theorem move_patient (hi : Inv cap.toCapacity log s)
    (h : ∀ j, Patient log s.producer (s.consumers j)) (hm : Move cap.toCapacity s a s' es)
    (j : Fin n) : Patient (log ++ produced es) s'.producer (s'.consumers j) := by
  have hidle : ∀ p : ProducerPc T, Patient log p (.idle : ConsumerPc T) := fun _ => trivial
  cases hm with
  | producer hm =>
    have hnone : produced es = [] := by cases hm <;> rfl
    simpa [hnone] using patient_producer_move h hm j
  | consumer hm =>
    have hnone : produced es = [] := by cases hm <;> rfl
    simpa [hnone] using patient_at_consumer h (patient_consumer_move hi h hm) j
  | @construct v t hp =>
    have hkept : Patient log (.storeSeq v t) (s.consumers j) := by
      apply (h j).keep
      intro q hq
      rw [hp] at hq
      exact hq.elim
    simpa [produced] using hkept
  | @produce v t hp =>
    have hprod := hi.producer
    rw [hp] at hprod
    obtain ⟨rfl, _⟩ := hprod
    apply (h j).produce v
    intro q hq
    rw [hp] at hq
    exact hq
  | @storeTail v t hp =>
    have hkept : Patient log (.notifyAll v t) (s.consumers j) := by
      apply (h j).keep
      intro q hq
      rw [hp] at hq
      exact hq
    simpa [produced] using hkept
  | notifyAll hp => simpa [produced] using patient_wake_all hp h j
  | @claim i call q hc _ =>
    have hnew : Patient log s.producer (.moveOut q) := trivial
    simpa [produced] using patient_at_consumer (s := { s with head := q + 1 }) h hnew j
  | @moveOut i q v hc _ =>
    have hnew : Patient log s.producer (.storeSeq q v) := trivial
    simpa [produced] using
      patient_at_consumer (s := s.setStorage cap.toCapacity q none) h hnew j
  | @release i q v hc =>
    have hnew : Patient log s.producer (.notifyOne q v) := trivial
    simpa [produced] using
      patient_at_consumer (s := s.storeSeq cap.toCapacity q (q + cap.size)) h hnew j
  | undefined | notifyNobody => simpa [produced] using patient_at_consumer h (hidle _) j
  | notify => simpa [produced] using patient_at_consumer (patient_wake h _) (hidle _) j
  | wake => simpa [produced] using patient_wake h _ j

theorem run_patient (hr : (machine n T none cap.toCapacity).Run tr s) :
    ∀ j, Patient (produced tr) s.producer (s.consumers j) := by
  refine Machine.Run.invariant
    (I := fun tr s => ∀ j, Patient (produced tr) s.producer (s.consumers j)) ?_ ?_ hr
  · exact fun _ => trivial
  · intro tr s a s' es hr h hs j
    have hnext := move_patient (run_inv hr) h (step_moves hs) j
    rwa [produced, List.filterMap_append]

/-- A consumer asleep in `pop_wait` has nothing to claim or its wakeup is coming. -/
theorem sleeper_notified (hr : (machine n T none cap.toCapacity).Run tr s) {i : Fin n}
    {h old : Nat} (hc : s.consumers i = .parked h old) :
    ((produced tr).length ≤ h ∨
      ∃ v, s.producer = .storeTail v h ∨ s.producer = .notifyAll v h) ∧
    (s.head < (produced tr).length →
      ∃ v, s.producer = .storeTail v h ∨ s.producer = .notifyAll v h) := by
  have hpatient := run_patient hr i
  have hbehind := (run_inv hr).consumer i
  rw [hc] at hpatient hbehind
  have hcoming : Announcing h s.producer →
      ∃ v, s.producer = .storeTail v h ∨ s.producer = .notifyAll v h := by
    intro ha
    cases hp : s.producer with
    | storeTail v t =>
      rw [hp] at ha
      obtain rfl : t = h := ha
      exact ⟨v, .inl rfl⟩
    | notifyAll v t =>
      rw [hp] at ha
      obtain rfl : t = h := ha
      exact ⟨v, .inr rfl⟩
    | _ =>
      rw [hp] at ha
      exact ha.elim
  refine ⟨hpatient.2.imp id hcoming, ?_⟩
  intro hunclaimed
  apply hcoming
  apply hpatient.2.resolve_left
  have hle : h ≤ s.head := hbehind
  omega

/-- A consumer goes to sleep on the empty queue and the first item is stored. -/
def sleepThenStore (i : Fin 1) : List (Act 1 Nat) :=
  [.pop i .popWait, .consumer i, .consumer i, .consumer i,
   .emplace .tryEmplace (some 7), .producer, .producer, .producer, .producer]

theorem sleeper_notified_first_item : ∃ tr s h old,
    (machine 1 Nat none twoSlots.toCapacity).Run tr s ∧ s.consumers 0 = .parked h old ∧
    s.head < (produced tr).length ∧ ∃ v, s.producer = .storeTail v h ∨ s.producer = .notifyAll v h := by
  have hr : (machine 1 Nat none twoSlots.toCapacity).Run _ _ :=
    Machine.run_of_exec (sleepThenStore 0) rfl
  exact ⟨_, _, 0, 0, hr, rfl, Nat.one_pos, (sleeper_notified hr (i := 0) rfl).2 Nat.one_pos⟩

end Toolbox.Proofs.SpmcSleepers
