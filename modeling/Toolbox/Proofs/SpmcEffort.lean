import Mathlib.Algebra.Order.BigOperators.Group.Finset
import Toolbox.Base.Count
import Toolbox.Base.Effort
import Toolbox.Proofs.SpmcRetries

namespace Toolbox.Proofs.SpmcEffort
open Base Spmc SpmcMoves SpmcSlots

variable {n : Nat} {T : Type*} {cap : RingCapacity} {s s' : State n T} {a : Act n T}
  {es : List (Event n T)} {log : List T}

/-- How many steps the producer's call has before it, with those that its item and its
notification cause. The check of `atomic::wait` is repeated if the slot has changed. -/
def producerEffort (cap : Capacity) (s : State n T) : ProducerPc T → Nat
  | .idle => 0
  | .loadTail _ _ => 22 * n + 16
  | .loadSeq _ _ _ => 22 * n + 15
  | .wait _ t old => if s.seq cap t = old then 22 * n + 14 else 22 * n + 16
  | .construct _ _ => 22 * n + 14
  | .parked _ _ _ | .storeSeq _ _ => 22 * n + 13
  | .storeTail _ _ => 7 * n + 2
  | .notifyAll _ _ => 7 * n + 1

/-- The same for a consumer. One that has fallen behind `head_` has to load again. -/
def consumerEffort (cap : Capacity) (s : State n T) : ConsumerPc T → Nat
  | .idle | .parked _ _ => 0
  | .loadHead _ => 4
  | .loadSeq _ h => if s.head = h then 3 else 6
  | .reload _ _ => 5
  | .cas _ h => if s.head = h then 2 else 5
  | .wait h old => if s.seq cap h = old then 1 else 7
  | .moveOut _ => 6 * n + 12
  | .storeSeq _ _ => 6 * n + 11
  | .notifyOne _ _ => 8

/-- The items that consumers can have seen. -/
def published (s : State n T) : Nat :=
  match s.producer with
  | .storeTail _ _ => s.tail + 1
  | _ => s.tail

/-- What all threads together still have to do. An item that waits stands for the steps
of the pop that will claim it, and for those of the pops that will lose the race for it. -/
def effort (cap : Capacity) (s : State n T) : Nat :=
  producerEffort cap s s.producer + ∑ i, consumerEffort cap s (s.consumers i) +
    (9 * n + 8) * (published s - s.head)

/-- What a choice adds that is nobody's next step: a new call, a compare-exchange that
fails for no reason, a wakeup for no reason. -/
def brings (n : Nat) : Act n T → Nat
  | .emplace _ _ => 22 * n + 17
  | .pop _ _ => 5
  | .casFails _ => 2
  | .spurious _ => 8
  | .producer | .consumer _ | .notifyOne _ _ => 0

theorem published_eq (hi : Inv cap.toCapacity log s) : published s = log.length := by
  have hok := hi.producer
  unfold published
  cases hp : s.producer with
  | idle | loadTail =>
    rw [hp] at hok
    exact hok
  | loadSeq | wait | parked =>
    rw [hp] at hok
    exact hok.2
  | construct | storeSeq | notifyAll =>
    rw [hp] at hok
    exact hok.2.1
  | storeTail v t =>
    rw [hp] at hok
    rw [hok.2.1]
    exact hok.1

section Parts

variable (cap : Capacity)

theorem effort_publish (s : State n T) (pc : ProducerPc T) :
    effort cap (s.atProducer pc) + producerEffort cap s s.producer +
        (9 * n + 8) * (published s - s.head) =
      effort cap s + producerEffort cap s pc +
        (9 * n + 8) * (published (s.atProducer pc) - s.head) := by
  unfold effort
  change producerEffort cap s pc + ∑ i, consumerEffort cap s (s.consumers i) +
    (9 * n + 8) * (published (s.atProducer pc) - s.head) + _ + _ = _
  omega

theorem effort_at_producer {pc : ProducerPc T}
    (hpub : published (s.atProducer pc) = published s) :
    effort cap (s.atProducer pc) + producerEffort cap s s.producer =
      effort cap s + producerEffort cap s pc := by
  have heffort := effort_publish cap s pc
  rw [hpub] at heffort
  omega

theorem effort_at_consumer (s : State n T) (i : Fin n) (pc : ConsumerPc T) :
    effort cap (s.atConsumer i pc) + consumerEffort cap s (s.consumers i) =
      effort cap s + consumerEffort cap s pc := by
  have hsum := sum_update (consumerEffort cap s) s.consumers i pc
  unfold effort
  change producerEffort cap s s.producer +
    ∑ j, consumerEffort cap s (Function.update s.consumers i pc j) +
    (9 * n + 8) * (published s - s.head) + _ = _
  omega

/-- If nobody's share grows by more than `d`, that of all does by no more than `n * d`. -/
theorem shares_le {f g : Fin n → Nat} {d : Nat} (h : ∀ i, f i ≤ g i + d) :
    ∑ i, f i ≤ ∑ i, g i + n * d :=
  calc ∑ i, f i
    _ ≤ ∑ i, (g i + d) := Finset.sum_le_sum (fun i _ => h i)
    _ = ∑ i, g i + n * d := by
      rw [Finset.sum_add_distrib, Finset.sum_const_nat (fun _ _ => rfl), Finset.card_univ,
        Fintype.card_fin]

/-- A store to a slot sends those who wait for it back to look. -/
theorem effort_store_seq (s : State n T) (p x : Nat) :
    effort cap (s.storeSeq cap p x) ≤ effort cap s + 6 * n + 2 := by
  have hproducer : producerEffort cap (s.storeSeq cap p x) s.producer ≤
      producerEffort cap s s.producer + 2 := by
    cases s.producer with
    | wait arg t old =>
      simp only [producerEffort]
      split <;> split <;> omega
    | _ => exact Nat.le_add_right _ _
  have hconsumers := shares_le (n := n)
    (f := fun i => consumerEffort cap (s.storeSeq cap p x) (s.consumers i))
    (g := fun i => consumerEffort cap s (s.consumers i)) (d := 6) (by
      intro i
      cases s.consumers i with
      | wait h old =>
        simp only [consumerEffort]
        split <;> split <;> omega
      | _ => exact Nat.le_add_right _ _)
  unfold effort
  change producerEffort cap (s.storeSeq cap p x) s.producer +
    ∑ i, consumerEffort cap (s.storeSeq cap p x) (s.consumers i) +
    (9 * n + 8) * (published s - s.head) ≤ _
  omega

/-- A claim leaves everybody else behind `head_`. -/
theorem effort_set_head (s : State n T) {h : Nat} (hhead : s.head = h) (hlt : h < published s) :
    effort cap { s with head := h + 1 } + 6 * n + 8 ≤ effort cap s := by
  have hconsumers := shares_le (n := n)
    (f := fun i => consumerEffort cap { s with head := h + 1 } (s.consumers i))
    (g := fun i => consumerEffort cap s (s.consumers i)) (d := 3) (by
      intro i
      cases s.consumers i with
      | loadSeq call q | cas call q =>
        simp only [consumerEffort]
        split <;> split <;> omega
      | _ => exact Nat.le_add_right _ _)
  have hitems : (9 * n + 8) * (published s - s.head) =
      (9 * n + 8) * (published s - (h + 1)) + (9 * n + 8) := by
    rw [← Nat.mul_succ]
    congr 1
    omega
  unfold effort
  rw [hitems]
  change producerEffort cap s s.producer +
    ∑ i, consumerEffort cap { s with head := h + 1 } (s.consumers i) +
    (9 * n + 8) * (published s - (h + 1)) + _ + _ ≤ _
  omega

theorem effort_set_storage (s : State n T) (p : Nat) (b : Option T) :
    effort cap (s.setStorage cap p b) = effort cap s := by
  have hproducer : ∀ pc, producerEffort cap (s.setStorage cap p b) pc = producerEffort cap s pc := by
    intro pc
    cases pc with
    | wait => simp only [producerEffort, seq_set_storage]
    | _ => rfl
  have hconsumer : ∀ pc, consumerEffort cap (s.setStorage cap p b) pc = consumerEffort cap s pc := by
    intro pc
    cases pc with
    | wait => simp only [consumerEffort, seq_set_storage]
    | _ => rfl
  unfold effort
  simp only [hproducer, hconsumer]
  rfl

theorem producer_effort_woken (pc : ProducerPc T) :
    producerEffort cap s pc.woken ≤ producerEffort cap s pc + 7 := by
  cases pc with
  | parked arg t old =>
    simp only [ProducerPc.woken, producerEffort]
    split <;> omega
  | _ => exact Nat.le_add_right _ _

theorem consumer_effort_woken (pc : ConsumerPc T) :
    consumerEffort cap s pc.woken ≤ consumerEffort cap s pc + 7 := by
  cases pc with
  | parked h old =>
    simp only [ConsumerPc.woken, consumerEffort]
    split <;> omega
  | _ => exact Nat.le_add_right _ _

theorem published_woken (s : State n T) : published (s.atProducer s.producer.woken) = published s := by
  unfold published
  cases hp : s.producer <;> simp [State.atProducer, ProducerPc.woken]

theorem effort_wake (s : State n T) (x : Waiter n) : effort cap (s.wake x) ≤ effort cap s + 7 := by
  cases x with
  | producer =>
    have heffort := effort_at_producer cap (published_woken s)
    have hwoken := producer_effort_woken cap (s := s) s.producer
    change effort cap (s.atProducer s.producer.woken) ≤ _
    omega
  | consumer i =>
    have heffort := effort_at_consumer cap s i (s.consumers i).woken
    have hwoken := consumer_effort_woken cap (s := s) (s.consumers i)
    change effort cap (s.atConsumer i (s.consumers i).woken) ≤ _
    omega

theorem producer_wake_all {v : T} {t : Nat} (hp : s.producer = .notifyAll v t) (pos : Nat) :
    (s.wakeAll cap pos).producer = .notifyAll v t := by
  simp only [State.wakeAll, hp, ProducerPc.woken, ite_self]

/-- A parked consumer is given steps by the producer's `notify_all`. -/
theorem effort_wake_all {v : T} {t : Nat} (hp : s.producer = .notifyAll v t) (pos : Nat) :
    effort cap (s.wakeAll cap pos) ≤ effort cap s + 7 * n := by
  have hproducer := producer_wake_all cap hp pos
  have hconsumers := shares_le (n := n)
    (f := fun i => consumerEffort cap s ((s.wakeAll cap pos).consumers i))
    (g := fun i => consumerEffort cap s (s.consumers i)) (d := 7) (by
      intro i
      simp only [State.wakeAll]
      split
      · exact consumer_effort_woken cap _
      · exact Nat.le_add_right _ _)
  have hpublished : published (s.wakeAll cap pos) = published s := by
    unfold published
    rw [hproducer, hp]
    rfl
  unfold effort
  rw [hproducer, hpublished, ← hp]
  change producerEffort cap s s.producer +
    ∑ i, consumerEffort cap s ((s.wakeAll cap pos).consumers i) +
    (9 * n + 8) * (published s - s.head) ≤ _
  omega

end Parts

section Moves

/-- A step that moves one program counter on, at a slot that nobody else has changed. -/
theorem pays_producer {pc : ProducerPc T} (hpub : published (s.atProducer pc) = published s)
    (hless : producerEffort cap.toCapacity s pc + 1 ≤ producerEffort cap.toCapacity s s.producer) :
    effort cap.toCapacity (s.atProducer pc) + 1 ≤ effort cap.toCapacity s := by
  have heffort := effort_at_producer cap.toCapacity hpub
  omega

theorem pays_consumer {i : Fin n} {pc : ConsumerPc T}
    (hless : consumerEffort cap.toCapacity s pc + 1 ≤
      consumerEffort cap.toCapacity s (s.consumers i)) :
    effort cap.toCapacity (s.atConsumer i pc) + 1 ≤ effort cap.toCapacity s := by
  have heffort := effort_at_consumer cap.toCapacity s i pc
  omega

theorem producer_move_pays {pc : ProducerPc T} (hm : ProducerMove cap.toCapacity s pc es)
    (hbusy : s.producer ≠ .idle) :
    effort cap.toCapacity (s.atProducer pc) + 1 ≤ effort cap.toCapacity s := by
  refine pays_producer ?_ ?_
  · cases hm with
    | call hp => exact absurd hp hbusy
    | loadTail hp | free hp _ | full hp _ | block hp _ | park hp _ | changed hp _ | threw hp =>
      unfold published
      rw [hp]
      rfl
  · cases hm with
    | call hp => exact absurd hp hbusy
    | loadTail hp | free hp _ | full hp _ | threw hp =>
      rw [hp]
      simp only [producerEffort]
      omega
    | block hp _ =>
      rw [hp]
      simp [producerEffort]
    | park hp hseq | changed hp hseq =>
      rw [hp]
      simp [producerEffort, hseq]

/-- A consumer's step moves it on, unless it begins a call or its exchange fails for no
reason. One that finds its slot already freed is behind `head_`. -/
theorem consumer_move_pays (hi : Inv cap.toCapacity log s) {i : Fin n} {pc : ConsumerPc T}
    (hm : ConsumerMove cap.toCapacity s i pc es) (hbusy : s.consumers i ≠ .idle)
    (hreal : .casFailed i true ∉ es) :
    effort cap.toCapacity (s.atConsumer i pc) + 1 ≤ effort cap.toCapacity s := by
  refine pays_consumer ?_
  have hok := hi.consumer i
  cases hm with
  | call hc => exact absurd hc hbusy
  | loadHead hc | reload hc =>
    rw [hc]
    simp [consumerEffort]
  | ready hc _ | empty hc _ =>
    rw [hc]
    simp only [consumerEffort]
    split <;> omega
  | block hc _ =>
    rw [hc]
    simp only [consumerEffort, ↓reduceIte]
    split <;> omega
  | stale hc hseq =>
    rw [hc] at hok ⊢
    have hbehind := SpmcRetries.passed hi hok hseq
    simp only [consumerEffort, if_neg (Nat.ne_of_gt hbehind)]
    omega
  | park hc hseq =>
    rw [hc]
    simp [consumerEffort, hseq]
  | changed hc hseq =>
    rw [hc]
    simp only [consumerEffort, if_neg hseq]
    split <;> omega
  | lost hc hhead =>
    rw [hc]
    simp [consumerEffort, hhead]
  | spurious => exact absurd (List.mem_singleton.mpr rfl) hreal

/-- Every step that is somebody's next one leaves less to do. -/
theorem move_pays (hi : Inv cap.toCapacity log s) (hm : Move cap.toCapacity s a s' es)
    (hproducer : s.producer = .idle → s'.producer = .idle)
    (hconsumers : ∀ i, s.consumers i = .idle → s'.consumers i = .idle)
    (hreal : ∀ i, .casFailed i true ∉ es) (hwake : ∀ x, a ≠ .spurious x) :
    effort cap.toCapacity s' + 1 ≤ effort cap.toCapacity s := by
  have hpublished := published_eq hi
  cases hm with
  | @producer a pc es hm =>
    by_cases hp : s.producer = .idle
    · have hidle : pc = .idle := hproducer hp
      subst hidle
      cases hm with
      | full hp' | threw hp' =>
        rw [hp] at hp'
        cases hp'
    · exact producer_move_pays hm hp
  | @consumer a i pc es hm =>
    by_cases hc : s.consumers i = .idle
    · have hidle := hconsumers i hc
      rw [consumers_at_consumer, if_pos rfl] at hidle
      subst hidle
      cases hm with
      | empty hc' =>
        rw [hc] at hc'
        cases hc'
    · exact consumer_move_pays hi hm hc (hreal i)
  | @construct v t hp =>
    have hpub : published ((s.setStorage cap.toCapacity t (some v)).atProducer (.storeSeq v t)) =
        published (s.setStorage cap.toCapacity t (some v)) := by
      unfold published
      rw [producer_set_storage, hp]
      rfl
    have heffort := effort_at_producer cap.toCapacity hpub
    rw [effort_set_storage, producer_set_storage, hp] at heffort
    simp only [producerEffort] at heffort
    omega
  | @produce v t hp =>
    have hnext := published_eq (hi.produce hp)
    have hstore := effort_store_seq cap.toCapacity s t (t + 1)
    have heffort := effort_publish cap.toCapacity (s.storeSeq cap.toCapacity t (t + 1))
      (.storeTail v t)
    have hbefore : published (s.storeSeq cap.toCapacity t (t + 1)) = log.length := hpublished
    have hitem : (9 * n + 8) * (log.length + 1 - s.head) = (9 * n + 8) * (log.length - s.head) +
        (9 * n + 8) := by
      rw [← Nat.mul_succ, Nat.succ_sub hi.head_le]
    rw [hnext, hbefore, List.length_append, List.length_singleton, producer_store_seq, hp,
      head_store_seq, hitem] at heffort
    simp only [producerEffort] at heffort
    omega
  | @storeTail v t hp =>
    have hafter : published ({ s with tail := t + 1 }.atProducer (.notifyAll v t)) =
        published s := by
      rw [hpublished]
      exact published_eq (hi.store_tail hp)
    unfold effort
    rw [hafter, hp]
    change 7 * n + 1 + ∑ i, consumerEffort cap.toCapacity s (s.consumers i) +
      (9 * n + 8) * (published s - s.head) + 1 ≤
      7 * n + 2 + ∑ i, consumerEffort cap.toCapacity s (s.consumers i) +
      (9 * n + 8) * (published s - s.head)
    omega
  | @notifyAll v t hp =>
    have hwakes := effort_wake_all cap.toCapacity hp t
    have hproducer := producer_wake_all cap.toCapacity hp t
    have hpub : published ((s.wakeAll cap.toCapacity t).atProducer .idle) =
        published (s.wakeAll cap.toCapacity t) := by
      unfold published
      rw [hproducer]
      rfl
    have heffort := effort_at_producer cap.toCapacity hpub
    rw [hproducer] at heffort
    simp only [producerEffort] at heffort
    omega
  | @claim i call h hc hhead =>
    have hlt : h < published s := by
      have hok := hi.consumer i
      rw [hc] at hok
      rw [hpublished]
      exact hok.2
    have hhead' := effort_set_head cap.toCapacity s hhead hlt
    have heffort := effort_at_consumer cap.toCapacity { s with head := h + 1 } i (.moveOut h)
    have hsame : ({ s with head := h + 1 } : State n T).consumers i = .cas call h := hc
    rw [hsame] at heffort
    simp only [consumerEffort, if_neg (Nat.succ_ne_self h)] at heffort
    omega
  | @moveOut i h v hc hstore =>
    have heffort := effort_at_consumer cap.toCapacity (s.setStorage cap.toCapacity h none) i
      (.storeSeq h v)
    rw [effort_set_storage, consumers_set_storage, hc] at heffort
    simp only [consumerEffort] at heffort
    omega
  | undefined hc _ =>
    refine pays_consumer ?_
    rw [hc]
    simp [consumerEffort]
  | @release i h v hc =>
    have heffort := effort_at_consumer cap.toCapacity
      (s.storeSeq cap.toCapacity h (h + cap.size)) i (.notifyOne h v)
    have hstore := effort_store_seq cap.toCapacity s h (h + cap.size)
    rw [consumers_store_seq, hc] at heffort
    simp only [consumerEffort] at heffort
    omega
  | notifyNobody hc _ =>
    refine pays_consumer ?_
    rw [hc]
    simp [consumerEffort]
  | @notify i h v x hc hx =>
    have heffort := effort_at_consumer cap.toCapacity (s.wake x) i .idle
    have hwakes := effort_wake cap.toCapacity s x
    rw [wake_notify_one hc] at heffort
    simp only [consumerEffort] at heffort
    omega
  | @wake x => exact absurd rfl (hwake x)

end Moves

section Steps

theorem consumer_woken_idle {pc : ConsumerPc T} (h : pc = .idle) : pc.woken = .idle := by
  rw [h]
  rfl

theorem idle_at_consumer {i j : Fin n} {pc : ConsumerPc T} (hbusy : s.consumers i ≠ .idle)
    (hj : s.consumers j = .idle) : (s.atConsumer i pc).consumers j = .idle := by
  rw [consumers_at_consumer]
  split
  · rename_i he
    rw [he] at hj
    exact absurd hj hbusy
  · exact hj

theorem idle_wake {x : Waiter n} {j : Fin n} (hj : s.consumers j = .idle) :
    (s.wake x).consumers j = .idle := by
  cases x with
  | producer => exact hj
  | consumer i =>
    change (s.atConsumer i (s.consumers i).woken).consumers j = .idle
    rw [consumers_at_consumer]
    split
    · rename_i he
      rw [he] at hj
      exact consumer_woken_idle hj
    · exact hj

theorem producer_quiet (hs : stepProducer none cap.toCapacity s = some (s', es)) :
    s.producer ≠ .idle ∧ (∀ i, s.consumers i = .idle → s'.consumers i = .idle) ∧
      ∀ i, .casFailed i true ∉ es := by
  refine ⟨fun hp => by simp [stepProducer, hp] at hs, ?_⟩
  cases hp : s.producer with
  | notifyAll v t =>
    simp only [stepProducer, hp] at hs
    cases hs
    refine ⟨?_, by simp⟩
    intro i hi
    change (s.wakeAll cap.toCapacity t).consumers i = .idle
    simp only [State.wakeAll]
    split
    · exact consumer_woken_idle hi
    · exact hi
  | construct arg t =>
    cases arg
    all_goals
      simp only [stepProducer, hp] at hs
      cases hs
      exact ⟨fun _ => id, by simp⟩
  | _ =>
    simp only [stepProducer, hp] at hs
    repeat' split at hs
    all_goals cases hs
    all_goals exact ⟨fun _ => id, by simp⟩

theorem consumer_quiet {i : Fin n} (hs : stepConsumer none cap.toCapacity s i = some (s', es)) :
    s'.producer = s.producer ∧ (∀ j, s.consumers j = .idle → s'.consumers j = .idle) ∧
      ∀ j, .casFailed j true ∉ es := by
  have hbusy : s.consumers i ≠ .idle := fun hc => by simp [stepConsumer, hc] at hs
  cases hc : s.consumers i with
  | moveOut h =>
    simp only [stepConsumer, hc] at hs
    split at hs
    all_goals cases hs
    · exact ⟨rfl, fun _ => idle_at_consumer (s := s.setStorage cap.toCapacity h none) hbusy, by simp⟩
    · exact ⟨rfl, fun _ => idle_at_consumer hbusy, by simp⟩
  | cas call h =>
    simp only [stepConsumer, hc] at hs
    split at hs
    all_goals cases hs
    · exact ⟨rfl, fun _ => idle_at_consumer (s := { s with head := _ }) hbusy, by simp⟩
    · exact ⟨rfl, fun _ => idle_at_consumer hbusy, by simp⟩
  | storeSeq h v =>
    simp only [stepConsumer, hc] at hs
    cases hs
    exact ⟨rfl, fun _ => idle_at_consumer (s := s.storeSeq cap.toCapacity h _) hbusy, by simp⟩
  | _ =>
    simp only [stepConsumer, hc] at hs
    repeat' split at hs
    all_goals cases hs
    all_goals exact ⟨rfl, fun _ => idle_at_consumer hbusy, by simp⟩

theorem notify_quiet {i : Fin n} {woken : Option (Waiter n)}
    (hs : stepNotifyOne cap.toCapacity s i woken = some (s', es)) :
    (s.producer = .idle → s'.producer = .idle) ∧
      (∀ j, s.consumers j = .idle → s'.consumers j = .idle) ∧ ∀ j, .casFailed j true ∉ es := by
  simp only [stepNotifyOne] at hs
  split at hs
  · rename_i h v hc
    have hbusy : s.consumers i ≠ .idle := by simp [hc]
    repeat' split at hs
    all_goals cases hs
    · rename_i x _
      refine ⟨?_, ?_, by simp⟩
      · intro hp
        cases x with
        | producer =>
          change s.producer.woken = .idle
          rw [hp]
          rfl
        | consumer l => exact hp
      · intro j hj
        refine idle_at_consumer ?_ (idle_wake hj)
        rw [wake_notify_one hc]
        simp
    · exact ⟨id, fun _ => idle_at_consumer hbusy, by simp⟩
  · cases hs

/-- Every step but a spurious one is paid for by what its choice brings. -/
theorem step_pays (hi : Inv cap.toCapacity log s) (hs : step none cap.toCapacity s a = some (s', es)) :
    effort cap.toCapacity s' + 1 ≤ effort cap.toCapacity s + brings n a := by
  cases a with
  | producer =>
    obtain ⟨hbusy, hconsumers, hreal⟩ := producer_quiet hs
    exact move_pays hi (step_moves hs) (fun hp => absurd hp hbusy) hconsumers hreal (by simp)
  | consumer i =>
    obtain ⟨hproducer, hconsumers, hreal⟩ := consumer_quiet hs
    exact move_pays hi (step_moves hs) hproducer.trans hconsumers hreal (by simp)
  | notifyOne i woken =>
    obtain ⟨hproducer, hconsumers, hreal⟩ := notify_quiet hs
    exact move_pays hi (step_moves hs) hproducer hconsumers hreal (by simp)
  | emplace call arg =>
    simp only [step] at hs
    split at hs
    · rename_i hp
      cases hs
      have hpub : published (s.atProducer (.loadTail call arg)) = published s := by
        unfold published
        rw [hp]
        rfl
      have heffort := effort_at_producer cap.toCapacity hpub
      rw [hp] at heffort
      simp only [producerEffort, brings] at heffort ⊢
      omega
    · cases hs
  | pop i call =>
    simp only [step] at hs
    split at hs
    · rename_i hc
      cases hs
      have heffort := effort_at_consumer cap.toCapacity s i (.loadHead call)
      rw [hc] at heffort
      simp only [consumerEffort, brings] at heffort ⊢
      omega
    · cases hs
  | casFails i =>
    simp only [step] at hs
    split at hs
    · rename_i call h hc
      split at hs
      · rename_i hhead
        cases hs
        have heffort := effort_at_consumer cap.toCapacity s i (.loadSeq call s.head)
        rw [hc] at heffort
        simp only [consumerEffort, hhead, ↓reduceIte, brings] at heffort ⊢
        omega
      · cases hs
    · cases hs
  | spurious x =>
    simp only [step] at hs
    split at hs
    · cases hs
      have hwakes := effort_wake cap.toCapacity s x
      simp only [brings]
      omega
    · cases hs

theorem funded (n : Nat) (T : Type*) (cap : RingCapacity) :
    (machine n T none cap.toCapacity).Funded
      (fun s => ∃ tr, (machine n T none cap.toCapacity).Run tr s) (fun _ => 1) (brings n)
      (effort cap.toCapacity) where
  keeps := fun ⟨_, hr⟩ hs => ⟨_, hr.next hs⟩
  pays := fun ⟨_, hr⟩ hs => step_pays (run_inv hr) hs

end Steps

end Toolbox.Proofs.SpmcEffort
