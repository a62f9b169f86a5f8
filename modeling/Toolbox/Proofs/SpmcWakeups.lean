import Mathlib.Data.Fintype.Basic
import Mathlib.Tactic.FinCases
import Toolbox.Proofs.SpmcSlots

namespace Toolbox.Proofs.SpmcWakeups
open Base Spmc SpmcMoves SpmcSlots

variable {n : Nat} {T : Type*} {cap : Capacity} {s s' : State n T} {a : Act n T}
  {tr es : List (Event n T)}

/-- Between its release store on the slot of `pos` and the following `notify_one`. -/
def Notifying (cap : Capacity) (pos : Nat) : ConsumerPc T → Prop
  | .notifyOne h _ => cap.index h = cap.index pos
  | _ => False

/-- The producer sleeps on a slot already freed for it and nobody is about to
notify that slot. -/
def Stranded (cap : Capacity) (s : State n T) : Prop :=
  ∃ arg t old, s.producer = .parked arg t old ∧ s.seq cap t = t ∧
    ∀ i, ¬ Notifying cap t (s.consumers i)

/-- The last `notify_one` a producer asleep on its freed slot can hope for is
about to wake a consumer parked on the same slot instead. -/
def Diverted (cap : Capacity) (s : State n T) : Act n T → Prop
  | .notifyOne i (some (.consumer _)) =>
    ∃ arg t old, s.producer = .parked arg t old ∧ s.seq cap t = t ∧
      Notifying cap t (s.consumers i) ∧ ∀ j, j ≠ i → ¬ Notifying cap t (s.consumers j)
  | _ => False

instance (cap : Capacity) (pos : Nat) (pc : ConsumerPc T) : Decidable (Notifying cap pos pc) :=
  match pc with
  | .notifyOne h _ => inferInstanceAs (Decidable (cap.index h = cap.index pos))
  | .idle | .loadHead _ | .loadSeq _ _ | .reload _ _ | .wait _ _ | .parked _ _ | .cas _ _
  | .moveOut _ | .storeSeq _ _ => isFalse id

instance (cap : Capacity) (s : State n T) (a : Act n T) : Decidable (Diverted cap s a) :=
  match a with
  | .notifyOne i (some (.consumer _)) =>
    match hp : s.producer with
    | .parked _ t _ =>
      decidable_of_iff (s.seq cap t = t ∧ Notifying cap t (s.consumers i) ∧
        ∀ j, j ≠ i → ¬ Notifying cap t (s.consumers j)) (by simp [Diverted, hp])
    | .idle | .loadTail _ _ | .loadSeq _ _ _ | .wait _ _ _ | .construct _ _ | .storeSeq _ _
    | .storeTail _ _ | .notifyAll _ _ => isFalse (by simp [Diverted, hp])
  | .notifyOne _ (some .producer) | .notifyOne _ none | .emplace _ _ | .producer | .pop _ _
  | .consumer _ | .casFails _ | .spurious _ => isFalse id

/-- While the producer waits it remembers a sequence other than the one it
needs, and once the slot is freed a notification is still to come. -/
def Served (cap : Capacity) (s : State n T) : ProducerPc T → Prop
  | .wait _ t old => old ≠ t
  | .parked _ t old => old ≠ t ∧ (s.seq cap t = t → ∃ i, Notifying cap t (s.consumers i))
  | _ => True

theorem Served.not_stranded (h : Served cap s s.producer) : ¬ Stranded cap s := by
  rintro ⟨arg, t, old, hp, hseq, hnone⟩
  rw [hp] at h
  obtain ⟨i, hi⟩ := h.2 hseq
  exact hnone i hi

/-- Steps that leave the slots alone and keep every notification to come. -/
theorem Served.keep {pc : ProducerPc T} (h : Served cap s pc) (hslots : s'.slots = s.slots)
    (hkeep : ∀ i t, Notifying cap t (s.consumers i) → Notifying cap t (s'.consumers i)) :
    Served cap s' pc := by
  cases pc with
  | wait arg t old => exact h
  | parked arg t old =>
    refine ⟨h.1, ?_⟩
    intro hseq
    have hold : s.seq cap t = t := by simpa only [State.seq, hslots] using hseq
    obtain ⟨i, hi⟩ := h.2 hold
    exact ⟨i, hkeep i t hi⟩
  | _ => trivial

theorem Served.producer_move (h : Served cap s s.producer) {pc : ProducerPc T}
    (hm : ProducerMove cap s pc es) : Served cap (s.atProducer pc) pc := by
  cases hm with
  | block hp hseq => exact hseq
  | park hp hseq =>
    rw [hp] at h
    refine ⟨h, ?_⟩
    intro hfreed
    rw [seq_at_producer] at hfreed
    exact absurd (hseq.symm.trans hfreed) h
  | call | loadTail | free | full | changed | threw => trivial

theorem notifying_at_consumer {i : Fin n} {pc : ConsumerPc T}
    (hquiet : ∀ t, ¬ Notifying cap t (s.consumers i)) (j : Fin n) (t : Nat)
    (hj : Notifying cap t (s.consumers j)) :
    Notifying cap t ((s.atConsumer i pc).consumers j) := by
  by_cases he : j = i
  · subst he
    exact absurd hj (hquiet t)
  · simpa [he] using hj

theorem Served.consumer_move (h : Served cap s s.producer) {i : Fin n} {pc : ConsumerPc T}
    (hm : ConsumerMove cap s i pc es) : Served cap (s.atConsumer i pc) s.producer := by
  refine h.keep rfl (notifying_at_consumer ?_)
  intro t
  cases hm with
  | call hc | loadHead hc | ready hc _ | empty hc _ | block hc _ | stale hc _ | reload hc
  | park hc _ | changed hc _ | lost hc _ | spurious hc _ =>
    rw [hc]
    exact id

/-- The release store leaves its own notification to come. -/
theorem Served.release (h : Served cap s s.producer) {i : Fin n} {p : Nat} {v : T}
    (hc : s.consumers i = .storeSeq p v) :
    Served cap ((s.storeSeq cap p (p + cap.size)).atConsumer i (.notifyOne p v)) s.producer := by
  cases hp : s.producer with
  | parked arg t old =>
    rw [hp] at h
    refine ⟨h.1, ?_⟩
    intro hfreed
    rw [seq_at_consumer, seq_store_seq] at hfreed
    by_cases he : cap.index t = cap.index p
    · refine ⟨i, ?_⟩
      simpa [Notifying] using he.symm
    · rw [if_neg he] at hfreed
      obtain ⟨j, hj⟩ := h.2 hfreed
      refine ⟨j, notifying_at_consumer ?_ j t hj⟩
      intro t' hi
      rw [consumers_store_seq, hc] at hi
      exact hi
  | wait arg t old =>
    rw [hp] at h
    exact h
  | _ => trivial

theorem notifying_woken {pc : ConsumerPc T} {t : Nat} (h : Notifying cap t pc) :
    Notifying cap t pc.woken := by
  cases pc <;> exact h

theorem notifying_wake {x : Waiter n} {i : Fin n} {t : Nat}
    (h : Notifying cap t (s.consumers i)) : Notifying cap t ((s.wake x).consumers i) := by
  cases x with
  | producer => exact h
  | consumer j =>
    by_cases he : i = j
    · subst he
      simpa [State.wake] using notifying_woken h
    · simpa [State.wake, he] using h

theorem Served.woken {pc : ProducerPc T} (h : Served cap s pc) : Served cap s pc.woken := by
  cases pc with
  | parked arg t old => exact h.1
  | _ => exact h

theorem Served.wake (h : Served cap s s.producer) (x : Waiter n) :
    Served cap (s.wake x) (s.wake x).producer := by
  have hkept : ∀ pc, Served cap s pc → Served cap (s.wake x) pc := by
    intro pc hpc
    apply hpc.keep
    · cases x <;> rfl
    · intro i t hi
      exact notifying_wake hi
  apply hkept
  cases x with
  | producer => exact h.woken
  | consumer j => exact h

/-- After a `notify_one` that was not diverted, either the producer is awake or
its notification is still to come. -/
theorem Served.notified (h : Served cap s s.producer) {i : Fin n} {p : Nat} {v : T}
    (hc : s.consumers i = .notifyOne p v)
    (hother : ∀ arg t old, s.producer = .parked arg t old → s.seq cap t = t →
      cap.index p = cap.index t → ∃ j, j ≠ i ∧ Notifying cap t (s.consumers j)) :
    Served cap (s.atConsumer i .idle) s.producer := by
  cases hp : s.producer with
  | parked arg t old =>
    rw [hp] at h
    refine ⟨h.1, ?_⟩
    intro hfreed
    rw [seq_at_consumer] at hfreed
    by_cases he : cap.index p = cap.index t
    · obtain ⟨j, hj, hnot⟩ := hother arg t old hp hfreed he
      exact ⟨j, by simpa [hj] using hnot⟩
    · obtain ⟨j, hj⟩ := h.2 hfreed
      refine ⟨j, ?_⟩
      have hne : j ≠ i := by
        rintro rfl
        rw [hc] at hj
        exact he hj
      simpa [hne] using hj
  | wait arg t old =>
    rw [hp] at h
    exact h
  | _ => trivial

theorem move_served (h : Served cap s s.producer) (hok : ¬ Diverted cap s a)
    (hm : Move cap s a s' es) : Served cap s' s'.producer := by
  cases hm with
  | producer hm => exact h.producer_move hm
  | consumer hm => exact h.consumer_move hm
  | construct | produce | storeTail | notifyAll => trivial
  | @claim i call p hc _ =>
    refine h.keep rfl (notifying_at_consumer (s := { s with head := p + 1 }) ?_)
    intro t hi
    rw [hc] at hi
    exact hi
  | @moveOut i p v hc _ =>
    have hset : Served cap (s.setStorage cap p none) s.producer := by
      cases hp : s.producer with
      | parked arg t old =>
        rw [hp] at h
        exact ⟨h.1, fun hseq => h.2 (by simpa using hseq)⟩
      | wait arg t old =>
        rw [hp] at h
        exact h
      | _ => trivial
    refine hset.keep rfl (notifying_at_consumer ?_)
    intro t hi
    rw [consumers_set_storage, hc] at hi
    exact hi
  | @undefined i p hc _ =>
    refine h.keep rfl (notifying_at_consumer ?_)
    intro t hi
    rw [hc] at hi
    exact hi
  | release hc => exact h.release hc
  | @notifyNobody i p v hc hnone =>
    apply h.notified hc
    intro arg t old hp _ he
    refine absurd ?_ (hnone .producer)
    simp [State.ParkedOn, State.parkedAt, hp, he]
  | @notify i p v x hc hx =>
    cases x with
    | producer =>
      have hwake := h.wake .producer
      refine hwake.notified hc ?_
      intro arg t old hp
      cases hq : s.producer <;> simp [State.wake, hq, ProducerPc.woken] at hp
    | consumer j =>
      apply (h.wake (.consumer j)).notified (wake_notify_one hc)
      intro arg t old hp hseq he
      by_contra hnone
      apply hok
      refine ⟨arg, t, old, hp, hseq, ?_, ?_⟩
      · rw [hc]
        exact he
      · intro k hk hnot
        exact hnone ⟨k, hk, notifying_wake hnot⟩
  | wake => exact h.wake _

theorem run_served (hr : (machine n T none cap).RunWhere (fun s a => ¬ Diverted cap s a) tr s) :
    Served cap s s.producer := by
  have hinit : Served cap (machine n T none cap).init (machine n T none cap).init.producer :=
    trivial
  refine Machine.Steps.invariant (I := fun _ s => Served cap s s.producer) hinit ?_ hr
  intro tr s a s' es _ h hok hs
  exact move_served h hok (step_moves hs)

theorem wake_notifying {x : Waiter n} {i : Fin n} {t : Nat}
    (h : Notifying cap t ((s.wake x).consumers i)) : Notifying cap t (s.consumers i) := by
  cases x with
  | producer => exact h
  | consumer j =>
    by_cases he : i = j
    · subst he
      simp only [State.wake, consumers_at_consumer, ↓reduceIte] at h
      cases hc : s.consumers i <;> rw [hc] at h <;> exact h
    · simpa [State.wake, he] using h

/-- A diverted notification strands the producer at once. -/
theorem diverted_strands (hd : Diverted cap s a) (hs : step none cap s a = some (s', es)) :
    Stranded cap s' := by
  unfold Diverted at hd
  split at hd
  · rename_i i j
    obtain ⟨arg, t, old, hp, hseq, _, hother⟩ := hd
    simp only [step, stepNotifyOne] at hs
    split at hs
    · split at hs
      · cases hs
        refine ⟨arg, t, old, hp, hseq, ?_⟩
        intro k hk
        by_cases he : k = i
        · rw [he, consumers_at_consumer, if_pos rfl] at hk
          exact hk
        · rw [consumers_at_consumer, if_neg he] at hk
          exact hother k he (wake_notifying hk)
      · cases hs
    · cases hs
  · exact hd.elim

/-- The blocked producer never sleeps on a freed slot with nobody left to
notify it, in exactly the runs in which no notification is diverted. -/
theorem producer_served :
    (∀ tr s, (machine n T none cap).RunWhere (fun s a => ¬ Diverted cap s a) tr s →
      ¬ Stranded cap s) ∧
    (∀ tr s a s' es, (machine n T none cap).Run tr s → Diverted cap s a →
      (machine n T none cap).step s a = some (s', es) → Stranded cap s') := by
  refine ⟨?_, ?_⟩
  · intro tr s hr
    exact (run_served hr).not_stranded
  · intro tr s a s' es _ hd hs
    exact diverted_strands hd hs

/-- Consumer 0 claims position 0 and stalls, consumer 1 takes position 1,
consumer 2 and then the producer go to sleep on slot 0, and consumer 0 releases. -/
def fourOnTwoSlots (i j l : Fin 3) : List (Act 3 Nat) :=
  [.emplace .tryEmplace (some 7), .producer, .producer, .producer, .producer, .producer,
   .producer, .emplace .tryEmplace (some 8), .producer, .producer, .producer, .producer,
   .producer, .producer,
   .pop i .tryPop, .consumer i, .consumer i, .consumer i,
   .pop j .tryPop, .consumer j, .consumer j, .consumer j, .consumer j, .consumer j,
   .notifyOne j none,
   .pop l .popWait, .consumer l, .consumer l, .consumer l,
   .emplace .emplaceWait (some 9), .producer, .producer, .producer,
   .consumer i, .consumer i]

/-- The producer goes to sleep on the full ring, and consumer 0 frees its slot. -/
def asleepOnFreed (i : Fin 3) : List (Act 3 Nat) :=
  [.emplace .tryEmplace (some 7), .producer, .producer, .producer, .producer, .producer,
   .producer, .emplace .tryEmplace (some 8), .producer, .producer, .producer, .producer,
   .producer, .producer,
   .emplace .emplaceWait (some 9), .producer, .producer, .producer,
   .pop i .tryPop, .consumer i, .consumer i, .consumer i, .consumer i, .consumer i]

/-- A producer that sleeps and is served, and one whose notification is diverted. -/
theorem producer_served_two_slots :
    (∃ tr s, (machine 3 Nat none twoSlots.toCapacity).RunWhere
        (fun s a => ¬ Diverted twoSlots.toCapacity s a) tr s ∧
      s.producer = .parked (some 9) 2 1 ∧ s.seq twoSlots.toCapacity 2 = 2 ∧
      ¬ Stranded twoSlots.toCapacity s) ∧
    (∃ tr s, (machine 3 Nat none twoSlots.toCapacity).RunWhere
        (fun s a => ¬ Diverted twoSlots.toCapacity s a) tr s ∧
      accepted tr = [7, 8, 9] ∧ ¬ Stranded twoSlots.toCapacity s) ∧
    ∃ tr s, (machine 3 Nat none twoSlots.toCapacity).Run tr s ∧
      Diverted twoSlots.toCapacity s (.notifyOne 0 (some (.consumer 2))) ∧
      ∃ s' es, (machine 3 Nat none twoSlots.toCapacity).step s (.notifyOne 0 (some (.consumer 2))) =
        some (s', es) ∧ Stranded twoSlots.toCapacity s' := by
  refine ⟨?asleep, ?served, ?diverted⟩
  case asleep =>
    have hr : (machine 3 Nat none twoSlots.toCapacity).RunWhere
        (fun s a => ¬ Diverted twoSlots.toCapacity s a) _ _ :=
      Machine.run_where_of_exec (asleepOnFreed 0) rfl
    exact ⟨_, _, hr, rfl, rfl, producer_served.1 _ _ hr⟩
  case served =>
    have hr : (machine 3 Nat none twoSlots.toCapacity).RunWhere
        (fun s a => ¬ Diverted twoSlots.toCapacity s a) _ _ :=
      Machine.run_where_of_exec (asleepOnFreed 0 ++ [.notifyOne 0 (some .producer), .producer,
        .producer, .producer, .producer, .producer, .producer]) rfl
    exact ⟨_, _, hr, rfl, producer_served.1 _ _ hr⟩
  case diverted =>
    have hr : (machine 3 Nat none twoSlots.toCapacity).Run _ _ :=
      Machine.run_of_exec (fourOnTwoSlots 0 1 2) rfl
    refine ⟨_, _, hr, ?here, _, _, rfl, producer_served.2 _ _ _ _ _ hr ?here rfl⟩
    refine ⟨_, _, _, rfl, rfl, rfl, ?_⟩
    intro j hj
    fin_cases j
    · exact absurd rfl hj
    · exact id
    · exact id

/-- The notification goes to consumer 2, which goes back to sleep. -/
theorem producer_stranded : ∃ tr s, (machine 3 Nat none twoSlots.toCapacity).Run tr s ∧
    Stranded twoSlots.toCapacity s ∧ ∃ h old, s.consumers 2 = .parked h old := by
  have hr : (machine 3 Nat none twoSlots.toCapacity).Run _ _ :=
    Machine.run_of_exec (fourOnTwoSlots 0 1 2 ++
      [.notifyOne 0 (some (.consumer 2)), .consumer 2, .consumer 2, .consumer 2]) rfl
  refine ⟨_, _, hr, ⟨_, _, _, rfl, rfl, ?_⟩, _, _, rfl⟩
  intro i
  fin_cases i <;> exact id

end Toolbox.Proofs.SpmcWakeups
