import Toolbox.Proofs.SpmcSleepers

namespace Toolbox.Proofs.SpmcWrap
open Base Spmc SpmcMoves SpmcSlots

variable {n w : Nat} {T : Type*}

/-- What a program counter is when its positions are kept modulo `2 ^ w`. -/
def wrapProducer (w : Nat) : ProducerPc T → ProducerPc T
  | .idle => .idle
  | .loadTail call arg => .loadTail call arg
  | .loadSeq call arg t => .loadSeq call arg (Width.wrap (some w) t)
  | .wait arg t old => .wait arg (Width.wrap (some w) t) (Width.wrap (some w) old)
  | .parked arg t old => .parked arg (Width.wrap (some w) t) (Width.wrap (some w) old)
  | .construct arg t => .construct arg (Width.wrap (some w) t)
  | .storeSeq v t => .storeSeq v (Width.wrap (some w) t)
  | .storeTail v t => .storeTail v (Width.wrap (some w) t)
  | .notifyAll v t => .notifyAll v (Width.wrap (some w) t)

def wrapConsumer (w : Nat) : ConsumerPc T → ConsumerPc T
  | .idle => .idle
  | .loadHead call => .loadHead call
  | .loadSeq call h => .loadSeq call (Width.wrap (some w) h)
  | .reload call h => .reload call (Width.wrap (some w) h)
  | .wait h old => .wait (Width.wrap (some w) h) (Width.wrap (some w) old)
  | .parked h old => .parked (Width.wrap (some w) h) (Width.wrap (some w) old)
  | .cas call h => .cas call (Width.wrap (some w) h)
  | .moveOut h => .moveOut (Width.wrap (some w) h)
  | .storeSeq h v => .storeSeq (Width.wrap (some w) h) v
  | .notifyOne h v => .notifyOne (Width.wrap (some w) h) v

def wrapEvent (w : Nat) : Event n T → Event n T
  | .looked i h => .looked i (Width.wrap (some w) h)
  | .claimed i h => .claimed i (Width.wrap (some w) h)
  | .destroyed i h => .destroyed i (Width.wrap (some w) h)
  | .popped i h v => .popped i (Width.wrap (some w) h) v
  | e => e

/-- `s` is `u` with every counter kept modulo `2 ^ w`. -/
structure Wraps (w : Nat) (cap : Capacity) (u s : State n T) : Prop where
  seq : ∀ pos, s.seq cap pos = Width.wrap (some w) (u.seq cap pos)
  storage : ∀ pos, s.storage cap pos = u.storage cap pos
  head : s.head = Width.wrap (some w) u.head
  tail : s.tail = Width.wrap (some w) u.tail
  producer : s.producer = wrapProducer w u.producer
  consumer : ∀ i, s.consumers i = wrapConsumer w (u.consumers i)

/-- Where `h` is tested against a sequence or `head_`, it lags `head` by at most
half the range less one lap. -/
def NearHead (w : Nat) (cap : Capacity) (head : Nat) : ConsumerPc T → Prop
  | .loadSeq _ h | .wait h _ | .cas _ h => head - h + cap.size ≤ 2 ^ (w - 1)
  | _ => True

/-- The same at a CAS attempt alone. -/
def NearCas (w : Nat) (cap : Capacity) (head : Nat) : ConsumerPc T → Prop
  | .cas _ h => head - h + cap.size ≤ 2 ^ (w - 1)
  | _ => True

/-- A consumer's sequence loads, atomic waits and CAS attempts happen near `head_`. -/
def Near (w : Nat) (cap : Capacity) (s : State n T) : Act n T → Prop
  | .consumer i => NearHead w cap s.head (s.consumers i)
  | .casFails i => NearCas w cap s.head (s.consumers i)
  | _ => True

instance (w : Nat) (cap : Capacity) (head : Nat) (pc : ConsumerPc T) :
    Decidable (NearHead w cap head pc) :=
  match pc with
  | .loadSeq _ _ | .wait _ _ | .cas _ _ => inferInstanceAs (Decidable (_ ≤ _))
  | .idle | .loadHead _ | .reload _ _ | .parked _ _ | .moveOut _ | .storeSeq _ _
  | .notifyOne _ _ => isTrue trivial

instance (w : Nat) (cap : Capacity) (head : Nat) (pc : ConsumerPc T) :
    Decidable (NearCas w cap head pc) :=
  match pc with
  | .cas _ _ => inferInstanceAs (Decidable (_ ≤ _))
  | .loadSeq _ _ | .wait _ _ | .idle | .loadHead _ | .reload _ _ | .parked _ _ | .moveOut _
  | .storeSeq _ _ | .notifyOne _ _ => isTrue trivial

instance (w : Nat) (cap : Capacity) (s : State n T) (a : Act n T) :
    Decidable (Near w cap s a) :=
  match a with
  | .consumer i => inferInstanceAs (Decidable (NearHead w cap s.head (s.consumers i)))
  | .casFails i => inferInstanceAs (Decidable (NearCas w cap s.head (s.consumers i)))
  | .emplace _ _ | .producer | .pop _ _ | .notifyOne _ _ | .spurious _ => isTrue trivial

variable {cap : RingCapacity} {u s u' s' : State n T} {a : Act n T} {tr es : List (Event n T)}
  {log : List T}

theorem producer_woken (pc : ProducerPc T) :
    (wrapProducer w pc).woken = wrapProducer w pc.woken := by
  cases pc <;> rfl

theorem consumer_woken (pc : ConsumerPc T) :
    (wrapConsumer w pc).woken = wrapConsumer w pc.woken := by
  cases pc <;> rfl

section Frame

variable {cap : Capacity}

theorem Wraps.seq_at (h : Wraps w cap u s) (hk : cap.bits ≤ w) (pos : Nat) :
    s.seq cap (Width.wrap (some w) pos) = Width.wrap (some w) (u.seq cap pos) := by
  rw [← h.seq pos]
  simp only [State.seq, cap.get_congr _ (Width.index_wrap hk pos)]

theorem Wraps.storage_at (h : Wraps w cap u s) (hk : cap.bits ≤ w) (pos : Nat) :
    s.storage cap (Width.wrap (some w) pos) = u.storage cap pos := by
  rw [← h.storage pos]
  simp only [State.storage, cap.get_congr _ (Width.index_wrap hk pos)]

theorem Wraps.at_producer (h : Wraps w cap u s) (pc : ProducerPc T) :
    Wraps w cap (u.atProducer pc) (s.atProducer (wrapProducer w pc)) :=
  ⟨h.seq, h.storage, h.head, h.tail, rfl, h.consumer⟩

theorem Wraps.at_consumer (h : Wraps w cap u s) (i : Fin n) (pc : ConsumerPc T) :
    Wraps w cap (u.atConsumer i pc) (s.atConsumer i (wrapConsumer w pc)) := by
  refine ⟨h.seq, h.storage, h.head, h.tail, h.producer, ?_⟩
  intro j
  rw [consumers_at_consumer, consumers_at_consumer]
  split
  · rfl
  · exact h.consumer j

theorem Wraps.store_seq (h : Wraps w cap u s) (hk : cap.bits ≤ w) (pos x : Nat) :
    Wraps w cap (u.storeSeq cap pos x)
      (s.storeSeq cap (Width.wrap (some w) pos) (Width.wrap (some w) x)) := by
  refine ⟨?_, ?_, h.head, h.tail, h.producer, h.consumer⟩
  · intro q
    rw [seq_store_seq, seq_store_seq, Width.index_wrap hk]
    split
    · rfl
    · exact h.seq q
  · intro q
    rw [storage_store_seq, storage_store_seq]
    exact h.storage q

theorem Wraps.set_storage (h : Wraps w cap u s) (hk : cap.bits ≤ w) (pos : Nat)
    (b : Option T) :
    Wraps w cap (u.setStorage cap pos b) (s.setStorage cap (Width.wrap (some w) pos) b) := by
  refine ⟨?_, ?_, h.head, h.tail, h.producer, h.consumer⟩
  · intro q
    rw [seq_set_storage, seq_set_storage]
    exact h.seq q
  · intro q
    rw [storage_set_storage, storage_set_storage, Width.index_wrap hk]
    split
    · rfl
    · exact h.storage q

theorem Wraps.set_head (h : Wraps w cap u s) (x : Nat) :
    Wraps w cap { u with head := x } { s with head := Width.wrap (some w) x } :=
  ⟨h.seq, h.storage, rfl, h.tail, h.producer, h.consumer⟩

theorem Wraps.set_tail (h : Wraps w cap u s) (x : Nat) :
    Wraps w cap { u with tail := x } { s with tail := Width.wrap (some w) x } :=
  ⟨h.seq, h.storage, h.head, rfl, h.producer, h.consumer⟩

theorem Wraps.parked_at (h : Wraps w cap u s) (x : Waiter n) :
    s.parkedAt x = (u.parkedAt x).map (Width.wrap (some w)) := by
  cases x with
  | producer => cases hp : u.producer <;> simp [State.parkedAt, h.producer, hp, wrapProducer]
  | consumer i =>
    cases hc : u.consumers i <;> simp [State.parkedAt, h.consumer, hc, wrapConsumer]

theorem Wraps.parked_on (h : Wraps w cap u s) (hk : cap.bits ≤ w) (pos : Nat) (x : Waiter n) :
    s.ParkedOn cap (Width.wrap (some w) pos) x ↔ u.ParkedOn cap pos x := by
  have hsame : cap.index ∘ Width.wrap (some w) = cap.index := funext (Width.index_wrap hk)
  unfold State.ParkedOn
  rw [h.parked_at, Option.map_map, hsame, Width.index_wrap hk]

theorem Wraps.wake (h : Wraps w cap u s) (x : Waiter n) : Wraps w cap (u.wake x) (s.wake x) := by
  cases x with
  | producer =>
    simp only [State.wake, h.producer, producer_woken]
    exact h.at_producer _
  | consumer i =>
    simp only [State.wake, h.consumer, consumer_woken]
    exact h.at_consumer _ _

theorem Wraps.wake_all (h : Wraps w cap u s) (hk : cap.bits ≤ w) (pos : Nat) :
    Wraps w cap (u.wakeAll cap pos) (s.wakeAll cap (Width.wrap (some w) pos)) := by
  refine ⟨h.seq, h.storage, h.head, h.tail, ?_, ?_⟩
  · simp only [State.wakeAll, h.parked_on hk]
    rw [h.producer, producer_woken]
    split <;> rfl
  · intro i
    simp only [State.wakeAll, h.parked_on hk]
    rw [h.consumer, consumer_woken]
    split <;> rfl

end Frame

/-- A sequence remembered by a sleeping thread is of the lap before its position. -/
def ProducerRecalls (cap : Capacity) : ProducerPc T → Prop
  | .wait _ t old | .parked _ t old => t + 1 ≤ old + cap.size ∧ old ≤ t
  | _ => True

def ConsumerRecalls (cap : Capacity) : ConsumerPc T → Prop
  | .wait h old | .parked h old => h + 1 ≤ old + cap.size ∧ old ≤ h
  | _ => True

structure Recalls (cap : Capacity) (u : State n T) : Prop where
  producer : ProducerRecalls cap u.producer
  consumer : ∀ i, ConsumerRecalls cap (u.consumers i)

/-- The slot of the next position is free or a lap behind. -/
theorem seq_next (hi : Inv cap.toCapacity log u) :
    u.seq cap.toCapacity log.length = log.length ∨
      u.seq cap.toCapacity log.length + cap.size = log.length + 1 := by
  have htwo := cap.two_le
  cases hi.slot log.length (Nat.le_refl _) (by omega) with
  | free hseq _ _ => exact .inl hseq
  | full p hq hseq _ _ => right; omega
  | taken p i hq hseq _ _ => right; omega

theorem producer_recalls_woken {pc : ProducerPc T} (h : ProducerRecalls cap.toCapacity pc) :
    ProducerRecalls cap.toCapacity pc.woken := by
  cases pc <;> exact h

theorem consumer_recalls_woken {pc : ConsumerPc T} (h : ConsumerRecalls cap.toCapacity pc) :
    ConsumerRecalls cap.toCapacity pc.woken := by
  cases pc <;> exact h

theorem Recalls.at_producer (h : Recalls cap.toCapacity u) {pc : ProducerPc T}
    (hpc : ProducerRecalls cap.toCapacity pc) : Recalls cap.toCapacity (u.atProducer pc) :=
  ⟨hpc, h.consumer⟩

theorem Recalls.at_consumer (h : Recalls cap.toCapacity u) {i : Fin n} {pc : ConsumerPc T}
    (hpc : ConsumerRecalls cap.toCapacity pc) : Recalls cap.toCapacity (u.atConsumer i pc) := by
  refine ⟨h.producer, ?_⟩
  intro j
  rw [consumers_at_consumer]
  split
  · exact hpc
  · exact h.consumer j

theorem Recalls.wake (h : Recalls cap.toCapacity u) (x : Waiter n) :
    Recalls cap.toCapacity (u.wake x) := by
  cases x with
  | producer => exact h.at_producer (producer_recalls_woken h.producer)
  | consumer i => exact h.at_consumer (consumer_recalls_woken (h.consumer i))

theorem recalls_producer_move (hi : Inv cap.toCapacity log u) (h : Recalls cap.toCapacity u)
    {pc : ProducerPc T} (hm : ProducerMove cap.toCapacity u pc es) :
    ProducerRecalls cap.toCapacity pc := by
  have hprod := hi.producer
  have hold := h.producer
  cases hm with
  | @block arg t hp hseq =>
    rw [hp] at hprod
    obtain ⟨rfl, _⟩ := hprod
    have hnext := (seq_next hi).resolve_left hseq
    have htwo := cap.two_le
    exact ⟨by omega, by omega⟩
  | park hp _ =>
    rw [hp] at hold
    exact hold
  | _ => trivial

theorem recalls_consumer_move (hi : Inv cap.toCapacity log u) (h : Recalls cap.toCapacity u)
    {i : Fin n} {pc : ConsumerPc T} (hm : ConsumerMove cap.toCapacity u i pc es) :
    ConsumerRecalls cap.toCapacity pc := by
  have hcons := hi.consumer i
  have hold := h.consumer i
  cases hm with
  | block hc hseq =>
    rw [hc] at hcons
    exact ⟨(hi.seq_range hcons).1, Nat.lt_succ_iff.mp hseq⟩
  | park hc _ =>
    rw [hc] at hold
    exact hold
  | _ => trivial

theorem move_recalls (hi : Inv cap.toCapacity log u) (h : Recalls cap.toCapacity u)
    (hm : Move cap.toCapacity u a u' es) : Recalls cap.toCapacity u' := by
  cases hm with
  | producer hm => exact h.at_producer (recalls_producer_move hi h hm)
  | consumer hm => exact h.at_consumer (recalls_consumer_move hi h hm)
  | construct | produce | storeTail => exact ⟨trivial, h.consumer⟩
  | notifyAll hp =>
    refine ⟨trivial, ?_⟩
    intro i
    simp only [State.wakeAll, State.atProducer]
    split
    · exact consumer_recalls_woken (h.consumer i)
    · exact h.consumer i
  | claim | moveOut | undefined | release | notifyNobody =>
    refine Recalls.at_consumer ?_ ?_
    · exact ⟨h.producer, h.consumer⟩
    · trivial
  | notify => exact (h.wake _).at_consumer trivial
  | wake => exact h.wake _

theorem run_recalls (hr : (machine n T none cap.toCapacity).Run tr u) :
    Recalls cap.toCapacity u := by
  refine Machine.Run.invariant (I := fun _ u => Recalls cap.toCapacity u) ?_ ?_ hr
  · exact ⟨trivial, fun _ => trivial⟩
  · intro tr u a u' es hr h hs
    exact move_recalls (run_inv hr) h (step_moves hs)

/-- Related states, and the same events up to the wrap. -/
def Alike (w : Nat) (cap : Capacity) (p q : State n T × List (Event n T)) : Prop :=
  Wraps w cap p.1 q.1 ∧ q.2 = p.2.map (wrapEvent w)

theorem producer_lockstep (h : Wraps w cap.toCapacity u s) (hk : cap.bits + 1 ≤ w)
    (hi : Inv cap.toCapacity log u) (hrec : Recalls cap.toCapacity u) :
    Option.Rel (Alike w cap.toCapacity) (stepProducer none cap.toCapacity u)
      (stepProducer (some w) cap.toCapacity s) := by
  have hbits : cap.bits ≤ w := Nat.le_of_succ_le hk
  have hsize : cap.size ≤ 2 ^ w := by
    rw [cap.size_eq]
    exact Nat.pow_le_pow_right (by omega) hbits
  have hsp := h.producer
  have hprod := hi.producer
  have hold := hrec.producer
  have hnext := seq_next hi
  have htwo := cap.two_le
  cases hp : u.producer with
  | idle | parked =>
    rw [hp] at hsp
    simp only [stepProducer, hp, hsp, wrapProducer]
    exact .none
  | loadTail call arg =>
    rw [hp] at hsp
    simp only [stepProducer, hp, hsp, wrapProducer, h.tail]
    exact .some ⟨h.at_producer (.loadSeq call arg u.tail), rfl⟩
  | loadSeq call arg t =>
    rw [hp] at hsp hprod
    obtain ⟨rfl, _⟩ := hprod
    have hsame := Width.wrap_eq_iff (w := w) (a := u.seq cap.toCapacity log.length)
      (b := log.length) (by omega) (by omega)
    simp only [stepProducer, hp, hsp, wrapProducer, h.seq_at hbits, hsame]
    split
    · exact .some ⟨h.at_producer (.construct arg log.length), rfl⟩
    · cases call with
      | tryEmplace => exact .some ⟨h.at_producer .idle, rfl⟩
      | emplaceWait => exact .some ⟨h.at_producer (.wait arg log.length _), rfl⟩
  | wait arg t old =>
    rw [hp] at hsp hprod hold
    obtain ⟨rfl, _⟩ := hprod
    obtain ⟨hlow, hhigh⟩ := hold
    have hsame := Width.wrap_eq_iff (w := w) (a := u.seq cap.toCapacity log.length)
      (b := old) (by omega) (by omega)
    simp only [stepProducer, hp, hsp, wrapProducer, h.seq_at hbits, hsame]
    split
    · exact .some ⟨h.at_producer (.parked arg log.length old), rfl⟩
    · exact .some ⟨h.at_producer (.loadSeq .emplaceWait arg log.length), rfl⟩
  | construct arg t =>
    rw [hp] at hsp
    cases arg with
    | none =>
      simp only [stepProducer, hp, hsp, wrapProducer]
      exact .some ⟨h.at_producer .idle, rfl⟩
    | some v =>
      simp only [stepProducer, hp, hsp, wrapProducer]
      exact .some ⟨(h.set_storage hbits t (some v)).at_producer (.storeSeq v t), rfl⟩
  | storeSeq v t =>
    rw [hp] at hsp
    simp only [stepProducer, hp, hsp, wrapProducer, Width.wrap_add_left, Width.wrap_none]
    exact .some ⟨(h.store_seq hbits t (t + 1)).at_producer (.storeTail v t), rfl⟩
  | storeTail v t =>
    rw [hp] at hsp
    simp only [stepProducer, hp, hsp, wrapProducer, Width.wrap_add_left, Width.wrap_none]
    exact .some ⟨(h.set_tail (t + 1)).at_producer (.notifyAll v t), rfl⟩
  | notifyAll v t =>
    rw [hp] at hsp
    simp only [stepProducer, hp, hsp, wrapProducer]
    exact .some ⟨(h.wake_all hbits t).at_producer .idle, rfl⟩

theorem consumer_lockstep (h : Wraps w cap.toCapacity u s) (hk : cap.bits + 1 ≤ w)
    (hi : Inv cap.toCapacity log u) (hrec : Recalls cap.toCapacity u) {i : Fin n}
    (hnear : Near w cap.toCapacity u (.consumer i)) :
    Option.Rel (Alike w cap.toCapacity) (stepConsumer none cap.toCapacity u i)
      (stepConsumer (some w) cap.toCapacity s i) := by
  have hbits : cap.bits ≤ w := Nat.le_of_succ_le hk
  have hpow := Width.two_pow_pred (w := w) (by omega)
  have hsize : cap.size ≤ 2 ^ (w - 1) := by
    rw [cap.size_eq]
    exact Nat.pow_le_pow_right (by omega) (by omega)
  have hsc := h.consumer i
  have hcons := hi.consumer i
  have hold := hrec.consumer i
  have htwo := cap.two_le
  change NearHead w cap.toCapacity u.head (u.consumers i) at hnear
  cases hc : u.consumers i with
  | idle | parked | notifyOne =>
    rw [hc] at hsc
    simp only [stepConsumer, hc, hsc, wrapConsumer]
    exact .none
  | loadHead call =>
    rw [hc] at hsc
    simp only [stepConsumer, hc, hsc, wrapConsumer, h.head]
    exact .some ⟨h.at_consumer i (.loadSeq call u.head), rfl⟩
  | loadSeq call q =>
    rw [hc] at hsc hcons hnear
    obtain ⟨hlow, hhigh, _⟩ := hi.seq_range hcons
    have hlag : u.head - q + cap.size ≤ 2 ^ (w - 1) := hnear
    have hle : q ≤ u.head := hcons
    have hdiff := Width.diff_wrap (w := w) (a := u.seq cap.toCapacity q) (b := q + 1)
      (by omega) (by omega) (by omega)
    simp only [stepConsumer, hc, hsc, wrapConsumer, h.seq_at hbits, Width.wrap_add_left, hdiff,
      Width.wrap_none]
    cases Width.diff none (u.seq cap.toCapacity q) (q + 1) with
    | zero => exact .some ⟨h.at_consumer i (.cas call q), rfl⟩
    | negative =>
      cases call with
      | tryPop => exact .some ⟨h.at_consumer i .idle, rfl⟩
      | popWait => exact .some ⟨h.at_consumer i (.wait q _), rfl⟩
    | positive => exact .some ⟨h.at_consumer i (.reload call q), rfl⟩
  | reload call q =>
    rw [hc] at hsc
    simp only [stepConsumer, hc, hsc, wrapConsumer, h.head]
    exact .some ⟨h.at_consumer i (.loadSeq call u.head), rfl⟩
  | wait q old =>
    rw [hc] at hsc hcons hnear hold
    obtain ⟨hlow, hhigh, _⟩ := hi.seq_range hcons
    obtain ⟨holdlow, holdhigh⟩ := hold
    have hlag : u.head - q + cap.size ≤ 2 ^ (w - 1) := hnear
    have hle : q ≤ u.head := hcons
    have hsame := Width.wrap_eq_iff (w := w) (a := u.seq cap.toCapacity q) (b := old)
      (by omega) (by omega)
    simp only [stepConsumer, hc, hsc, wrapConsumer, h.seq_at hbits, hsame]
    split
    · exact .some ⟨h.at_consumer i (.parked q old), rfl⟩
    · exact .some ⟨h.at_consumer i (.loadSeq .popWait q), rfl⟩
  | cas call q =>
    rw [hc] at hsc hcons hnear
    have hle : q ≤ u.head := hcons.1
    have hlag : u.head - q + cap.size ≤ 2 ^ (w - 1) := hnear
    have hsame := Width.wrap_eq_iff (w := w) (a := u.head) (b := q) (by omega) (by omega)
    simp only [stepConsumer, hc, hsc, wrapConsumer, h.head, hsame, Width.wrap_add_left,
      Width.wrap_none]
    split
    · exact .some ⟨(h.set_head (q + 1)).at_consumer i (.moveOut q), rfl⟩
    · exact .some ⟨h.at_consumer i (.loadSeq call u.head), rfl⟩
  | moveOut q =>
    rw [hc] at hsc
    simp only [stepConsumer, hc, hsc, wrapConsumer, h.storage_at hbits]
    cases u.storage cap.toCapacity q with
    | some v => exact .some ⟨(h.set_storage hbits q none).at_consumer i (.storeSeq q v), rfl⟩
    | none => exact .some ⟨h.at_consumer i .idle, rfl⟩
  | storeSeq q v =>
    rw [hc] at hsc
    simp only [stepConsumer, hc, hsc, wrapConsumer, Width.wrap_add_left, Width.wrap_none]
    exact .some ⟨(h.store_seq hbits q (q + cap.size)).at_consumer i (.notifyOne q v), rfl⟩

theorem notify_one_lockstep (h : Wraps w cap.toCapacity u s) (hk : cap.bits ≤ w) (i : Fin n)
    (woken : Option (Waiter n)) :
    Option.Rel (Alike w cap.toCapacity) (stepNotifyOne cap.toCapacity u i woken)
      (stepNotifyOne cap.toCapacity s i woken) := by
  have hsc := h.consumer i
  cases hc : u.consumers i with
  | notifyOne q v =>
    rw [hc] at hsc
    cases woken with
    | some x =>
      simp only [stepNotifyOne, hc, hsc, wrapConsumer, h.parked_on hk]
      split
      · exact .some ⟨(h.wake x).at_consumer i .idle, rfl⟩
      · exact .none
    | none =>
      simp only [stepNotifyOne, hc, hsc, wrapConsumer, h.parked_on hk]
      split
      · exact .none
      · exact .some ⟨h.at_consumer i .idle, rfl⟩
  | _ =>
    rw [hc] at hsc
    simp only [stepNotifyOne, hc, hsc, wrapConsumer]
    exact .none

/-- Near enough to `head_`, no test can tell the wrapped counters from the
unbounded ones. -/
theorem step_lockstep (hk : cap.bits + 1 ≤ w) (hi : Inv cap.toCapacity log u)
    (hrec : Recalls cap.toCapacity u) (h : Wraps w cap.toCapacity u s)
    (hnear : Near w cap.toCapacity u a) :
    Option.Rel (Alike w cap.toCapacity) (step none cap.toCapacity u a)
      (step (some w) cap.toCapacity s a) := by
  cases a with
  | producer => exact producer_lockstep h hk hi hrec
  | consumer i => exact consumer_lockstep h hk hi hrec hnear
  | notifyOne i woken => exact notify_one_lockstep h (Nat.le_of_succ_le hk) i woken
  | emplace call arg =>
    simp only [step, h.producer]
    cases u.producer with
    | idle => exact .some ⟨h.at_producer (.loadTail call arg), rfl⟩
    | _ => exact .none
  | pop i call =>
    simp only [step, h.consumer]
    cases u.consumers i with
    | idle => exact .some ⟨h.at_consumer i (.loadHead call), rfl⟩
    | _ => exact .none
  | casFails i =>
    have hsc := h.consumer i
    have hcons := hi.consumer i
    change NearCas w cap.toCapacity u.head (u.consumers i) at hnear
    cases hc : u.consumers i with
    | cas call q =>
      rw [hc] at hsc hcons hnear
      have hle : q ≤ u.head := hcons.1
      have hlag : u.head - q + cap.size ≤ 2 ^ (w - 1) := hnear
      have hpow : 2 ^ (w - 1) ≤ 2 ^ w := Nat.pow_le_pow_right (by omega) (Nat.sub_le w 1)
      have hpos := cap.size_pos
      have hsame := Width.wrap_eq_iff (w := w) (a := u.head) (b := q) (by omega) (by omega)
      simp only [step, hc, hsc, wrapConsumer, h.head, hsame]
      split
      · exact .some ⟨h.at_consumer i (.loadSeq call u.head), rfl⟩
      · exact .none
    | _ =>
      rw [hc] at hsc
      simp only [step, hc, hsc, wrapConsumer]
      exact .none
  | spurious x =>
    simp only [step, h.parked_at, Option.isSome_map]
    split
    · exact .some ⟨h.wake x, rfl⟩
    · exact .none

theorem initial_wraps (hk : cap.bits ≤ w) : Wraps w cap.toCapacity
    (machine n T none cap.toCapacity).init (machine n T (some w) cap.toCapacity).init := by
  have hsize : cap.size ≤ 2 ^ w := by
    rw [cap.size_eq]
    exact Nat.pow_le_pow_right (by omega) hk
  refine ⟨?_, fun _ => rfl, (Nat.zero_mod _).symm, (Nat.zero_mod _).symm, rfl, fun _ => rfl⟩
  intro pos
  have hlt := cap.index_lt pos
  change cap.index pos = cap.index pos % 2 ^ w
  exact (Nat.mod_eq_of_lt (by omega)).symm

/-- Counters that wrap are invisible: along every schedule that keeps the
consumers' positions near `head_`, the wrapped queue refuses and takes the same
steps and shows the same results as the unbounded one. -/
theorem wrap_invisible (hk : cap.bits + 1 ≤ w) (as : List (Act n T))
    (hnear : (machine n T none cap.toCapacity).Stays (Near w cap.toCapacity)
      (machine n T none cap.toCapacity).init as) :
    Option.Rel (fun p q => Wraps w cap.toCapacity p.1 q.1 ∧ q.2 = p.2.map (wrapEvent w))
      ((machine n T none cap.toCapacity).exec (machine n T none cap.toCapacity).init as)
      ((machine n T (some w) cap.toCapacity).exec
        (machine n T (some w) cap.toCapacity).init as) := by
  refine Machine.exec_lockstep (wrapEvent w) ?_ .init (initial_wraps (Nat.le_of_succ_le hk)) as
    hnear
  intro tr u s a hr h hok
  exact step_lockstep hk (run_inv hr) (run_recalls hr) h hok

/-- Five items through the queue, one after another. -/
def fiveItems (i : Fin 1) : List (Act 1 Nat) :=
  (List.replicate 5
    [.emplace .tryEmplace (some 7), .producer, .producer, .producer, .producer, .producer,
     .producer, .pop i .tryPop, .consumer i, .consumer i, .consumer i, .consumer i,
     .consumer i, .notifyOne i none]).flatten

/-- Two slots and two-bit counters, the boundary capacity: `head_` comes to 1. -/
theorem wrap_invisible_two_bits : ∃ p q,
    (machine 1 Nat none twoSlots.toCapacity).exec
      (machine 1 Nat none twoSlots.toCapacity).init (fiveItems 0) = some p ∧
    (machine 1 Nat (some 2) twoSlots.toCapacity).exec
      (machine 1 Nat (some 2) twoSlots.toCapacity).init (fiveItems 0) = some q ∧
    p.1.head = 5 ∧ q.1.head = 1 ∧ q.2 = p.2.map (wrapEvent 2) := by
  have hnear : (machine 1 Nat none twoSlots.toCapacity).Stays (Near 2 twoSlots.toCapacity)
      (machine 1 Nat none twoSlots.toCapacity).init (fiveItems 0) :=
    Machine.stays_of_exec_where _ (by decide +kernel)
  have hrel := wrap_invisible (Nat.le_refl 2) (fiveItems 0) hnear
  have hhead : ((machine 1 Nat none twoSlots.toCapacity).exec
      (machine 1 Nat none twoSlots.toCapacity).init (fiveItems 0)).map (fun p => p.1.head) =
      some 5 := by decide +kernel
  obtain ⟨p, hp, hfive⟩ := Option.map_eq_some_iff.mp hhead
  rw [hp] at hrel
  cases hq : (machine 1 Nat (some 2) twoSlots.toCapacity).exec
      (machine 1 Nat (some 2) twoSlots.toCapacity).init (fiveItems 0) with
  | none =>
    rw [hq] at hrel
    cases hrel
  | some q =>
    rw [hq] at hrel
    cases hrel with
    | some hpq =>
      refine ⟨p, q, hp, rfl, hfive, ?_, hpq.2⟩
      rw [hpq.1.head, hfive]
      rfl

end Toolbox.Proofs.SpmcWrap
