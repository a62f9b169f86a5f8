import Toolbox.Base.Fifo
import Toolbox.Spsc

namespace Toolbox.Proofs.SpscFifo
open Base Spsc

variable {T : Type*} {cap : Capacity} {s s' : State T} {q : List T} {a : Act T}
  {tr es : List (Event T)}

/-- What the producer's local copies say while `q` are the items stored. A full
ring was excluded before the slot write, and the consumer can only make room. -/
def ProducerOk (cap : Capacity) (s : State T) (q : List T) : ProducerPc T → Prop
  | .loadHead _ t => t = s.tail
  | .write _ t => t = s.tail ∧ q.length + 1 < cap.size
  | .storeTail v t => t = s.tail ∧ q.length + 1 < cap.size ∧ s.buffer t = v
  | _ => True

def ConsumerOk (s : State T) (q : List T) : ConsumerPc T → Prop
  | .loadTail h => h = s.head
  | .move h => h = s.head ∧ q ≠ []
  | .storeHead v h => h = s.head ∧ q.head? = some v
  | _ => True

/-- The oldest item is already moved out, though `head` still counts it. -/
def Moved : ConsumerPc T → Prop
  | .storeHead _ _ => True
  | _ => False

/-- The wrapped indices and the ring stand for the unbounded queue `q`. -/
structure Holds (cap : Capacity) (s : State T) (q : List T) : Prop where
  head_lt : s.head < cap.size
  tail_eq : s.tail = cap.index (s.head + q.length)
  room : q.length < cap.size
  cells : ∀ j v, q[j]? = some v → (j = 0 → ¬ Moved s.consumer) →
    s.buffer (cap.index (s.head + j)) = v
  producer : ProducerOk cap s q s.producer
  consumer : ConsumerOk s q s.consumer

theorem Holds.tail_lt (h : Holds cap s q) : s.tail < cap.size := by
  rw [h.tail_eq]
  exact cap.index_lt _

/-- `(i + 1) & mask` advances a stored index by one position. -/
theorem index_succ (cap : Capacity) (pos : Nat) :
    (cap.index pos + 1) &&& cap.mask = cap.index (pos + 1) :=
  cap.index_congr_add (cap.index_index pos) 1

theorem index_eq_head (h : Holds cap s q) {n : Nat} (hn : n ≤ cap.size) :
    cap.index (s.head + n) = s.head ↔ n = 0 ∨ n = cap.size := by
  have hpos := cap.size_pos
  have hhead : cap.index s.head = s.head := cap.index_of_lt h.head_lt
  constructor
  · intro he
    by_cases hlt : n < cap.size
    · left
      have := cap.index_inj (he.trans hhead.symm) (by omega) (by omega)
      omega
    · right
      omega
  · rintro (rfl | rfl)
    · simpa using hhead
    · simpa using hhead

/-- The producer's full test compares wrapped indices; one slot stays free. -/
theorem full_iff (h : Holds cap s q) :
    (s.tail + 1) &&& cap.mask = s.head ↔ q.length + 1 = cap.size := by
  have hroom := h.room
  rw [h.tail_eq, index_succ, Nat.add_assoc, index_eq_head h hroom]
  omega

theorem empty_iff (h : Holds cap s q) : s.head = s.tail ↔ q = [] := by
  have hroom := h.room
  rw [h.tail_eq, eq_comm, index_eq_head h (Nat.le_of_lt hroom), ← List.length_eq_zero_iff]
  omega

/-- The free slot holds no stored item. -/
theorem tail_free (h : Holds cap s q) {j : Nat} (hj : j < q.length) :
    cap.index (s.head + j) ≠ s.tail := by
  have hroom := h.room
  rw [h.tail_eq]
  exact cap.index_ne (by omega) (by omega) (by omega)

theorem initial_holds [Inhabited T] (cap : Capacity) : Holds cap (machine T cap).init [] where
  head_lt := cap.size_pos
  tail_eq := (cap.index_of_lt cap.size_pos).symm
  room := cap.size_pos
  cells := by simp
  producer := trivial
  consumer := trivial

/-- A step that only moves the producer's program counter. -/
theorem Holds.at_producer (h : Holds cap s q) {pc : ProducerPc T}
    (hpc : ProducerOk cap { s with producer := pc } q pc) :
    Holds cap { s with producer := pc } q :=
  ⟨h.head_lt, h.tail_eq, h.room, h.cells, hpc, h.consumer⟩

theorem Holds.at_consumer (h : Holds cap s q) {pc : ConsumerPc T} (hm : ¬ Moved s.consumer)
    (hpc : ConsumerOk { s with consumer := pc } q pc) :
    Holds cap { s with consumer := pc } q :=
  ⟨h.head_lt, h.tail_eq, h.room, fun j v hj _ => h.cells j v hj (fun _ => hm), h.producer, hpc⟩

/-- Writing the free slot disturbs neither a stored item nor the consumer. -/
theorem Holds.write (h : Holds cap s q) (v : T) (hroom : q.length + 1 < cap.size) :
    Holds cap { s with
      buffer := Function.update s.buffer s.tail v, producer := .storeTail v s.tail } q := by
  refine ⟨h.head_lt, h.tail_eq, h.room, ?_, ⟨rfl, hroom, by simp⟩, h.consumer⟩
  intro j w hj hmoved
  have hlt : j < q.length := (List.getElem?_eq_some_iff.mp hj).1
  simpa [Function.update_of_ne (tail_free h hlt)] using h.cells j w hj hmoved

/-- The `tail` store is where an accepted item joins the queue. -/
theorem Holds.push (h : Holds cap s q) {v : T} {t : Nat} (hp : s.producer = .storeTail v t) :
    Holds cap { s with tail := (t + 1) &&& cap.mask, producer := .idle } (q ++ [v]) := by
  have hprod := h.producer
  rw [hp] at hprod
  obtain ⟨rfl, hroom, hv⟩ := hprod
  refine ⟨h.head_lt, ?_, by simpa using hroom, ?_, trivial, ?_⟩
  · simp only [List.length_append, List.length_singleton]
    rw [h.tail_eq, index_succ, Nat.add_assoc]
  · intro j w hj hmoved
    rcases Nat.lt_or_ge j q.length with hlt | hge
    · rw [List.getElem?_append_left hlt] at hj
      exact h.cells j w hj hmoved
    · rw [List.getElem?_append_right hge] at hj
      obtain ⟨hz, rfl⟩ : j - q.length = 0 ∧ v = w := by
        cases hd : j - q.length <;> simp_all
      obtain rfl : j = q.length := by omega
      simpa only [h.tail_eq] using hv
  · have hcons := h.consumer
    cases hc : s.consumer <;> simp only [hc, ConsumerOk] at hcons ⊢
    · exact hcons
    · exact ⟨hcons.1, by simp⟩
    · exact ⟨hcons.1, by simp [hcons.2]⟩

/-- The slot move reads the oldest item and may leave anything behind. -/
theorem Holds.take (h : Holds cap s q) {n : Nat} (left : T) (hc : s.consumer = .move n) :
    Holds cap { s with
      buffer := Function.update s.buffer n left, consumer := .storeHead (s.buffer n) n } q := by
  have hcons := h.consumer
  rw [hc] at hcons
  obtain ⟨rfl, hne⟩ := hcons
  have hhead : cap.index s.head = s.head := cap.index_of_lt h.head_lt
  have hlen : 0 < q.length := List.length_pos_iff.mpr hne
  obtain ⟨v, hv⟩ : ∃ v, q[0]? = some v := ⟨q[0], List.getElem?_eq_getElem hlen⟩
  have hread : s.buffer s.head = v := by
    have := h.cells 0 v hv (by simp [hc, Moved])
    simpa [hhead] using this
  have hroom := h.room
  refine ⟨h.head_lt, h.tail_eq, h.room, ?_, ?_, ⟨rfl, ?_⟩⟩
  · intro j w hj hmoved
    have hj0 : j ≠ 0 := fun he => hmoved he trivial
    have hlt : j < q.length := (List.getElem?_eq_some_iff.mp hj).1
    have hcell : cap.index (s.head + j) ≠ s.head := by
      rw [ne_eq, index_eq_head h (by omega)]
      omega
    simpa [Function.update_of_ne hcell] using h.cells j w hj (fun he => absurd he hj0)
  · have hprod := h.producer
    cases hp : s.producer <;> simp only [hp, ProducerOk] at hprod ⊢
    · exact hprod
    · exact hprod
    · refine ⟨hprod.1, hprod.2.1, ?_⟩
      have htail : s.tail ≠ s.head := fun he => hne ((empty_iff h).mp he.symm)
      rw [hprod.1, Function.update_of_ne htail]
      exact hprod.1 ▸ hprod.2.2
  · rw [hread, List.head?_eq_getElem?]
    exact hv

/-- The `head` store is where the oldest item leaves the queue. -/
theorem Holds.pop (h : Holds cap s q) {v : T} {n : Nat} (hc : s.consumer = .storeHead v n) :
    ∃ rest, q = v :: rest ∧
      Holds cap { s with head := (n + 1) &&& cap.mask, consumer := .idle } rest := by
  have hcons := h.consumer
  rw [hc] at hcons
  obtain ⟨rfl, hv⟩ := hcons
  obtain ⟨rest, rfl⟩ : ∃ rest, q = v :: rest := by
    cases q with
    | nil => simp at hv
    | cons w rest => exact ⟨rest, by simp_all⟩
  have hroom : rest.length + 1 < cap.size := h.room
  have hnext : ∀ j, cap.index (cap.index (s.head + 1) + j) = cap.index (s.head + (j + 1)) := by
    intro j
    rw [cap.index_congr_add (cap.index_index (s.head + 1)) j]
    congr 1
    omega
  refine ⟨rest, rfl, ?_, ?_, ?_, ?_, ?_, trivial⟩
  · exact cap.index_lt _
  · change s.tail = cap.index (cap.index (s.head + 1) + rest.length)
    rw [hnext]
    exact h.tail_eq
  · exact Nat.lt_of_succ_lt hroom
  · intro j w hj _
    change s.buffer (cap.index (cap.index (s.head + 1) + j)) = w
    rw [hnext]
    exact h.cells (j + 1) w (by simpa using hj) (by omega)
  · have hprod := h.producer
    cases hp : s.producer <;> simp only [hp, ProducerOk] at hprod ⊢
    · exact hprod
    · exact ⟨hprod.1, by omega⟩
    · exact ⟨hprod.1, by omega, hprod.2.2⟩

/-- The operations' instants of effect; a throwing constructor has none. -/
def observe : Event T → List (FifoEvent T)
  | .accepted v => [.pushed v]
  | .rejected => [.full]
  | .threw => []
  | .popped v => [.popped v]
  | .empty => [.empty]

theorem producer_simulates (h : Holds cap s q) (hs : stepProducer cap s = some (s', es)) :
    ∃ as q', (fifo T (cap.size - 1)).exec q as = some (q', es.flatMap observe) ∧
      Holds cap s' q' := by
  have hprod := h.producer
  cases hp : s.producer with
  | idle => simp [stepProducer, hp] at hs
  | loadTail arg =>
    simp only [stepProducer, hp, Option.some.injEq, Prod.mk.injEq] at hs
    obtain ⟨rfl, rfl⟩ := hs
    exact ⟨[], q, rfl, h.at_producer rfl⟩
  | loadHead arg t =>
    simp only [hp, ProducerOk] at hprod
    subst t
    simp only [stepProducer, hp, full_iff h] at hs
    split at hs
    all_goals
      simp only [Option.some.injEq, Prod.mk.injEq] at hs
      obtain ⟨rfl, rfl⟩ := hs
    · -- any push is refused by a full queue, whatever the value
      have hroom := h.room
      obtain ⟨v⟩ : Nonempty T := ⟨s.buffer 0⟩
      refine ⟨[.push v], q, ?_, h.at_producer trivial⟩
      have hfull : ¬ q.length < cap.size - 1 := by omega
      simp [Machine.exec, Machine.execWhere, fifo, hfull, observe]
    · have hroom := h.room
      exact ⟨[], q, rfl, h.at_producer ⟨rfl, by omega⟩⟩
  | write arg t =>
    simp only [hp, ProducerOk] at hprod
    obtain ⟨rfl, hroom⟩ := hprod
    cases arg with
    | none =>
      simp only [stepProducer, hp, Option.some.injEq, Prod.mk.injEq] at hs
      obtain ⟨rfl, rfl⟩ := hs
      exact ⟨[], q, rfl, h.at_producer trivial⟩
    | some v =>
      simp only [stepProducer, hp, Option.some.injEq, Prod.mk.injEq] at hs
      obtain ⟨rfl, rfl⟩ := hs
      exact ⟨[], q, rfl, h.write v hroom⟩
  | storeTail v t =>
    simp only [hp, ProducerOk] at hprod
    simp only [stepProducer, hp, Option.some.injEq, Prod.mk.injEq] at hs
    obtain ⟨rfl, rfl⟩ := hs
    refine ⟨[.push v], q ++ [v], ?_, h.push hp⟩
    have hroom : q.length < cap.size - 1 := by omega
    simp [Machine.exec, Machine.execWhere, fifo, hroom, observe]

theorem consumer_simulates (h : Holds cap s q) (hs : stepConsumer cap s = some (s', es)) :
    ∃ as q', (fifo T (cap.size - 1)).exec q as = some (q', es.flatMap observe) ∧
      Holds cap s' q' := by
  have hcons := h.consumer
  cases hc : s.consumer with
  | idle | move n => simp [stepConsumer, hc] at hs
  | loadHead =>
    simp only [stepConsumer, hc, Option.some.injEq, Prod.mk.injEq] at hs
    obtain ⟨rfl, rfl⟩ := hs
    exact ⟨[], q, rfl, h.at_consumer (by simp [hc, Moved]) rfl⟩
  | loadTail n =>
    simp only [hc, ConsumerOk] at hcons
    subst n
    simp only [stepConsumer, hc, empty_iff h] at hs
    split at hs
    all_goals
      rename_i hq
      simp only [Option.some.injEq, Prod.mk.injEq] at hs
      obtain ⟨rfl, rfl⟩ := hs
    · subst q
      exact ⟨[.pop], [], rfl, h.at_consumer (by simp [hc, Moved]) trivial⟩
    · exact ⟨[], q, rfl, h.at_consumer (by simp [hc, Moved]) ⟨rfl, hq⟩⟩
  | storeHead v n =>
    simp only [stepConsumer, hc, Option.some.injEq, Prod.mk.injEq] at hs
    obtain ⟨rfl, rfl⟩ := hs
    obtain ⟨rest, rfl, hrest⟩ := h.pop hc
    exact ⟨[.pop], rest, rfl, hrest⟩

theorem step_simulates (h : Holds cap s q) (hs : step cap s a = some (s', es)) :
    ∃ as q', (fifo T (cap.size - 1)).exec q as = some (q', es.flatMap observe) ∧
      Holds cap s' q' := by
  cases a with
  | producer => exact producer_simulates h hs
  | consumer => exact consumer_simulates h hs
  | tryEmplace arg =>
    simp only [step] at hs
    split at hs
    · cases hs
      exact ⟨[], q, rfl, h.at_producer trivial⟩
    · cases hs
  | tryPop =>
    simp only [step] at hs
    split at hs
    · rename_i hc
      cases hs
      exact ⟨[], q, rfl, h.at_consumer (by simp [hc, Moved]) trivial⟩
    · cases hs
  | move left =>
    simp only [step] at hs
    split at hs
    · rename_i n hc
      cases hs
      exact ⟨[], q, rfl, h.take left hc⟩
    · cases hs

/-- Every interleaving is a run of the atomic bounded queue, each operation
taking effect at one of its own steps. -/
theorem refines_fifo [Inhabited T] (hr : (machine T cap).Run tr s) :
    ∃ q, (fifo T (cap.size - 1)).Run (tr.flatMap observe) q ∧ Holds cap s q :=
  hr.simulate observe (R := fun _ s q => Holds cap s q) (initial_holds cap)
    (fun _ _ _ _ _ _ _ h hs => step_simulates h hs)

theorem pushes_observe (tr : List (Event T)) : Fifo.pushes (tr.flatMap observe) = accepted tr := by
  induction tr with
  | nil => rfl
  | cons e tr ih => cases e <;> simp_all [Fifo.pushes, accepted, observe]

theorem pops_observe (tr : List (Event T)) : Fifo.pops (tr.flatMap observe) = popped tr := by
  induction tr with
  | nil => rfl
  | cons e tr ih => cases e <;> simp_all [Fifo.pops, popped, observe]

/-- The stored items are those accepted and not yet popped. -/
theorem log_split [Inhabited T] (hr : (machine T cap).Run tr s) :
    ∃ q, accepted tr = popped tr ++ q ∧ stored tr = q.length ∧ Holds cap s q := by
  obtain ⟨q, hrun, hq⟩ := refines_fifo hr
  have horder := (Fifo.run_order hrun).1
  rw [pushes_observe, pops_observe] at horder
  exact ⟨q, horder, by simp [stored, horder], hq⟩

/-- `try_emplace` answers false at its `head` load and nowhere else. -/
theorem rejected_iff (h : Holds cap s q) (hs : step cap s a = some (s', es)) :
    .rejected ∈ es ↔ a = .producer ∧ (∃ arg t, s.producer = .loadHead arg t) ∧
      q.length + 1 = cap.size := by
  have hprod := h.producer
  cases a with
  | producer =>
    simp only [step] at hs
    cases hp : s.producer with
    | idle => simp [stepProducer, hp] at hs
    | loadHead arg t =>
      simp only [hp, ProducerOk] at hprod
      subst t
      simp only [stepProducer, hp, full_iff h] at hs
      split at hs <;> cases hs <;> simp_all
    | write arg t => cases arg <;> simp only [stepProducer, hp] at hs <;> cases hs <;> simp
    | loadTail | storeTail => simp only [stepProducer, hp] at hs; cases hs; simp
  | tryEmplace arg | tryPop | move left =>
    simp only [step] at hs
    split at hs <;> cases hs
    simp
  | consumer =>
    simp only [step, stepConsumer] at hs
    split at hs
    all_goals try split at hs
    all_goals cases hs
    all_goals simp

/-- `try_pop` answers nullopt at its `tail` load and nowhere else. -/
theorem empty_event_iff (h : Holds cap s q) (hs : step cap s a = some (s', es)) :
    .empty ∈ es ↔ a = .consumer ∧ (∃ n, s.consumer = .loadTail n) ∧ q.length = 0 := by
  have hcons := h.consumer
  cases a with
  | consumer =>
    simp only [step] at hs
    cases hc : s.consumer with
    | idle | move n => simp [stepConsumer, hc] at hs
    | loadTail n =>
      simp only [hc, ConsumerOk] at hcons
      subst n
      simp only [stepConsumer, hc, empty_iff h] at hs
      split at hs <;> cases hs <;> simp_all
    | loadHead | storeHead => simp only [stepConsumer, hc] at hs; cases hs; simp
  | tryEmplace arg | tryPop | move left =>
    simp only [step] at hs
    split at hs <;> cases hs
    simp
  | producer =>
    simp only [step, stepProducer] at hs
    split at hs
    all_goals try split at hs
    all_goals cases hs
    all_goals simp

/-- A bounded FIFO under every interleaving: order, bounds, exclusive slots,
and answers that are true at the load that decides them. -/
theorem linearizable_fifo [Inhabited T] (hr : (machine T cap).Run tr s) :
    (popped tr <+: accepted tr ∧ ∃ q, (fifo T (cap.size - 1)).Run (tr.flatMap observe) q) ∧
    (s.head < cap.size ∧ s.tail < cap.size ∧
      (∀ arg t, s.producer = .write arg t → t < cap.size) ∧
      (∀ h, s.consumer = .move h → h < cap.size)) ∧
    (∀ arg t, s.producer = .write arg t → (∀ h, s.consumer = .move h → h ≠ t) ∧
      ∀ j < stored tr, cap.index (s.head + j) ≠ t) ∧
    (∀ a s' es, (machine T cap).step s a = some (s', es) →
      (.rejected ∈ es ↔ a = .producer ∧ (∃ arg t, s.producer = .loadHead arg t) ∧
        stored tr = cap.size - 1)) ∧
    (∀ a s' es, (machine T cap).step s a = some (s', es) →
      (.empty ∈ es ↔ a = .consumer ∧ (∃ h, s.consumer = .loadTail h) ∧ stored tr = 0)) := by
  obtain ⟨q, hlog, hstored, hq⟩ := log_split hr
  obtain ⟨q', hrun, _⟩ := refines_fifo hr
  have hroom := hq.room
  have hprod := hq.producer
  have hcons := hq.consumer
  refine ⟨⟨⟨q, hlog.symm⟩, q', hrun⟩, ⟨hq.head_lt, hq.tail_lt, ?_, ?_⟩, ?_, ?_, ?_⟩
  · intro arg t hp
    simp only [hp, ProducerOk] at hprod
    exact hprod.1 ▸ hq.tail_lt
  · intro h hc
    simp only [hc, ConsumerOk] at hcons
    exact hcons.1 ▸ hq.head_lt
  · intro arg t hp
    simp only [hp, ProducerOk] at hprod
    refine ⟨?_, ?_⟩
    · intro h hc
      simp only [hc, ConsumerOk] at hcons
      rw [hcons.1, hprod.1]
      exact fun he => hcons.2 ((empty_iff hq).mp he)
    · intro j hj
      rw [hprod.1]
      exact tail_free hq (hstored ▸ hj)
  · intro a s' es hs
    rw [rejected_iff hq hs, hstored]
    have : q.length + 1 = cap.size ↔ q.length = cap.size - 1 := by omega
    rw [this]
  · intro a s' es hs
    rw [empty_event_iff hq hs, hstored]

/-- One item in, a second refused, the first one out, the queue found empty. -/
def fillAndDrain : List (Act Nat) :=
  [.tryEmplace (some 7), .producer, .producer, .producer, .producer,
   .tryEmplace (some 8), .producer, .producer,
   .tryPop, .consumer, .consumer, .move 0, .consumer,
   .tryPop, .consumer, .consumer]

theorem linearizable_fifo_two_slots : ∃ tr s, (machine Nat twoSlots.toCapacity).Run tr s ∧
    popped tr = [7] ∧ popped tr <+: accepted tr := by
  have hr : (machine Nat twoSlots.toCapacity).Run _ _ := Machine.run_of_exec fillAndDrain rfl
  exact ⟨_, _, hr, rfl, (linearizable_fifo hr).1.1⟩

end Toolbox.Proofs.SpscFifo
