import Toolbox.Proofs.SpmcMoves

namespace Toolbox.Proofs.SpmcSlots
open Base Spmc SpmcMoves

variable {n : Nat} {T : Type*}

section Fields

variable (cap : Capacity) (s : State n T) (pc : ProducerPc T) (i : Fin n) (cpc : ConsumerPc T)

@[simp] theorem seq_at_producer (q : Nat) : (s.atProducer pc).seq cap q = s.seq cap q := rfl
@[simp] theorem seq_at_consumer (q : Nat) : (s.atConsumer i cpc).seq cap q = s.seq cap q := rfl
@[simp] theorem storage_at_producer (q : Nat) :
    (s.atProducer pc).storage cap q = s.storage cap q := rfl
@[simp] theorem storage_at_consumer (q : Nat) :
    (s.atConsumer i cpc).storage cap q = s.storage cap q := rfl
@[simp] theorem consumers_at_producer : (s.atProducer pc).consumers = s.consumers := rfl
@[simp] theorem producer_at_producer : (s.atProducer pc).producer = pc := rfl
@[simp] theorem producer_at_consumer : (s.atConsumer i cpc).producer = s.producer := rfl
@[simp] theorem head_at_producer : (s.atProducer pc).head = s.head := rfl
@[simp] theorem head_at_consumer : (s.atConsumer i cpc).head = s.head := rfl
@[simp] theorem tail_at_producer : (s.atProducer pc).tail = s.tail := rfl
@[simp] theorem tail_at_consumer : (s.atConsumer i cpc).tail = s.tail := rfl

@[simp] theorem consumers_at_consumer (j : Fin n) :
    (s.atConsumer i cpc).consumers j = if j = i then cpc else s.consumers j := by
  simp [State.atConsumer, Function.update_apply]

@[simp] theorem consumers_store_seq (p x : Nat) :
    (s.storeSeq cap p x).consumers = s.consumers := rfl
@[simp] theorem producer_store_seq (p x : Nat) :
    (s.storeSeq cap p x).producer = s.producer := rfl
@[simp] theorem head_store_seq (p x : Nat) : (s.storeSeq cap p x).head = s.head := rfl
@[simp] theorem tail_store_seq (p x : Nat) : (s.storeSeq cap p x).tail = s.tail := rfl
@[simp] theorem consumers_set_storage (p : Nat) (b : Option T) :
    (s.setStorage cap p b).consumers = s.consumers := rfl
@[simp] theorem producer_set_storage (p : Nat) (b : Option T) :
    (s.setStorage cap p b).producer = s.producer := rfl
@[simp] theorem head_set_storage (p : Nat) (b : Option T) :
    (s.setStorage cap p b).head = s.head := rfl
@[simp] theorem tail_set_storage (p : Nat) (b : Option T) :
    (s.setStorage cap p b).tail = s.tail := rfl

theorem seq_store_seq (p x q : Nat) : (s.storeSeq cap p x).seq cap q =
    if cap.index q = cap.index p then x else s.seq cap q := by
  simp only [State.seq, State.storeSeq, cap.get_set]
  split <;> rfl

@[simp] theorem storage_store_seq (p x q : Nat) :
    (s.storeSeq cap p x).storage cap q = s.storage cap q := by
  simp only [State.storage, State.storeSeq, cap.get_set]
  split
  · rename_i h
    rw [cap.get_congr _ h]
  · rfl

theorem storage_set_storage (p q : Nat) (b : Option T) : (s.setStorage cap p b).storage cap q =
    if cap.index q = cap.index p then b else s.storage cap q := by
  simp only [State.storage, State.setStorage, cap.get_set]
  split <;> rfl

@[simp] theorem seq_set_storage (p q : Nat) (b : Option T) :
    (s.setStorage cap p b).seq cap q = s.seq cap q := by
  simp only [State.seq, State.setStorage, cap.get_set]
  split
  · rename_i h
    rw [cap.get_congr _ h]
  · rfl

end Fields

/-- The position whose slot a consumer has claimed and not yet released. -/
def held : ConsumerPc T → Option Nat
  | .moveOut h => some h
  | .storeSeq h _ => some h
  | _ => none

variable {cap : RingCapacity} {s s' : State n T} {log : List T} {a : Act n T}
  {es : List (Event n T)}

/-- The producer's copy `t` of `tail_` is the number of items produced, except
between the slot's sequence store and the `tail_` store. -/
def ProducerOk (cap : Capacity) (s : State n T) (log : List T) : ProducerPc T → Prop
  | .idle | .loadTail _ _ => s.tail = log.length
  | .loadSeq _ _ t | .wait _ t _ | .parked _ t _ => t = log.length ∧ s.tail = log.length
  | .construct _ t => t = log.length ∧ s.tail = log.length ∧ s.seq cap t = t
  | .storeSeq v t => t = log.length ∧ s.tail = log.length ∧ s.seq cap t = t ∧
      s.storage cap t = some v
  | .storeTail v t => t + 1 = log.length ∧ s.tail = t ∧ log[t]? = some v
  | .notifyAll v t => t + 1 = log.length ∧ s.tail = log.length ∧ log[t]? = some v

/-- A local `h` never exceeds `head_`, and a slot once seen full stays produced.
The holder of a claimed slot is alone with it until its release store. -/
def ConsumerOk (cap : Capacity) (s : State n T) (log : List T) : ConsumerPc T → Prop
  | .idle | .loadHead _ => True
  | .loadSeq _ h | .reload _ h | .wait h _ | .parked h _ => h ≤ s.head
  | .cas _ h => h ≤ s.head ∧ h < log.length
  | .moveOut h => h < s.head ∧ log.length ≤ h + cap.size ∧ s.seq cap h = h + 1 ∧
      s.storage cap h = log[h]?
  | .storeSeq h v => h < s.head ∧ log.length ≤ h + cap.size ∧ s.seq cap h = h + 1 ∧
      s.storage cap h = none ∧ log[h]? = some v
  | .notifyOne h v => h < s.head ∧ log[h]? = some v

/-- The slot that position `q`, the next one not yet produced, will use: free,
or holding the item of one lap earlier, or claimed and not yet released. -/
inductive SlotOk (cap : Capacity) (s : State n T) (log : List T) (q : Nat) : Prop
  | free (hseq : s.seq cap q = q) (hlt : q < s.head + cap.size)
      (hempty : s.storage cap q = none ∨ ∃ v, s.producer = .storeSeq v q)
  | full (p : Nat) (hq : q = p + cap.size) (hseq : s.seq cap q = p + 1) (hle : s.head ≤ p)
      (hstore : s.storage cap q = log[p]?)
  | taken (p : Nat) (i : Fin n) (hq : q = p + cap.size) (hseq : s.seq cap q = p + 1)
      (hlt : p < s.head) (hheld : held (s.consumers i) = some p)

/-- Ties `head_`, the items produced, every slot's sequence and storage and
every thread's program counter together. -/
structure Inv (cap : Capacity) (log : List T) (s : State n T) : Prop where
  head_le : s.head ≤ log.length
  len_le : log.length ≤ s.head + cap.size
  producer : ProducerOk cap s log s.producer
  consumer : ∀ i, ConsumerOk cap s log (s.consumers i)
  alone : ∀ i j h, held (s.consumers i) = some h → held (s.consumers j) = some h → i = j
  slot : ∀ q, log.length ≤ q → q < log.length + cap.size → SlotOk cap s log q

theorem initial_inv : Inv cap.toCapacity [] (machine n T none cap.toCapacity).init := by
  refine ⟨Nat.le_refl _, by simp, rfl, fun _ => trivial, ?_, ?_⟩
  · intro i j h hi
    cases hi
  intro q _ hlt
  simp only [List.length_nil, Nat.zero_add] at hlt
  refine .free ?_ (by simpa [machine] using hlt) (.inl rfl)
  simp [machine, State.seq, Capacity.get, cap.index_of_lt hlt]

theorem held_ok {pc : ConsumerPc T} {h : Nat} (hok : ConsumerOk cap.toCapacity s log pc)
    (hh : held pc = some h) :
    h < s.head ∧ log.length ≤ h + cap.size ∧ s.seq cap.toCapacity h = h + 1 := by
  cases pc <;> simp only [held, reduceCtorEq, Option.some.injEq] at hh
  all_goals subst hh
  · exact ⟨hok.1, hok.2.1, hok.2.2.1⟩
  · exact ⟨hok.1, hok.2.1, hok.2.2.1⟩

/-- A free slot and a slot in use are never the same one. -/
theorem free_ne_used {t p : Nat} (ht : s.seq cap.toCapacity t = t)
    (hp : s.seq cap.toCapacity p = p + 1) : cap.index t ≠ cap.index p := by
  intro he
  have hsame : s.seq cap.toCapacity t = s.seq cap.toCapacity p := by
    simp only [State.seq, cap.get_congr _ he]
  have htwo := cap.two_le
  have := cap.index_inj he (by omega) (by omega)
  omega

/-- Two claimed and unreleased positions use different slots. -/
theorem Inv.held_ne (hi : Inv cap.toCapacity log s) {i j : Fin n} {p q : Nat} (hne : i ≠ j)
    (hp : held (s.consumers i) = some p) (hq : held (s.consumers j) = some q) :
    cap.index p ≠ cap.index q := by
  obtain ⟨hplt, hple, _⟩ := held_ok (hi.consumer i) hp
  obtain ⟨hqlt, hqle, _⟩ := held_ok (hi.consumer j) hq
  have hhead := hi.head_le
  apply cap.index_ne
  · rintro rfl
    exact hne (hi.alone i j p hp hq)
  · omega
  · omega

/-- The slot of the next position is free when the producer is allowed to
construct in it, so it holds no live `T`. -/
theorem Inv.construct_free (hi : Inv cap.toCapacity log s) {arg : Option T} {t : Nat}
    (hp : s.producer = .construct arg t) :
    t < s.head + cap.size ∧ s.storage cap.toCapacity t = none := by
  have hprod := hi.producer
  rw [hp] at hprod
  obtain ⟨rfl, _, hseq⟩ := hprod
  have htwo := cap.two_le
  cases hi.slot log.length (Nat.le_refl _) (by omega) with
  | free _ hlt hempty =>
    refine ⟨hlt, hempty.resolve_right ?_⟩
    rintro ⟨v, hv⟩
    rw [hp] at hv
    cases hv
  | full p hq hseq' => omega
  | taken p i hq hseq' => omega

theorem Inv.store_seq_lt (hi : Inv cap.toCapacity log s) {v : T} {t : Nat}
    (hp : s.producer = .storeSeq v t) : t < s.head + cap.size := by
  have hprod := hi.producer
  rw [hp] at hprod
  obtain ⟨rfl, _, hseq, _⟩ := hprod
  have htwo := cap.two_le
  cases hi.slot log.length (Nat.le_refl _) (by omega) with
  | free _ hlt _ => exact hlt
  | full p hq hseq' => omega
  | taken p i hq hseq' => omega

/-- An item that is produced and not claimed is in its slot. -/
theorem Inv.unclaimed (hi : Inv cap.toCapacity log s) {p : Nat} (hle : s.head ≤ p)
    (hlt : p < log.length) :
    s.seq cap.toCapacity p = p + 1 ∧ s.storage cap.toCapacity p = log[p]? := by
  have hlen := hi.len_le
  have hsame : cap.get s.slots (p + cap.size) = cap.get s.slots p :=
    cap.get_congr _ (cap.index_add_size p)
  cases hi.slot (p + cap.size) (by omega) (by omega) with
  | free hseq hfree _ => omega
  | full p' hq hseq _ hstore =>
    obtain rfl : p' = p := by omega
    exact ⟨by simpa [State.seq, hsame] using hseq, by simpa [State.storage, hsame] using hstore⟩
  | taken p' i hq hseq hlt' _ => omega

/-- A consumer relies on `head_` not falling and on the slot it holds. -/
theorem ConsumerOk.keep {pc : ConsumerPc T} (hok : ConsumerOk cap.toCapacity s log pc)
    (hhead : s.head ≤ s'.head)
    (hsame : ∀ p, held pc = some p → cap.get s'.slots p = cap.get s.slots p) :
    ConsumerOk cap.toCapacity s' log pc := by
  cases pc with
  | idle | loadHead => trivial
  | loadSeq | reload | wait | parked => exact Nat.le_trans hok hhead
  | cas => exact ⟨Nat.le_trans hok.1 hhead, hok.2⟩
  | notifyOne => exact ⟨Nat.lt_of_lt_of_le hok.1 hhead, hok.2⟩
  | moveOut h | storeSeq h v =>
    refine ⟨Nat.lt_of_lt_of_le hok.1 hhead, hok.2.1, ?_⟩
    simpa only [State.seq, State.storage, hsame h rfl] using hok.2.2

/-- A new item leaves a consumer alone unless it would need the slot it holds. -/
theorem ConsumerOk.grow {pc : ConsumerPc T} (hok : ConsumerOk cap.toCapacity s log pc) (v : T)
    (hhead : s.head ≤ log.length)
    (hroom : ∀ p, held pc = some p → log.length ≠ p + cap.size) :
    ConsumerOk cap.toCapacity s (log ++ [v]) pc := by
  have hkeep : ∀ p, p < s.head → (log ++ [v])[p]? = log[p]? :=
    fun p hlt => List.getElem?_append_left (Nat.lt_of_lt_of_le hlt hhead)
  have hlen : (log ++ [v]).length = log.length + 1 := List.length_append
  cases pc with
  | idle | loadHead => trivial
  | loadSeq | reload | wait | parked => exact hok
  | cas => exact ⟨hok.1, by rw [hlen]; exact Nat.lt_succ_of_lt hok.2⟩
  | notifyOne => exact ⟨hok.1, (hkeep _ hok.1).trans hok.2⟩
  | moveOut h =>
    obtain ⟨hlt, hle, hseq, hitem⟩ := hok
    have := hroom h rfl
    exact ⟨hlt, by omega, hseq, hitem.trans (hkeep h hlt).symm⟩
  | storeSeq h w =>
    obtain ⟨hlt, hle, hseq, hempty, hitem⟩ := hok
    have := hroom h rfl
    exact ⟨hlt, by omega, hseq, hempty, (hkeep h hlt).trans hitem⟩

/-- The producer relies on `tail_` and on the free slot it is about to fill. -/
theorem ProducerOk.keep {pc : ProducerPc T} (hok : ProducerOk cap.toCapacity s log pc)
    (htail : s'.tail = s.tail)
    (hsame : ∀ t, s.seq cap.toCapacity t = t → cap.get s'.slots t = cap.get s.slots t) :
    ProducerOk cap.toCapacity s' log pc := by
  cases pc with
  | construct arg t =>
    have hslot := hsame t hok.2.2
    simpa only [ProducerOk, State.seq, htail, hslot] using hok
  | storeSeq v t =>
    have hslot := hsame t hok.2.2.1
    simpa only [ProducerOk, State.seq, State.storage, htail, hslot] using hok
  | _ => simpa only [ProducerOk, htail] using hok

theorem SlotOk.keep {log' : List T} {q : Nat} (hok : SlotOk cap.toCapacity s log q)
    (hsame : cap.get s'.slots q = cap.get s.slots q) (hhead : s'.head = s.head)
    (hlog : ∀ p, q = p + cap.size → log'[p]? = log[p]?)
    (hheld : ∀ i p, q = p + cap.size → held (s.consumers i) = some p →
      held (s'.consumers i) = some p)
    (hstore : ∀ v, s.producer = .storeSeq v q → s'.producer = .storeSeq v q) :
    SlotOk cap.toCapacity s' log' q := by
  have hseq : s'.seq cap.toCapacity q = s.seq cap.toCapacity q := by
    simp only [State.seq, hsame]
  have hstor : s'.storage cap.toCapacity q = s.storage cap.toCapacity q := by
    simp only [State.storage, hsame]
  cases hok with
  | free h1 h2 h3 =>
    refine .free (hseq.trans h1) (hhead ▸ h2) ?_
    rcases h3 with h3 | ⟨v, h3⟩
    · exact .inl (hstor.trans h3)
    · exact .inr ⟨v, hstore v h3⟩
  | full p h1 h2 h3 h4 =>
    exact .full p h1 (hseq.trans h2) (hhead ▸ h3) ((hstor.trans h4).trans (hlog p h1).symm)
  | taken p i h1 h2 h3 h4 =>
    exact .taken p i h1 (hseq.trans h2) (hhead ▸ h3) (hheld i p h1 h4)

/-- Program counters may change as long as every thread's facts hold again and
nobody gains or loses a claimed slot. -/
theorem Inv.rewire (hi : Inv cap.toCapacity log s) (hslots : s'.slots = s.slots)
    (hhead : s'.head = s.head)
    (hheld : ∀ i, held (s'.consumers i) = held (s.consumers i))
    (hprod : ProducerOk cap.toCapacity s' log s'.producer)
    (hcons : ∀ i, ConsumerOk cap.toCapacity s' log (s'.consumers i))
    (hstore : ∀ v q, s.producer = .storeSeq v q → s'.producer = .storeSeq v q) :
    Inv cap.toCapacity log s' := by
  refine ⟨hhead ▸ hi.head_le, hhead ▸ hi.len_le, hprod, hcons, ?_, ?_⟩
  · intro i j h
    rw [hheld, hheld]
    exact hi.alone i j h
  · intro q hle hlt
    refine (hi.slot q hle hlt).keep (by rw [hslots]) hhead (fun _ _ => rfl) ?_
      (fun v => hstore v q)
    intro i p _ hp
    rwa [hheld]

/-- Facts about a thread only mention the slots, `head_` and `tail_`. -/
theorem consumer_ok_congr (hslots : s'.slots = s.slots) (hhead : s'.head = s.head)
    {pc : ConsumerPc T} (hok : ConsumerOk cap.toCapacity s log pc) :
    ConsumerOk cap.toCapacity s' log pc :=
  hok.keep (Nat.le_of_eq hhead.symm) (fun _ _ => by rw [hslots])

theorem producer_ok_congr (hslots : s'.slots = s.slots) (htail : s'.tail = s.tail)
    {pc : ProducerPc T} (hok : ProducerOk cap.toCapacity s log pc) :
    ProducerOk cap.toCapacity s' log pc :=
  hok.keep htail (fun _ _ => by rw [hslots])

theorem Inv.at_producer (hi : Inv cap.toCapacity log s) {pc : ProducerPc T}
    (hprod : ProducerOk cap.toCapacity s log pc) (hold : ∀ v q, s.producer ≠ .storeSeq v q) :
    Inv cap.toCapacity log (s.atProducer pc) :=
  hi.rewire rfl rfl (fun _ => rfl) (producer_ok_congr rfl rfl hprod)
    (fun i => consumer_ok_congr rfl rfl (hi.consumer i)) (fun v q h => absurd h (hold v q))

theorem Inv.at_consumer (hi : Inv cap.toCapacity log s) {i : Fin n} {pc : ConsumerPc T}
    (hcons : ConsumerOk cap.toCapacity s log pc)
    (hheld : held pc = held (s.consumers i)) :
    Inv cap.toCapacity log (s.atConsumer i pc) := by
  refine hi.rewire rfl rfl ?_ (producer_ok_congr rfl rfl hi.producer) ?_ (fun _ _ h => h)
  · intro j
    by_cases he : j = i
    · simp [he, hheld]
    · simp [he]
  · intro j
    by_cases he : j = i
    · simp only [he, consumers_at_consumer, ↓reduceIte]
      exact consumer_ok_congr rfl rfl hcons
    · simp only [he, consumers_at_consumer, ↓reduceIte]
      exact consumer_ok_congr rfl rfl (hi.consumer j)

theorem producer_woken_ok {pc : ProducerPc T} (hok : ProducerOk cap.toCapacity s log pc) :
    ProducerOk cap.toCapacity s log pc.woken := by
  cases pc <;> exact hok

theorem consumer_woken_ok {pc : ConsumerPc T} (hok : ConsumerOk cap.toCapacity s log pc) :
    ConsumerOk cap.toCapacity s log pc.woken := by
  cases pc <;> exact hok

@[simp] theorem held_woken (pc : ConsumerPc T) : held pc.woken = held pc := by
  cases pc <;> rfl

theorem Inv.wake (hi : Inv cap.toCapacity log s) (x : Waiter n) :
    Inv cap.toCapacity log (s.wake x) := by
  cases x with
  | producer =>
    cases hp : s.producer with
    | parked arg t old =>
      have hok := producer_woken_ok hi.producer
      rw [hp] at hok
      simpa [State.wake, hp] using hi.at_producer hok (by simp [hp])
    | _ =>
      have hsame : s.wake .producer = s := by
        unfold State.wake State.atProducer
        rw [hp, ProducerPc.woken, ← hp]
        · simp
      rwa [hsame]
  | consumer i => exact hi.at_consumer (consumer_woken_ok (hi.consumer i)) (held_woken _)

theorem Inv.wake_all (hi : Inv cap.toCapacity log s) (pos : Nat) :
    Inv cap.toCapacity log (s.wakeAll cap.toCapacity pos) := by
  refine hi.rewire rfl rfl ?_ ?_ ?_ ?_
  · intro i
    simp only [State.wakeAll]
    split <;> simp
  · refine producer_ok_congr (s := s) rfl rfl ?_
    simp only [State.wakeAll]
    split
    · exact producer_woken_ok hi.producer
    · exact hi.producer
  · intro i
    refine consumer_ok_congr (s := s) rfl rfl ?_
    simp only [State.wakeAll]
    split
    · exact consumer_woken_ok (hi.consumer i)
    · exact hi.consumer i
  · intro v q h
    simp [State.wakeAll, h, ProducerPc.woken]

theorem Inv.producer_move (hi : Inv cap.toCapacity log s) {pc : ProducerPc T}
    (hm : ProducerMove cap.toCapacity s pc es) : Inv cap.toCapacity log (s.atProducer pc) := by
  have hprod := hi.producer
  cases hm with
  | call hp | loadTail hp | block hp _ | park hp _ | changed hp _ =>
    rw [hp] at hprod
    exact hi.at_producer (by simpa [ProducerOk] using hprod) (by simp [hp])
  | free hp hseq =>
    rw [hp] at hprod
    exact hi.at_producer ⟨hprod.1, hprod.2, hseq⟩ (by simp [hp])
  | full hp _ =>
    rw [hp] at hprod
    exact hi.at_producer hprod.2 (by simp [hp])
  | threw hp =>
    rw [hp] at hprod
    exact hi.at_producer hprod.2.1 (by simp [hp])

/-- What a consumer saw full was produced: an unproduced position's slot shows
at most the position itself. -/
theorem Inv.seen_full (hi : Inv cap.toCapacity log s) {h : Nat} (hle : h ≤ s.head)
    (hseq : s.seq cap.toCapacity h = h + 1) : h < log.length := by
  have hhead := hi.head_le
  rcases Nat.lt_or_ge h log.length with hlt | hge
  · exact hlt
  · have htwo := cap.two_le
    obtain rfl : h = log.length := by omega
    cases hi.slot log.length (Nat.le_refl _) (by omega) with
    | free hfree => omega
    | full p hq hseq' => omega
    | taken p i hq hseq' => omega

/-- Whatever slot a consumer looks at, it shows a sequence of the lap of `h` or
of a later one, and none that `head_` has not come near. -/
theorem Inv.seq_range (hi : Inv cap.toCapacity log s) {h : Nat} (hle : h ≤ s.head) :
    h + 1 ≤ s.seq cap.toCapacity h + cap.size ∧
      s.seq cap.toCapacity h ≤ s.head + cap.size ∧
      (h < log.length → h + 1 ≤ s.seq cap.toCapacity h) := by
  have hhead := hi.head_le
  have hlen := hi.len_le
  have htwo := cap.two_le
  obtain ⟨q, hq, hlt, hcell⟩ := cap.exists_in_lap log.length h
  have hsame : s.seq cap.toCapacity h = s.seq cap.toCapacity q := by
    simp only [State.seq, cap.get_congr _ hcell]
  rw [hsame]
  cases hi.slot q hq hlt with
  | free hseq hfree _ => omega
  | full p hp hseq hunclaimed _ => omega
  | taken p i hp hseq hclaimed _ =>
    refine ⟨by omega, by omega, ?_⟩
    intro hfilled
    have hcell' : cap.index p = cap.index h := by
      rw [← cap.index_add_size p, ← hp, hcell]
    rcases Nat.lt_or_ge p h with hbefore | hafter
    · have := cap.index_inj hcell' (by omega) (by omega)
      omega
    · omega

theorem Inv.consumer_move (hi : Inv cap.toCapacity log s) {i : Fin n} {pc : ConsumerPc T}
    (hm : ConsumerMove cap.toCapacity s i pc es) :
    Inv cap.toCapacity log (s.atConsumer i pc) := by
  have hcons := hi.consumer i
  cases hm with
  | call hc | empty hc _ => exact hi.at_consumer trivial (by simp [hc, held])
  | loadHead hc | reload hc | lost hc _ | spurious hc _ =>
    exact hi.at_consumer (Nat.le_refl _) (by simp [hc, held])
  | ready hc hseq =>
    rw [hc] at hcons
    exact hi.at_consumer ⟨hcons, hi.seen_full hcons hseq⟩ (by simp [hc, held])
  | block hc _ | stale hc _ | park hc _ | changed hc _ =>
    rw [hc] at hcons
    exact hi.at_consumer hcons (by simp [hc, held])

/-- Placement-new into the free slot of the next position. -/
theorem Inv.construct (hi : Inv cap.toCapacity log s) {v : T} {t : Nat}
    (hp : s.producer = .construct (some v) t) :
    Inv cap.toCapacity log
      ((s.setStorage cap.toCapacity t (some v)).atProducer (.storeSeq v t)) := by
  have hprod := hi.producer
  rw [hp] at hprod
  obtain ⟨rfl, htail, hseq⟩ := hprod
  refine ⟨hi.head_le, hi.len_le, ?_, ?_, hi.alone, ?_⟩
  · refine ⟨rfl, htail, by simpa using hseq, ?_⟩
    simp [storage_set_storage]
  · intro i
    refine (hi.consumer i).keep (Nat.le_refl _) ?_
    intro p hheld
    obtain ⟨_, _, hfull⟩ := held_ok (hi.consumer i) hheld
    exact cap.get_set_of_ne _ _ (free_ne_used hseq hfull).symm
  · intro q hle hlt
    by_cases hq : q = log.length
    · subst q
      refine .free (by simpa using hseq) ?_ (.inr ⟨v, rfl⟩)
      exact (hi.construct_free hp).1
    · have hne : cap.index q ≠ cap.index log.length := cap.index_ne hq (by omega) (by omega)
      refine (hi.slot q hle hlt).keep (cap.get_set_of_ne _ _ hne) rfl (fun _ _ => rfl)
        (fun _ _ _ h => h) ?_
      intro w hw
      rw [hp] at hw
      cases hw

/-- The sequence store `t + 1` makes position `t` claimable. -/
theorem Inv.produce (hi : Inv cap.toCapacity log s) {v : T} {t : Nat}
    (hp : s.producer = .storeSeq v t) :
    Inv cap.toCapacity (log ++ [v])
      ((s.storeSeq cap.toCapacity t (t + 1)).atProducer (.storeTail v t)) := by
  have hroom := hi.store_seq_lt hp
  have hprod := hi.producer
  rw [hp] at hprod
  obtain ⟨rfl, htail, hseq, hstore⟩ := hprod
  have hlen : (log ++ [v]).length = log.length + 1 := List.length_append
  refine ⟨?_, ?_, ?_, ?_, hi.alone, ?_⟩
  · rw [hlen]
    exact Nat.le_succ_of_le hi.head_le
  · rw [hlen]
    exact hroom
  · exact ⟨hlen.symm, htail, by simp⟩
  · intro i
    have hne : ∀ p, held (s.consumers i) = some p → cap.index p ≠ cap.index log.length := by
      intro p hheld
      obtain ⟨_, _, hfull⟩ := held_ok (hi.consumer i) hheld
      exact (free_ne_used hseq hfull).symm
    have hgrown : ConsumerOk cap.toCapacity s (log ++ [v]) (s.consumers i) := by
      refine (hi.consumer i).grow v hi.head_le ?_
      intro p hheld he
      exact hne p hheld (by rw [he, cap.index_add_size])
    exact hgrown.keep (Nat.le_refl _) (fun p hheld => cap.get_set_of_ne _ _ (hne p hheld))
  · intro q hle hlt
    rw [hlen] at hle hlt
    by_cases hq : q = log.length + cap.size
    · subst q
      refine .full log.length rfl ?_ hi.head_le ?_
      · simp [seq_store_seq]
      · have hsame : s.storage cap.toCapacity (log.length + cap.size) =
            s.storage cap.toCapacity log.length := by
          simp only [State.storage, cap.get_congr _ (cap.index_add_size log.length)]
        simp [hsame, hstore]
    · have hne : cap.index q ≠ cap.index log.length :=
        cap.index_ne (by omega) (by omega) (by omega)
      refine (hi.slot q (by omega) (by omega)).keep (cap.get_set_of_ne _ _ hne) rfl ?_
        (fun _ _ _ h => h) ?_
      · intro p hqp
        exact List.getElem?_append_left (by omega)
      · intro w hw
        rw [hp] at hw
        cases hw
        exact absurd rfl hne

theorem Inv.store_tail (hi : Inv cap.toCapacity log s) {v : T} {t : Nat}
    (hp : s.producer = .storeTail v t) :
    Inv cap.toCapacity log ({ s with tail := t + 1 }.atProducer (.notifyAll v t)) := by
  have hprod := hi.producer
  rw [hp] at hprod
  exact hi.rewire rfl rfl (fun _ => rfl) ⟨hprod.1, hprod.1, hprod.2.2⟩
    (fun i => consumer_ok_congr rfl rfl (hi.consumer i)) (by simp [hp])

/-- The successful compare-exchange: `head_` still equals the local `h`, so the
item at `h` is unclaimed and becomes this consumer's alone. -/
theorem Inv.claim (hi : Inv cap.toCapacity log s) {i : Fin n} {call : PopCall} {h : Nat}
    (hc : s.consumers i = .cas call h) (hhead : s.head = h) :
    Inv cap.toCapacity log ({ s with head := h + 1 }.atConsumer i (.moveOut h)) := by
  subst h
  have hlt : s.head < log.length := by
    have hok := hi.consumer i
    rw [hc] at hok
    exact hok.2
  have hlen := hi.len_le
  obtain ⟨hseq, hstore⟩ := hi.unclaimed (Nat.le_refl _) hlt
  have hnew : ∀ j, held (s.consumers j) ≠ some s.head := by
    intro j hj
    have := (held_ok (hi.consumer j) hj).1
    omega
  have hold : held (s.consumers i) = none := by simp [hc, held]
  refine ⟨hlt, ?_, ?_, ?_, ?_, ?_⟩
  · simp only [head_at_consumer]
    omega
  · exact producer_ok_congr (s := s) rfl rfl hi.producer
  · intro j
    by_cases hj : j = i
    · simp only [hj, consumers_at_consumer, ↓reduceIte]
      exact ⟨Nat.lt_succ_self _, hlen, hseq, hstore⟩
    · simp only [consumers_at_consumer, hj, ↓reduceIte]
      exact (hi.consumer j).keep (Nat.le_succ _) (fun _ _ => rfl)
  · intro j k p hj hk
    simp only [consumers_at_consumer] at hj hk
    split at hj <;> split at hk
    · subst_vars
      rfl
    · cases hj
      exact absurd hk (hnew k)
    · cases hk
      exact absurd hj (hnew j)
    · exact hi.alone j k p hj hk
  · intro q hle hq
    cases hi.slot q hle hq with
    | free h1 h2 h3 => exact .free h1 (by simp only [head_at_consumer]; omega) h3
    | full p h1 h2 h3 h4 =>
      by_cases hp : p = s.head
      · subst p
        exact .taken s.head i h1 h2 (Nat.lt_succ_self _) (by simp [held])
      · exact .full p h1 h2 (by simp only [head_at_consumer]; omega) h4
    | taken p j h1 h2 h3 h4 =>
      refine .taken p j h1 h2 (Nat.lt_succ_of_lt h3) ?_
      have hj : j ≠ i := by
        rintro rfl
        rw [hold] at h4
        cases h4
      simpa [hj] using h4

/-- The claimed item leaves its slot, which stays this consumer's. -/
theorem Inv.move_out (hi : Inv cap.toCapacity log s) {i : Fin n} {h : Nat} {v : T}
    (hc : s.consumers i = .moveOut h) (hstore : s.storage cap.toCapacity h = some v) :
    Inv cap.toCapacity log
      ((s.setStorage cap.toCapacity h none).atConsumer i (.storeSeq h v)) := by
  have hok := hi.consumer i
  rw [hc] at hok
  obtain ⟨hlt, hlen, hseq, hitem⟩ := hok
  have hhead := hi.head_le
  have hheld : held (s.consumers i) = some h := by simp [hc, held]
  have hheld' : ∀ j, held (((s.setStorage cap.toCapacity h none).atConsumer i
      (.storeSeq h v)).consumers j) = held (s.consumers j) := by
    intro j
    by_cases hj : j = i
    · rw [hj, hheld]
      simp [held]
    · simp [hj]
  refine ⟨hhead, hi.len_le, ?_, ?_, ?_, ?_⟩
  · refine hi.producer.keep rfl ?_
    intro t hfree
    exact cap.get_set_of_ne _ _ (free_ne_used hfree hseq)
  · intro j
    by_cases hj : j = i
    · subst j
      simp only [consumers_at_consumer, ↓reduceIte]
      refine ⟨hlt, hlen, by simpa using hseq, ?_, hitem ▸ hstore⟩
      simp [storage_set_storage]
    · simp only [consumers_at_consumer, hj, ↓reduceIte]
      refine (hi.consumer j).keep (Nat.le_refl _) ?_
      intro p hp
      exact cap.get_set_of_ne _ _ (hi.held_ne hj hp hheld)
  · intro j k p
    rw [hheld', hheld']
    exact hi.alone j k p
  · intro q hle hq
    by_cases he : cap.index q = cap.index h
    · obtain rfl : q = h + cap.size :=
        cap.index_inj (by rw [he, cap.index_add_size]) (by omega) (by omega)
      have hsame : s.seq cap.toCapacity (h + cap.size) = s.seq cap.toCapacity h := by
        simp only [State.seq, cap.get_congr _ he]
      exact .taken h i rfl (by simpa [hsame] using hseq) hlt ((hheld' i).trans hheld)
    · refine (hi.slot q hle hq).keep (cap.get_set_of_ne _ _ he) rfl (fun _ _ => rfl) ?_
        (fun _ hp => hp)
      intro j p _ hp
      exact (hheld' j).trans hp

/-- The release store `h + capacity_` hands the slot back to the producer. -/
theorem Inv.release (hi : Inv cap.toCapacity log s) {i : Fin n} {h : Nat} {v : T}
    (hc : s.consumers i = .storeSeq h v) :
    Inv cap.toCapacity log
      ((s.storeSeq cap.toCapacity h (h + cap.size)).atConsumer i (.notifyOne h v)) := by
  have hok := hi.consumer i
  rw [hc] at hok
  obtain ⟨hlt, hlen, hseq, hempty, hitem⟩ := hok
  have hhead := hi.head_le
  have hheld : held (s.consumers i) = some h := by simp [hc, held]
  refine ⟨hhead, hi.len_le, ?_, ?_, ?_, ?_⟩
  · refine hi.producer.keep rfl ?_
    intro t hfree
    exact cap.get_set_of_ne _ _ (free_ne_used hfree hseq)
  · intro j
    by_cases hj : j = i
    · subst j
      simp only [consumers_at_consumer, ↓reduceIte]
      exact ⟨hlt, hitem⟩
    · simp only [consumers_at_consumer, hj, ↓reduceIte]
      refine (hi.consumer j).keep (Nat.le_refl _) ?_
      intro p hp
      exact cap.get_set_of_ne _ _ (hi.held_ne hj hp hheld)
  · intro j k p hj hk
    have hback : ∀ m, held (((s.storeSeq cap.toCapacity h (h + cap.size)).atConsumer i
        (.notifyOne h v)).consumers m) = some p → held (s.consumers m) = some p := by
      intro m hm
      by_cases he : m = i
      · simp [he, held] at hm
      · simpa [he] using hm
    exact hi.alone j k p (hback j hj) (hback k hk)
  · intro q hle hq
    by_cases he : cap.index q = cap.index h
    · obtain rfl : q = h + cap.size :=
        cap.index_inj (by rw [he, cap.index_add_size]) (by omega) (by omega)
      refine .free (by simp [seq_store_seq]) ?_ (.inl ?_)
      · simp only [head_at_consumer, head_store_seq]
        omega
      · rw [storage_at_consumer, storage_store_seq, ← hempty]
        simp only [State.storage, cap.get_congr _ he]
    · refine (hi.slot q hle hq).keep (cap.get_set_of_ne _ _ he) rfl (fun _ _ => rfl) ?_
        (fun _ hp => hp)
      intro j p hqp hp
      have hj : j ≠ i := by
        rintro rfl
        rw [hheld] at hp
        cases hp
        exact he (by rw [hqp, cap.index_add_size])
      simpa [hj] using hp

theorem Inv.returned (hi : Inv cap.toCapacity log s) {i : Fin n} (hc : held (s.consumers i) = none) :
    Inv cap.toCapacity log (s.atConsumer i .idle) :=
  hi.at_consumer trivial hc.symm

/-- A claimed item is live when it is moved out. -/
theorem Inv.move_out_live (hi : Inv cap.toCapacity log s) {i : Fin n} {h : Nat}
    (hc : s.consumers i = .moveOut h) :
    ∃ v, s.storage cap.toCapacity h = some v ∧ log[h]? = some v := by
  have hok := hi.consumer i
  rw [hc] at hok
  have hlt : h < log.length := Nat.lt_of_lt_of_le hok.1 hi.head_le
  exact ⟨log[h], by rw [hok.2.2.2, List.getElem?_eq_getElem hlt], List.getElem?_eq_getElem hlt⟩

/-- A wakeup does not move the consumer that sends it. -/
theorem wake_notify_one {x : Waiter n} {i : Fin n} {p : Nat} {v : T}
    (hc : s.consumers i = .notifyOne p v) : (s.wake x).consumers i = .notifyOne p v := by
  cases x with
  | producer => exact hc
  | consumer j =>
    by_cases he : i = j
    · subst he
      simp [State.wake, hc, ConsumerPc.woken]
    · simp [State.wake, he, hc]

theorem move_inv (hi : Inv cap.toCapacity log s) (hm : Move cap.toCapacity s a s' es) :
    Inv cap.toCapacity (log ++ produced es) s' := by
  cases hm with
  | producer hm =>
    have hnone : produced es = [] := by cases hm <;> rfl
    simpa [hnone] using hi.producer_move hm
  | consumer hm =>
    have hnone : produced es = [] := by cases hm <;> rfl
    simpa [hnone] using hi.consumer_move hm
  | construct hp => simpa [produced] using hi.construct hp
  | produce hp => exact hi.produce hp
  | storeTail hp => simpa [produced] using hi.store_tail hp
  | @notifyAll v t hp =>
    have hprod := hi.producer
    rw [hp] at hprod
    have hidle : Inv cap.toCapacity log ((s.wakeAll cap.toCapacity t).atProducer .idle) :=
      (hi.wake_all t).at_producer hprod.2.1 (by simp [State.wakeAll, hp, ProducerPc.woken])
    simpa [produced] using hidle
  | claim hc hhead => simpa [produced] using hi.claim hc hhead
  | moveOut hc hstore => simpa [produced] using hi.move_out hc hstore
  | undefined hc hstore =>
    obtain ⟨v, hv, _⟩ := hi.move_out_live hc
    rw [hstore] at hv
    cases hv
  | release hc => simpa [produced] using hi.release hc
  | notifyNobody hc _ => simpa [produced] using hi.returned (by simp [hc, held])
  | @notify i h v x hc _ =>
    have hheld : held ((s.wake x).consumers i) = none := by
      rw [wake_notify_one hc]
      rfl
    simpa [produced] using (hi.wake x).returned hheld
  | wake => simpa [produced] using hi.wake _

theorem run_inv {tr : List (Event n T)} (hr : (machine n T none cap.toCapacity).Run tr s) :
    Inv cap.toCapacity (produced tr) s := by
  refine Machine.Run.invariant (I := fun tr s => Inv cap.toCapacity (produced tr) s)
    initial_inv ?_ hr
  intro tr s a s' es _ hi hs
  have hnext := move_inv hi (step_moves hs)
  rwa [produced, List.filterMap_append]

end Toolbox.Proofs.SpmcSlots
