import Toolbox.Spmc

namespace Toolbox.Proofs.SpmcMoves
open Base Spmc

variable {n : Nat} {T : Type*} {cap : Capacity} {s s' : State n T} {a : Act n T}
  {es : List (Event n T)}

/-- The producer's steps that change nothing but its own program counter. -/
inductive ProducerMove (cap : Capacity) (s : State n T) :
    ProducerPc T → List (Event n T) → Prop
  | call {call arg} (hp : s.producer = .idle) : ProducerMove cap s (.loadTail call arg) []
  | loadTail {call arg} (hp : s.producer = .loadTail call arg) :
      ProducerMove cap s (.loadSeq call arg s.tail) []
  | free {call arg t} (hp : s.producer = .loadSeq call arg t) (hseq : s.seq cap t = t) :
      ProducerMove cap s (.construct arg t) []
  | full {arg t} (hp : s.producer = .loadSeq .tryEmplace arg t) (hseq : s.seq cap t ≠ t) :
      ProducerMove cap s .idle [.rejected]
  | block {arg t} (hp : s.producer = .loadSeq .emplaceWait arg t) (hseq : s.seq cap t ≠ t) :
      ProducerMove cap s (.wait arg t (s.seq cap t)) []
  | park {arg t old} (hp : s.producer = .wait arg t old) (hseq : s.seq cap t = old) :
      ProducerMove cap s (.parked arg t old) []
  | changed {arg t old} (hp : s.producer = .wait arg t old) (hseq : s.seq cap t ≠ old) :
      ProducerMove cap s (.loadSeq .emplaceWait arg t) []
  | threw {t} (hp : s.producer = .construct none t) : ProducerMove cap s .idle [.threw]

/-- The consumers' steps that change nothing but the consumer's program counter. -/
inductive ConsumerMove (cap : Capacity) (s : State n T) (i : Fin n) :
    ConsumerPc T → List (Event n T) → Prop
  | call {call} (hc : s.consumers i = .idle) :
      ConsumerMove cap s i (.loadHead call) [.called i call]
  | loadHead {call} (hc : s.consumers i = .loadHead call) :
      ConsumerMove cap s i (.loadSeq call s.head) []
  | ready {call h} (hc : s.consumers i = .loadSeq call h) (hseq : s.seq cap h = h + 1) :
      ConsumerMove cap s i (.cas call h) [.looked i h]
  | empty {h} (hc : s.consumers i = .loadSeq .tryPop h) (hseq : s.seq cap h < h + 1) :
      ConsumerMove cap s i .idle [.looked i h, .empty i]
  | block {h} (hc : s.consumers i = .loadSeq .popWait h) (hseq : s.seq cap h < h + 1) :
      ConsumerMove cap s i (.wait h (s.seq cap h)) [.looked i h]
  | stale {call h} (hc : s.consumers i = .loadSeq call h) (hseq : h + 1 < s.seq cap h) :
      ConsumerMove cap s i (.reload call h) [.looked i h]
  | reload {call h} (hc : s.consumers i = .reload call h) :
      ConsumerMove cap s i (.loadSeq call s.head) []
  | park {h old} (hc : s.consumers i = .wait h old) (hseq : s.seq cap h = old) :
      ConsumerMove cap s i (.parked h old) []
  | changed {h old} (hc : s.consumers i = .wait h old) (hseq : s.seq cap h ≠ old) :
      ConsumerMove cap s i (.loadSeq .popWait h) []
  | lost {call h} (hc : s.consumers i = .cas call h) (hhead : s.head ≠ h) :
      ConsumerMove cap s i (.loadSeq call s.head) [.casFailed i false]
  | spurious {call h} (hc : s.consumers i = .cas call h) (hhead : s.head = h) :
      ConsumerMove cap s i (.loadSeq call s.head) [.casFailed i true]

/-- Everything an atomic step can do to a queue with unbounded counters. -/
inductive Move (cap : Capacity) (s : State n T) :
    Act n T → State n T → List (Event n T) → Prop
  | producer {a pc es} (hm : ProducerMove cap s pc es) : Move cap s a (s.atProducer pc) es
  | construct {v t} (hp : s.producer = .construct (some v) t) :
      Move cap s .producer ((s.setStorage cap t (some v)).atProducer (.storeSeq v t))
        [.constructed v]
  | produce {v t} (hp : s.producer = .storeSeq v t) :
      Move cap s .producer ((s.storeSeq cap t (t + 1)).atProducer (.storeTail v t)) [.produced v]
  | storeTail {v t} (hp : s.producer = .storeTail v t) :
      Move cap s .producer ({ s with tail := t + 1 }.atProducer (.notifyAll v t)) []
  | notifyAll {v t} (hp : s.producer = .notifyAll v t) :
      Move cap s .producer ((s.wakeAll cap t).atProducer .idle) [.accepted v]
  | consumer {a i pc es} (hm : ConsumerMove cap s i pc es) : Move cap s a (s.atConsumer i pc) es
  | claim {i call h} (hc : s.consumers i = .cas call h) (hhead : s.head = h) :
      Move cap s (.consumer i) ({ s with head := h + 1 }.atConsumer i (.moveOut h))
        [.claimed i h]
  | moveOut {i h v} (hc : s.consumers i = .moveOut h) (hstore : s.storage cap h = some v) :
      Move cap s (.consumer i) ((s.setStorage cap h none).atConsumer i (.storeSeq h v))
        [.destroyed i h]
  | undefined {i h} (hc : s.consumers i = .moveOut h) (hstore : s.storage cap h = none) :
      Move cap s (.consumer i) (s.atConsumer i .idle) [.undefined i]
  | release {i h v} (hc : s.consumers i = .storeSeq h v) :
      Move cap s (.consumer i)
        ((s.storeSeq cap h (h + cap.size)).atConsumer i (.notifyOne h v)) []
  | notifyNobody {i h v} (hc : s.consumers i = .notifyOne h v)
      (hnone : ∀ x, ¬ s.ParkedOn cap h x) :
      Move cap s (.notifyOne i none) (s.atConsumer i .idle) [.popped i h v]
  | notify {i h v x} (hc : s.consumers i = .notifyOne h v) (hx : s.ParkedOn cap h x) :
      Move cap s (.notifyOne i (some x)) ((s.wake x).atConsumer i .idle) [.popped i h v]
  | wake {x} : Move cap s (.spurious x) (s.wake x) []

theorem producer_moves (hs : stepProducer none cap s = some (s', es)) :
    Move cap s .producer s' es := by
  cases hp : s.producer with
  | idle | parked => simp [stepProducer, hp] at hs
  | loadTail call arg =>
    simp only [stepProducer, hp, Option.some.injEq, Prod.mk.injEq] at hs
    obtain ⟨rfl, rfl⟩ := hs
    exact .producer (.loadTail hp)
  | loadSeq call arg t =>
    simp only [stepProducer, hp] at hs
    by_cases hseq : s.seq cap t = t
    · simp only [hseq, ↓reduceIte, Option.some.injEq, Prod.mk.injEq] at hs
      obtain ⟨rfl, rfl⟩ := hs
      exact .producer (.free hp hseq)
    · simp only [hseq, ↓reduceIte] at hs
      cases call
      all_goals
        simp only [Option.some.injEq, Prod.mk.injEq] at hs
        obtain ⟨rfl, rfl⟩ := hs
      · exact .producer (.full hp hseq)
      · exact .producer (.block hp hseq)
  | wait arg t old =>
    simp only [stepProducer, hp] at hs
    split at hs
    all_goals
      rename_i hseq
      simp only [Option.some.injEq, Prod.mk.injEq] at hs
      obtain ⟨rfl, rfl⟩ := hs
    · exact .producer (.park hp hseq)
    · exact .producer (.changed hp hseq)
  | construct arg t =>
    cases arg
    all_goals
      simp only [stepProducer, hp, Option.some.injEq, Prod.mk.injEq] at hs
      obtain ⟨rfl, rfl⟩ := hs
    · exact .producer (.threw hp)
    · exact .construct hp
  | storeSeq v t =>
    simp only [stepProducer, hp, Option.some.injEq, Prod.mk.injEq] at hs
    obtain ⟨rfl, rfl⟩ := hs
    exact .produce hp
  | storeTail v t =>
    simp only [stepProducer, hp, Option.some.injEq, Prod.mk.injEq] at hs
    obtain ⟨rfl, rfl⟩ := hs
    exact .storeTail hp
  | notifyAll v t =>
    simp only [stepProducer, hp, Option.some.injEq, Prod.mk.injEq] at hs
    obtain ⟨rfl, rfl⟩ := hs
    exact .notifyAll hp

theorem consumer_moves {i : Fin n} (hs : stepConsumer none cap s i = some (s', es)) :
    Move cap s (.consumer i) s' es := by
  cases hc : s.consumers i with
  | idle | parked | notifyOne => simp [stepConsumer, hc] at hs
  | loadHead call =>
    simp only [stepConsumer, hc, Option.some.injEq, Prod.mk.injEq] at hs
    obtain ⟨rfl, rfl⟩ := hs
    exact .consumer (.loadHead hc)
  | loadSeq call h =>
    simp only [stepConsumer, hc, Width.wrap_none] at hs
    cases hd : Width.diff none (s.seq cap h) (h + 1) with
    | zero =>
      simp only [hd, Option.some.injEq, Prod.mk.injEq] at hs
      obtain ⟨rfl, rfl⟩ := hs
      exact .consumer (.ready hc ((Width.diff_zero _ _).mp hd))
    | negative =>
      simp only [hd] at hs
      have hlt := (Width.diff_negative _ _).mp hd
      cases call
      all_goals
        simp only [Option.some.injEq, Prod.mk.injEq] at hs
        obtain ⟨rfl, rfl⟩ := hs
      · exact .consumer (.empty hc hlt)
      · exact .consumer (.block hc hlt)
    | positive =>
      simp only [hd, Option.some.injEq, Prod.mk.injEq] at hs
      obtain ⟨rfl, rfl⟩ := hs
      exact .consumer (.stale hc ((Width.diff_positive _ _).mp hd))
  | reload call h =>
    simp only [stepConsumer, hc, Option.some.injEq, Prod.mk.injEq] at hs
    obtain ⟨rfl, rfl⟩ := hs
    exact .consumer (.reload hc)
  | wait h old =>
    simp only [stepConsumer, hc] at hs
    split at hs
    all_goals
      rename_i hseq
      simp only [Option.some.injEq, Prod.mk.injEq] at hs
      obtain ⟨rfl, rfl⟩ := hs
    · exact .consumer (.park hc hseq)
    · exact .consumer (.changed hc hseq)
  | cas call h =>
    simp only [stepConsumer, hc] at hs
    split at hs
    all_goals
      rename_i hhead
      simp only [Option.some.injEq, Prod.mk.injEq] at hs
      obtain ⟨rfl, rfl⟩ := hs
    · exact .claim hc hhead
    · exact .consumer (.lost hc hhead)
  | moveOut h =>
    simp only [stepConsumer, hc] at hs
    split at hs
    all_goals
      rename_i hstore
      simp only [Option.some.injEq, Prod.mk.injEq] at hs
      obtain ⟨rfl, rfl⟩ := hs
    · exact .moveOut hc hstore
    · exact .undefined hc hstore
  | storeSeq h v =>
    simp only [stepConsumer, hc, Option.some.injEq, Prod.mk.injEq] at hs
    obtain ⟨rfl, rfl⟩ := hs
    exact .release hc

theorem notify_one_moves {i : Fin n} {woken : Option (Waiter n)}
    (hs : stepNotifyOne cap s i woken = some (s', es)) :
    Move cap s (.notifyOne i woken) s' es := by
  unfold stepNotifyOne at hs
  split at hs
  · rename_i h v hc
    cases woken with
    | some x =>
      simp only at hs
      split at hs
      · rename_i hx
        simp only [Option.some.injEq, Prod.mk.injEq] at hs
        obtain ⟨rfl, rfl⟩ := hs
        exact .notify hc hx
      · cases hs
    | none =>
      simp only at hs
      split at hs
      · cases hs
      · rename_i hnone
        simp only [Option.some.injEq, Prod.mk.injEq] at hs
        obtain ⟨rfl, rfl⟩ := hs
        refine .notifyNobody hc ?_
        intro x hx
        cases x with
        | producer => exact hnone (.inl hx)
        | consumer j => exact hnone (.inr ⟨j, hx⟩)
  · cases hs

/-- The one place where the step function is taken apart. -/
theorem step_moves (hs : step none cap s a = some (s', es)) : Move cap s a s' es := by
  cases a with
  | producer => exact producer_moves hs
  | consumer i => exact consumer_moves hs
  | notifyOne i woken => exact notify_one_moves hs
  | emplace call arg =>
    simp only [step] at hs
    split at hs
    · rename_i hp
      cases hs
      exact .producer (.call hp)
    · cases hs
  | pop i call =>
    simp only [step] at hs
    split at hs
    · rename_i hc
      cases hs
      exact .consumer (.call hc)
    · cases hs
  | casFails i =>
    simp only [step] at hs
    split at hs
    · rename_i call h hc
      split at hs
      · rename_i hhead
        cases hs
        exact .consumer (.spurious hc hhead)
      · cases hs
    · cases hs
  | spurious x =>
    simp only [step] at hs
    split at hs
    · cases hs
      exact .wake
    · cases hs

end Toolbox.Proofs.SpmcMoves
