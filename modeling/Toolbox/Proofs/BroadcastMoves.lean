import Toolbox.Broadcast

namespace Toolbox.Proofs.BroadcastMoves
open Base Broadcast

variable {n : Nat} {T : Type*} {cap : Capacity} {s s' : State n T} {a : Act n T}
  {es : List (Event n T)}

section Fields

variable (cap : Capacity) (s : State n T) (pc : ProducerPc n T) (i : Fin (n + 1))
  (stack : List (Frame T))

@[simp] theorem tail_at_producer : (s.atProducer pc).tail = s.tail := rfl
@[simp] theorem cursors_at_producer : (s.atProducer pc).cursors = s.cursors := rfl
@[simp] theorem consumers_at_producer : (s.atProducer pc).consumers = s.consumers := rfl
@[simp] theorem producer_at_producer : (s.atProducer pc).producer = pc := rfl
@[simp] theorem item_at_producer (p : Nat) : (s.atProducer pc).item cap p = s.item cap p := rfl
@[simp] theorem tail_at_consumer : (s.atConsumer i stack).tail = s.tail := rfl
@[simp] theorem cursors_at_consumer : (s.atConsumer i stack).cursors = s.cursors := rfl
@[simp] theorem producer_at_consumer : (s.atConsumer i stack).producer = s.producer := rfl
@[simp] theorem item_at_consumer (p : Nat) :
    (s.atConsumer i stack).item cap p = s.item cap p := rfl

@[simp] theorem consumers_at_consumer (j : Fin (n + 1)) :
    (s.atConsumer i stack).consumers j = if j = i then stack else s.consumers j := by
  simp [State.atConsumer, Function.update_apply]

@[simp] theorem consumers_set_cursor (pos : Nat) :
    (s.setCursor i pos).consumers = s.consumers := rfl

theorem cursors_set_cursor (pos : Nat) (j : Fin (n + 1)) :
    (s.setCursor i pos).cursors j = if j = i then pos else s.cursors j := by
  simp [State.setCursor, Function.update_apply]

theorem item_set_item (p q : Nat) (v : T) : (s.setItem cap p v).item cap q =
    if cap.index q = cap.index p then v else s.item cap q := by
  simp only [State.item, State.setItem, cap.get_set]

end Fields

/-- The producer's steps that change nothing but its own program counter. -/
inductive ProducerMove (cap : Capacity) (s : State n T) :
    ProducerPc n T → List (Event n T) → Prop
  | call {arg} (hp : s.producer = .idle) : ProducerMove cap s (.loadTail arg) []
  | rescan {arg} (hp : s.producer = .loadTail arg) (hfull : cap.size ≤ s.tail - s.cachedMin) :
      ProducerMove cap s (.scan arg s.tail 0 0) []
  | room {arg} (hp : s.producer = .loadTail arg) (hroom : s.tail - s.cachedMin < cap.size) :
      ProducerMove cap s (.construct arg s.tail) []
  | next {arg t i least} (hp : s.producer = .scan arg t i least) (h : i.val + 1 < n + 1) :
      ProducerMove cap s (.scan arg t ⟨i.val + 1, h⟩ (scanLeast i least (s.cursors i))) []
  | threw {t} (hp : s.producer = .construct none t) : ProducerMove cap s .idle [.threw]
  | build {v t} (hp : s.producer = .construct (some v) t) : ProducerMove cap s (.assign v t) []

/-- A consumer's steps that change nothing but its own activations. -/
inductive ConsumerMove (cap : Capacity) (s : State n T) (i : Fin (n + 1)) :
    List (Frame T) → List (Event n T) → Prop
  | call {call} (hc : s.consumers i = []) : ConsumerMove cap s i [.loadCursor call] []
  | loadCursor {call rest} (hc : s.consumers i = .loadCursor call :: rest) :
      ConsumerMove cap s i (.loadTail call (s.cursors i) :: rest) []
  | nothing {call pos rest} (hc : s.consumers i = .loadTail call pos :: rest)
      (hle : s.tail ≤ pos) : ConsumerMove cap s i rest [.nothing i]
  | found {call pos rest} (hc : s.consumers i = .loadTail call pos :: rest)
      (hlt : pos < s.tail) : ConsumerMove cap s i (.enter call pos :: rest) []
  | enter {call pos rest} (hc : s.consumers i = .enter call pos :: rest) :
      ConsumerMove cap s i (.callback call pos :: rest) [.entered i pos (s.item cap pos)]
  | threw {call pos rest} (hc : s.consumers i = .callback call pos :: rest) :
      ConsumerMove cap s i rest [.callbackThrew i pos]

/-- Everything an atomic step can do to a queue with unbounded counters. -/
inductive Move (cap : Capacity) (s : State n T) :
    Act n T → State n T → List (Event n T) → Prop
  | producer {a pc es} (hm : ProducerMove cap s pc es) : Move cap s a (s.atProducer pc) es
  | full {arg t i least} (hp : s.producer = .scan arg t i least) (hi : i.val = n)
      (hfull : cap.size ≤ t - scanLeast i least (s.cursors i)) :
      Move cap s .producer
        ({ s with cachedMin := scanLeast i least (s.cursors i) }.atProducer .idle) [.full]
  | scanned {arg t i least} (hp : s.producer = .scan arg t i least) (hi : i.val = n)
      (hroom : t - scanLeast i least (s.cursors i) < cap.size) :
      Move cap s .producer
        ({ s with cachedMin := scanLeast i least (s.cursors i) }.atProducer (.construct arg t)) []
  | assign {v t} (hp : s.producer = .assign v t) :
      Move cap s .producer ((s.setItem cap t v).atProducer (.storeTail v t)) []
  | publish {v t} (hp : s.producer = .storeTail v t) :
      Move cap s .producer ({ s with tail := t + 1 }.atProducer .idle) [.published v]
  | consumer {a i stack es} (hm : ConsumerMove cap s i stack es) :
      Move cap s a (s.atConsumer i stack) es
  | nested {i call pos rest} (hc : s.consumers i = .callback .tryConsume pos :: rest) :
      Move cap s (.consume i call)
        (s.atConsumer i (.loadCursor call :: .callback .tryConsume pos :: rest)) []
  | deliver {i call pos rest} (hc : s.consumers i = .callback call pos :: rest) :
      Move cap s (.consumer i) (s.atConsumer i (.storeCursor call pos (s.item cap pos) :: rest))
        [.delivered i pos (s.item cap pos)]
  | consumed {i call pos v rest} (hc : s.consumers i = .storeCursor call pos v :: rest) :
      Move cap s (.consumer i) ((s.setCursor i (pos + 1)).atConsumer i rest)
        [.consumed i pos v]

theorem looks_full_none (t c : Nat) : looksFull none cap t c = true ↔ cap.size ≤ t - c := by
  unfold looksFull
  exact decide_eq_true_iff

theorem producer_moves (hs : stepProducer none cap s = some (s', es)) :
    Move cap s .producer s' es := by
  cases hp : s.producer with
  | idle => simp [stepProducer, hp] at hs
  | loadTail arg =>
    simp only [stepProducer, hp] at hs
    by_cases hfull : looksFull none cap s.tail s.cachedMin = true
    all_goals
      simp only [hfull, ↓reduceIte, Option.some.injEq, Prod.mk.injEq] at hs
      obtain ⟨rfl, rfl⟩ := hs
      rw [looks_full_none] at hfull
    · exact .producer (.rescan hp hfull)
    · exact .producer (.room hp (Nat.lt_of_not_le hfull))
  | scan arg t i least =>
    simp only [stepProducer, hp] at hs
    by_cases h : i.val + 1 < n + 1
    · simp only [h, ↓reduceDIte, Option.some.injEq, Prod.mk.injEq] at hs
      obtain ⟨rfl, rfl⟩ := hs
      exact .producer (.next hp h)
    · have hlast : i.val = n := by omega
      simp only [h, ↓reduceDIte] at hs
      by_cases hfull : looksFull none cap t (scanLeast i least (s.cursors i)) = true
      all_goals
        simp only [hfull, ↓reduceIte, Option.some.injEq, Prod.mk.injEq] at hs
        obtain ⟨rfl, rfl⟩ := hs
        rw [looks_full_none] at hfull
      · exact .full hp hlast hfull
      · exact .scanned hp hlast (Nat.lt_of_not_le hfull)
  | construct arg t =>
    cases arg
    all_goals
      simp only [stepProducer, hp, Option.some.injEq, Prod.mk.injEq] at hs
      obtain ⟨rfl, rfl⟩ := hs
    · exact .producer (.threw hp)
    · exact .producer (.build hp)
  | assign v t =>
    simp only [stepProducer, hp, Option.some.injEq, Prod.mk.injEq] at hs
    obtain ⟨rfl, rfl⟩ := hs
    exact .assign hp
  | storeTail v t =>
    simp only [stepProducer, hp, Option.some.injEq, Prod.mk.injEq] at hs
    obtain ⟨rfl, rfl⟩ := hs
    exact .publish hp

theorem consumer_moves {i : Fin (n + 1)} (hs : stepConsumer none cap s i = some (s', es)) :
    Move cap s (.consumer i) s' es := by
  unfold stepConsumer at hs
  split at hs
  · cases hs
  · rename_i call rest hc
    simp only [Option.some.injEq, Prod.mk.injEq] at hs
    obtain ⟨rfl, rfl⟩ := hs
    exact .consumer (.loadCursor hc)
  · rename_i call pos rest hc
    split at hs
    all_goals
      rename_i hle
      simp only [Option.some.injEq, Prod.mk.injEq] at hs
      obtain ⟨rfl, rfl⟩ := hs
    · exact .consumer (.nothing hc hle)
    · exact .consumer (.found hc (Nat.lt_of_not_le hle))
  · rename_i call pos rest hc
    simp only [Option.some.injEq, Prod.mk.injEq] at hs
    obtain ⟨rfl, rfl⟩ := hs
    exact .consumer (.enter hc)
  · rename_i call pos rest hc
    simp only [Option.some.injEq, Prod.mk.injEq] at hs
    obtain ⟨rfl, rfl⟩ := hs
    exact .deliver hc
  · rename_i call pos v rest hc
    simp only [Option.some.injEq, Prod.mk.injEq] at hs
    obtain ⟨rfl, rfl⟩ := hs
    exact .consumed hc

/-- The one place where the step function is taken apart. -/
theorem step_moves (hs : step none cap s a = some (s', es)) : Move cap s a s' es := by
  cases a with
  | producer => exact producer_moves hs
  | consumer i => exact consumer_moves hs
  | publish arg =>
    simp only [step] at hs
    split at hs
    · rename_i hp
      cases hs
      exact .producer (.call hp)
    · cases hs
  | consume i call =>
    simp only [step] at hs
    split at hs
    · rename_i hc
      cases hs
      exact .consumer (.call hc)
    · rename_i pos rest hc
      cases hs
      exact .nested hc
    · cases hs
  | throws i =>
    simp only [step] at hs
    split at hs
    · rename_i call pos rest hc
      cases hs
      exact .consumer (.threw hc)
    · cases hs

end Toolbox.Proofs.BroadcastMoves
