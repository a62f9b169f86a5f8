import Toolbox.Proofs.BenchmarkThreads
import Toolbox.Proofs.BroadcastFanout

namespace Toolbox.Proofs.BenchmarkFan
open Base Latency Benchmark BenchmarkThreads Broadcast BroadcastMoves BroadcastCursors
open BroadcastFanout
open Tsc (Item)

variable {n : Nat} {p : Plan (n + 1)} {cap : RingCapacity} {k k' : FanState n}
  {s s' : Broadcast.State n Item} {tr es : List (Shown n Item ⊕ Benchmark.Event (n + 1))}
  {made log : List Item} {es' : List (Broadcast.Event n Item)}

/-- The queue's own events among what the threads see. -/
def seen (ds : List (Shown n Item)) : List (Broadcast.Event n Item) :=
  ds.filterMap (fun | .seen e => some e | _ => none)

@[simp] theorem seen_append (ds fs : List (Shown n Item)) : seen (ds ++ fs) = seen ds ++ seen fs :=
  List.filterMap_append

@[simp] theorem seen_map (es : List (Broadcast.Event n Item)) : seen (es.map .seen) = es := by
  induction es with
  | nil => rfl
  | cons e es ih => simp [seen]

/-- A call of the producer that is in progress is for the item in its hand. -/
def InCall (item : Item) : Broadcast.ProducerPc n Item → Prop
  | .idle => True
  | .loadTail arg | .scan arg _ _ _ | .construct arg _ => arg = some item
  | .assign v _ | .storeTail v _ => v = item

/-- The queue has the items `log`, and no publish is in progress. -/
def Resting (log : List Item) (q : Broadcast.ProducerPc n Item) (l : List Item) : Prop :=
  log = l ∧ q = .idle

def Putting (log : List Item) (q : Broadcast.ProducerPc n Item) (before : List Item)
    (item : Item) : Prop := log = before ∧ InCall item q

theorem log_first {q : Broadcast.ProducerPc n Item} {pc : Benchmark.ProducerPc}
    (h : Making p made (Resting log q) (Putting log q) pc) : log <+: made := by
  refine h.first ?_ ?_
  · rintro l ⟨rfl, _⟩
    exact List.prefix_refl _
  · rintro before item ⟨rfl, _⟩
    exact List.prefix_append _ _

/-- A call of the queue finds the producer in its loop. -/
theorem making_calling {q : Broadcast.ProducerPc n Item} {pc : Benchmark.ProducerPc}
    (h : Making p made (Resting log q) (Putting log q) pc) (hq : q ≠ .idle) :
    ∃ i item, pc = .put i item ∧ i < p.total ∧ made = log ++ [item] ∧ log.length = i ∧
      InCall item q := by
  obtain ⟨i, item, before, hpc, hlt, hmade, hlen, rfl, hcall⟩ := h.calling (fun l hl => hq hl.2)
  exact ⟨i, item, hpc, hlt, hmade, hlen, hcall⟩

/-- The activations of a consumer that has called the queue or is about to. -/
def Calling : List (Frame Item) → Prop
  | [] | [.loadCursor .tryConsume] | [.loadTail .tryConsume _] | [.enter .tryConsume _] => True
  | _ => False

/-- What a consumer is done with, its cursor and its activations, at each place of
its loop. -/
def Place (p : Plan (n + 1)) (log : List Item) (c : Nat) (stack : List (Frame Item))
    (done : List Item) : FanPc → Prop
  | .waitGo => c = 0 ∧ done = [] ∧ stack = []
  | .poll k => k < p.total ∧ c = k ∧ done = log.take k ∧ Calling stack
  | .callback k | .reading k _ => k < p.total ∧ c = k ∧ done = log.take k ∧ k < log.length ∧
    stack = [.callback .tryConsume k]
  | .count k item _ => k < p.total ∧ c = k ∧ done = log.take k ∧ log[k]? = some item ∧
    stack = [.storeCursor .tryConsume k item]
  | .returning k => k < p.total ∧ c = k ∧ done = log.take (k + 1) ∧ k < log.length ∧
    ∃ v, stack = [.storeCursor .tryConsume k v]
  | .finished => c = p.total ∧ done = log.take p.total ∧ stack = []

theorem Place.grow {c : Nat} {stack : List (Frame Item)} {done more : List Item} {pc : FanPc}
    (h : Place p log c stack done pc) (hle : c ≤ log.length) :
    Place p (log ++ more) c stack done pc := by
  cases pc with
  | waitGo => exact h
  | poll k =>
    obtain ⟨hlt, rfl, hdone, hcalling⟩ := h
    exact ⟨hlt, rfl, by rw [List.take_append_of_le_length hle, hdone], hcalling⟩
  | callback k | reading k now =>
    obtain ⟨hlt, rfl, hdone, hlen, hstack⟩ := h
    refine ⟨hlt, rfl, by rw [List.take_append_of_le_length hle, hdone], ?_, hstack⟩
    rw [List.length_append]
    exact Nat.lt_add_right _ hlen
  | count k item now =>
    obtain ⟨hlt, rfl, hdone, hitem, hstack⟩ := h
    refine ⟨hlt, rfl, by rw [List.take_append_of_le_length hle, hdone], ?_, hstack⟩
    rw [List.getElem?_append_left (List.getElem?_eq_some_iff.mp hitem).1, hitem]
  | returning k =>
    obtain ⟨hlt, rfl, hdone, hlen, hstack⟩ := h
    refine ⟨hlt, rfl, by rw [List.take_append_of_le_length hlen, hdone], ?_, hstack⟩
    rw [List.length_append]
    exact Nat.lt_add_right _ hlen
  | finished =>
    obtain ⟨rfl, hdone, hstack⟩ := h
    exact ⟨rfl, by rw [List.take_append_of_le_length hle, hdone], hstack⟩

theorem place_head {c : Nat} {done : List Item} (hle : c ≤ p.total) (hdone : done = log.take c) :
    Place p log c [] done (fanHead p c) := by
  unfold fanHead
  split
  · rename_i hlt
    exact ⟨hlt, rfl, hdone, trivial⟩
  · obtain rfl : c = p.total := by omega
    exact ⟨rfl, hdone, rfl⟩

theorem Place.polling {c : Nat} {f : Frame Item} {rest : List (Frame Item)} {done : List Item}
    {pc : FanPc} (h : Place p log c (f :: rest) done pc)
    (hcall : ∀ call pos, f ≠ .callback call pos)
    (hstore : ∀ call pos v, f ≠ .storeCursor call pos v) :
    pc = .poll c ∧ c < p.total ∧ done = log.take c ∧ Calling (f :: rest) := by
  cases pc with
  | waitGo => cases h.2.2
  | poll k =>
    obtain ⟨hlt, rfl, hdone, hcalling⟩ := h
    exact ⟨rfl, hlt, hdone, hcalling⟩
  | callback k | reading k now => exact absurd (List.cons.inj h.2.2.2.2).1 (hcall _ _)
  | count k item now => exact absurd (List.cons.inj h.2.2.2.2).1 (hstore _ _ _)
  | returning k =>
    obtain ⟨v, hstack⟩ := h.2.2.2.2
    exact absurd (List.cons.inj hstack).1 (hstore _ _ _)
  | finished => cases h.2.2

theorem Calling.head {f : Frame Item} {rest : List (Frame Item)} (h : Calling (f :: rest)) :
    rest = [] ∧ (f = .loadCursor .tryConsume ∨ ∃ pos, f = .loadTail .tryConsume pos ∨
      f = .enter .tryConsume pos) := by
  cases rest with
  | nil =>
    cases f with
    | loadCursor call => cases call with
      | tryConsume => exact ⟨rfl, .inl rfl⟩
      | tryCopy => exact h.elim
    | loadTail call pos => cases call with
      | tryConsume => exact ⟨rfl, .inr ⟨pos, .inl rfl⟩⟩
      | tryCopy => exact h.elim
    | enter call pos => cases call with
      | tryConsume => exact ⟨rfl, .inr ⟨pos, .inr rfl⟩⟩
      | tryCopy => exact h.elim
    | callback | storeCursor => exact h.elim
  | cons g rest =>
    cases f with
    | loadCursor call | loadTail call _ | enter call _ => cases call <;> exact h.elim
    | callback | storeCursor => exact h.elim

/-- The program at work on the queue. -/
structure Inv (p : Plan (n + 1)) (tr : List (Shown n Item ⊕ Benchmark.Event (n + 1)))
    (k : FanState n) (s : Broadcast.State n Item) : Prop where
  main : MainOk p FanPc.exited (Client.told tr) k
  making : Making p (stamped (Client.told tr))
    (Resting (published (seen (Client.heard tr))) s.producer)
    (Putting (published (seen (Client.heard tr))) s.producer) k.producer
  payloads : (stamped (Client.told tr)).map Item.payload =
    (List.range (stamped (Client.told tr)).length).map payload
  place : ∀ i, Place p (published (seen (Client.heard tr))) (s.cursors i) (s.consumers i)
    ((countedBy i (Client.told tr)).map Prod.fst) (k.consumers i)
  samples : ∀ i, (k.recs i).samples = latencies p (countedBy i (Client.told tr))

/-- A step of the producer, the queue's part of it included. -/
theorem Inv.producer_side (h : Inv p tr k s) {pc : Benchmark.ProducerPc} {more pub : List Item}
    (hpc : k.producer = .finished → pc = .finished) (hstamped : stamped (Client.told es) = more)
    (hcounted : counted (Client.told es) = []) (hprinted : printed (Client.told es) = [])
    (hpub : published (seen (Client.heard es)) = pub)
    (hmaking : Making p (stamped (Client.told tr) ++ more)
      (Resting (published (seen (Client.heard tr)) ++ pub) s'.producer)
      (Putting (published (seen (Client.heard tr)) ++ pub) s'.producer) pc)
    (hpayloads : (stamped (Client.told tr) ++ more).map Item.payload =
      (List.range (stamped (Client.told tr) ++ more).length).map payload)
    (hbehind : ∀ i, s.cursors i ≤ (published (seen (Client.heard tr))).length)
    (hcursors : s'.cursors = s.cursors) (hconsumers : s'.consumers = s.consumers) :
    Inv p (tr ++ es) { k with producer := pc } s' := by
  refine ⟨?_, ?_, ?_, ?_, ?_⟩
  · rw [Client.told_append]
    exact h.main.aside ⟨rfl, hpc, fun _ h => ⟨h, rfl⟩⟩ hprinted
  · simpa [hstamped, hpub, published_append] using hmaking
  · simpa [hstamped] using hpayloads
  · intro i
    rw [Client.told_append, Client.heard_append, seen_append, published_append, hpub,
      counted_by_append, counted_by_nil hcounted, List.append_nil, hcursors, hconsumers]
    exact (h.place i).grow (hbehind i)
  · intro i
    rw [Client.told_append, counted_by_append, counted_by_nil hcounted, List.append_nil]
    exact h.samples i

/-- A step of the producer that only the queue takes part in. -/
theorem Inv.producer_quiet (h : Inv p tr k s) (htold : Client.told es = [])
    (hpub : published (seen (Client.heard es)) = [])
    (hcall : ∀ i item, k.producer = .put i item → InCall item s.producer → InCall item s'.producer)
    (hput : ∃ i item, k.producer = .put i item)
    (hbehind : ∀ i, s.cursors i ≤ (published (seen (Client.heard tr))).length)
    (hcursors : s'.cursors = s.cursors) (hconsumers : s'.consumers = s.consumers) :
    Inv p (tr ++ es) k s' := by
  have hmaking := h.making
  obtain ⟨i, item, hpc⟩ := hput
  have hstamped : stamped (Client.told es) = [] := by rw [htold]; rfl
  refine h.producer_side id hstamped (by rw [htold]; rfl) (by rw [htold]; rfl) hpub ?_ ?_ hbehind
    hcursors hconsumers
  · rw [List.append_nil, List.append_nil]
    rw [hpc] at hmaking ⊢
    obtain ⟨hlt, before, hmade, hlen, hlog, hin⟩ := hmaking
    exact ⟨hlt, before, hmade, hlen, hlog, hcall i item hpc hin⟩
  · rw [List.append_nil]
    exact h.payloads

/-- A step of a consumer, the queue's part of it included. -/
theorem Inv.consumer_side (h : Inv p tr k s) {i : Fin (n + 1)} {pc : FanPc} {r : LatencyRecorder}
    {more : List (Item × Int)} (haside : Aside FanPc.exited k
      ({ k with recs := Function.update k.recs i r }.atConsumer i pc))
    (hstamped : stamped (Client.told es) = []) (hprinted : printed (Client.told es) = [])
    (hpub : published (seen (Client.heard es)) = [])
    (hmine : countedBy i (Client.told es) = more)
    (hothers : ∀ j, j ≠ i → countedBy j (Client.told es) = [])
    (hr : r.samples = latencies p (countedBy i (Client.told tr) ++ more))
    (hplace : Place p (published (seen (Client.heard tr))) (s'.cursors i) (s'.consumers i)
      ((countedBy i (Client.told tr) ++ more).map Prod.fst) pc)
    (hproducer : s'.producer = s.producer)
    (hcursors : ∀ j, j ≠ i → s'.cursors j = s.cursors j)
    (hconsumers : ∀ j, j ≠ i → s'.consumers j = s.consumers j) :
    Inv p (tr ++ es) ({ k with recs := Function.update k.recs i r }.atConsumer i pc) s' := by
  refine ⟨?_, ?_, ?_, ?_, ?_⟩
  · rw [Client.told_append]
    exact h.main.aside haside hprinted
  · rw [Client.told_append, Client.heard_append, seen_append, published_append, stamped_append,
      hstamped, hpub, List.append_nil, List.append_nil, hproducer]
    exact h.making
  · rw [Client.told_append, stamped_append, hstamped, List.append_nil]
    exact h.payloads
  · intro j
    rw [Client.told_append, Client.heard_append, seen_append, published_append, hpub,
      List.append_nil, counted_by_append]
    by_cases hj : j = i
    · subst hj
      simpa [hmine] using hplace
    · rw [hothers j hj, List.append_nil, hcursors j hj, hconsumers j hj]
      simpa [hj] using h.place j
  · intro j
    rw [Client.told_append, counted_by_append]
    by_cases hj : j = i
    · subst hj
      simpa [hmine] using hr
    · rw [hothers j hj, List.append_nil]
      simpa [Function.update_of_ne hj] using h.samples j

/-- A step of a consumer that neither notes nor counts anything. -/
theorem Inv.consumer_quiet (h : Inv p tr k s) {i : Fin (n + 1)} {pc : FanPc}
    (hexit : (k.consumers i).exited = false) (htold : Client.told es = [])
    (hpub : published (seen (Client.heard es)) = [])
    (hplace : Place p (published (seen (Client.heard tr))) (s'.cursors i) (s'.consumers i)
      ((countedBy i (Client.told tr)).map Prod.fst) pc)
    (hproducer : s'.producer = s.producer) (hcursors : ∀ j, j ≠ i → s'.cursors j = s.cursors j)
    (hconsumers : ∀ j, j ≠ i → s'.consumers j = s.consumers j) :
    Inv p (tr ++ es) (Benchmark.State.atConsumer k i pc) s' := by
  have haside : Aside FanPc.exited k
      ({ k with recs := Function.update k.recs i (k.recs i) }.atConsumer i pc) :=
    Aside.at_consumer hexit
  have hmine : countedBy i (Client.told es) = [] := by rw [htold]; rfl
  have hstep := h.consumer_side haside (by rw [htold]; rfl) (by rw [htold]; rfl) hpub hmine
    (fun _ _ => by rw [htold]; rfl) (by rw [List.append_nil]; exact h.samples i)
    (by rw [List.append_nil]; exact hplace) hproducer hcursors hconsumers
  rwa [Function.update_eq_self] at hstep

/-- A step inside a consumer's call that the program does not notice. -/
theorem Inv.calling_step (h : Inv p tr k s) {i : Fin (n + 1)} {f : Frame Item}
    {rest stack : List (Frame Item)}
    {es : List (Shown n Item ⊕ Benchmark.Event (n + 1))} (hc : s.consumers i = f :: rest)
    (hcall : ∀ call pos, f ≠ .callback call pos)
    (hstore : ∀ call pos v, f ≠ .storeCursor call pos v)
    (hstack : Calling (f :: rest) → Calling stack) (htold : Client.told es = [])
    (hpub : published (seen (Client.heard es)) = []) :
    Inv p (tr ++ es) k (Broadcast.State.atConsumer s i stack) := by
  have hplace := h.place i
  rw [hc] at hplace
  obtain ⟨hpc, hlt, hdone, hcalling⟩ := hplace.polling hcall hstore
  rw [← at_consumer_self k i]
  refine h.consumer_quiet (by rw [hpc]; rfl) htold hpub ?_ rfl (fun _ _ => rfl)
    (fun j hj => by simp [hj])
  rw [hpc]
  simpa [Place] using ⟨hlt, hdone, hstack hcalling⟩

/-- What a step of `try_publish` does: it goes on with its item, gives up, fails
on an argument that throws, or publishes. -/
theorem producer_shape (hs : Broadcast.stepProducer none cap.toCapacity s = some (s', es')) :
    s'.cursors = s.cursors ∧ s'.consumers = s.consumers ∧ s.producer ≠ .idle ∧
      (es' = [] ∧ (∀ item, InCall item s.producer → InCall item s'.producer) ∨
        es' = [.full] ∧ s'.producer = .idle ∨ es' = [.threw] ∨
        ∃ v t, s.producer = .storeTail v t ∧ es' = [.published v] ∧ s'.producer = .idle) := by
  unfold Broadcast.stepProducer at hs
  cases hp : s.producer with
  | idle => simp [hp] at hs
  | loadTail arg =>
    simp only [hp] at hs
    split at hs
    all_goals
      simp only [Option.some.injEq, Prod.mk.injEq] at hs
      obtain ⟨rfl, rfl⟩ := hs
      exact ⟨rfl, rfl, by simp, .inl ⟨rfl, fun _ h => h⟩⟩
  | scan arg t i least =>
    simp only [hp] at hs
    repeat' split at hs
    all_goals
      simp only [Option.some.injEq, Prod.mk.injEq] at hs
      obtain ⟨rfl, rfl⟩ := hs
    · exact ⟨rfl, rfl, by simp, .inl ⟨rfl, fun _ h => h⟩⟩
    · exact ⟨rfl, rfl, by simp, .inr (.inl ⟨rfl, rfl⟩)⟩
    · exact ⟨rfl, rfl, by simp, .inl ⟨rfl, fun _ h => h⟩⟩
  | construct arg t =>
    cases arg
    all_goals
      simp only [hp, Option.some.injEq, Prod.mk.injEq] at hs
      obtain ⟨rfl, rfl⟩ := hs
    · exact ⟨rfl, rfl, by simp, .inr (.inr (.inl rfl))⟩
    · exact ⟨rfl, rfl, by simp, .inl ⟨rfl, fun _ h => Option.some.inj h⟩⟩
  | assign v t =>
    simp only [hp, Option.some.injEq, Prod.mk.injEq] at hs
    obtain ⟨rfl, rfl⟩ := hs
    exact ⟨rfl, rfl, by simp, .inl ⟨rfl, fun _ h => h⟩⟩
  | storeTail v t =>
    simp only [hp, Option.some.injEq, Prod.mk.injEq] at hs
    obtain ⟨rfl, rfl⟩ := hs
    exact ⟨rfl, rfl, by simp, .inr (.inr (.inr ⟨v, t, rfl, rfl, rfl⟩))⟩

section Steps

variable (hi : BroadcastCursors.Inv cap.toCapacity (published (seen (Client.heard tr))) s)
  (h : Inv p tr k s)

include hi h

theorem publish_step {arg : Option Item}
    (hk : fanBenchmarkHears p k (.publish arg) = some k') :
    Inv p (tr ++ [.inl (.publish arg)]) k' (s.atProducer (.loadTail arg)) := by
  cases hpc : k.producer with
  | put i item =>
    simp only [fanBenchmarkHears, hpc, Option.ite_none_right_eq_some, Option.some.injEq] at hk
    obtain ⟨rfl, rfl⟩ := hk
    refine h.producer_quiet rfl rfl ?_ ⟨i, item, hpc⟩ hi.behind rfl rfl
    intro j it hput _
    obtain ⟨rfl, rfl⟩ := ProducerPc.put.inj (hpc.symm.trans hput)
    rfl
  | _ => simp [fanBenchmarkHears, hpc] at hk

theorem producer_step (hs : Broadcast.stepProducer none cap.toCapacity s = some (s', es'))
    (hk : (es'.map Shown.seen).foldlM (fanBenchmarkHears p) k = some k') :
    Inv p (tr ++ (es'.map Shown.seen).map .inl) k' s' := by
  obtain ⟨hcursors, hconsumers, hbusy, hes⟩ := producer_shape hs
  obtain ⟨i, item, hpc, hlt, hmade, hlen, hcall⟩ := making_calling h.making hbusy
  rcases hes with ⟨rfl, hkeep⟩ | ⟨rfl, hidle⟩ | rfl | ⟨v, t, hp, rfl, hidle⟩
  · obtain rfl := Option.some.inj hk
    exact h.producer_quiet rfl rfl (fun _ it _ => hkeep it) ⟨i, item, hpc⟩ hi.behind hcursors
      hconsumers
  · simp only [List.map_cons, List.map_nil, List.foldlM_cons, List.foldlM_nil,
      fanBenchmarkHears, bind_pure, Option.some.injEq] at hk
    subst hk
    refine h.producer_quiet rfl rfl ?_ ⟨i, item, hpc⟩ hi.behind hcursors hconsumers
    intro _ _ _ _
    rw [hidle]
    trivial
  · simp [fanBenchmarkHears] at hk
  · simp only [List.map_cons, List.map_nil, List.foldlM_cons, List.foldlM_nil,
      fanBenchmarkHears, hpc, bind_pure, Option.some.injEq] at hk
    subst hk
    rw [hp] at hcall
    obtain rfl : v = item := hcall
    refine h.producer_side (by simp [hpc]) (rfl : _ = []) rfl rfl (rfl : _ = [v]) ?_ ?_ hi.behind
      hcursors hconsumers
    · rw [hidle, List.append_nil, hmade]
      exact making_head hlt (by rw [List.length_append, hlen]; rfl) ⟨rfl, rfl⟩
    · rw [List.append_nil]
      exact h.payloads

/-- The callback entered is that of the next item. -/
theorem entered_step {i : Fin (n + 1)} {call : ConsumeCall} {pos : Nat} {rest : List (Frame Item)}
    (hc : s.consumers i = .enter call pos :: rest)
    (hk : fanBenchmarkHears p k (.seen (.entered i pos (s.item cap.toCapacity pos))) = some k') :
    Inv p (tr ++ [.inl (.seen (.entered i pos (s.item cap.toCapacity pos)))]) k'
      (Broadcast.State.atConsumer s i (.callback call pos :: rest)) := by
  have hplace := h.place i
  have hok := hi.consumer i
  rw [hc] at hplace hok
  obtain ⟨hpc, hlt, hdone, hcalling⟩ := hplace.polling (by simp) (by simp)
  obtain ⟨rfl, hlen⟩ := hok.1
  simp only [fanBenchmarkHears, hpc, Option.some.injEq] at hk
  subst hk
  refine h.consumer_quiet (by rw [hpc]; rfl) rfl rfl ?_ rfl (fun _ _ => rfl)
    (fun j hj => by simp [hj])
  obtain ⟨rfl, hf | ⟨pos', hf | hf⟩⟩ := hcalling.head
  · cases hf
  · cases hf
  · obtain ⟨rfl, _⟩ := Frame.enter.inj hf
    exact ⟨hlt, rfl, hdone, hlen, by simp⟩

/-- The item that the callback reads is the one at its position. -/
theorem delivered_step {i : Fin (n + 1)} {call : ConsumeCall} {pos : Nat}
    {rest : List (Frame Item)} (hc : s.consumers i = .callback call pos :: rest)
    (hk : fanBenchmarkHears p k (.seen (.delivered i pos (s.item cap.toCapacity pos))) = some k') :
    Inv p (tr ++ [.inl (.seen (.delivered i pos (s.item cap.toCapacity pos)))]) k'
      (Broadcast.State.atConsumer s i
        (.storeCursor call pos (s.item cap.toCapacity pos) :: rest)) := by
  have hplace := h.place i
  rw [hc] at hplace
  cases hpc : k.consumers i with
  | reading c now =>
    simp only [fanBenchmarkHears, hpc, Option.some.injEq] at hk
    subst hk
    rw [hpc] at hplace
    obtain ⟨hlt, hcursor, hdone, hlen, hstack⟩ := hplace
    obtain ⟨hf, rfl⟩ := List.cons.inj hstack
    obtain ⟨rfl, rfl⟩ := Frame.callback.inj hf
    refine h.consumer_quiet (by rw [hpc]; rfl) rfl rfl ?_ rfl (fun _ _ => rfl)
      (fun j hj => by simp [hj])
    exact ⟨hlt, hcursor, hdone, hi.unread (Nat.le_of_eq hcursor) hlen, by simp⟩
  | _ => simp [fanBenchmarkHears, hpc] at hk

omit hi in
/-- The cursor stored is the one past the item. -/
theorem consumed_step {i : Fin (n + 1)} {call : ConsumeCall} {pos : Nat} {v : Item}
    {rest : List (Frame Item)} (hc : s.consumers i = .storeCursor call pos v :: rest)
    (hk : fanBenchmarkHears p k (.seen (.consumed i pos v)) = some k') :
    Inv p (tr ++ [.inl (.seen (.consumed i pos v))]) k'
      (Broadcast.State.atConsumer (s.setCursor i (pos + 1)) i rest) := by
  have hplace := h.place i
  rw [hc] at hplace
  cases hpc : k.consumers i with
  | returning c =>
    simp only [fanBenchmarkHears, hpc, Option.some.injEq] at hk
    subst hk
    rw [hpc] at hplace
    obtain ⟨hlt, hcursor, hdone, hlen, w, hstack⟩ := hplace
    obtain ⟨hf, rfl⟩ := List.cons.inj hstack
    obtain ⟨rfl, rfl, rfl⟩ := Frame.storeCursor.inj hf
    refine h.consumer_quiet (by rw [hpc]; rfl) rfl rfl ?_ rfl ?_ (fun j hj => by simp [hj])
    · have hhead : Place p (published (seen (Client.heard tr))) _ [] _ _ := place_head hlt hdone
      simpa [cursors_set_cursor] using hhead
    · intro j hj
      simp [cursors_set_cursor, hj]
  | _ => simp [fanBenchmarkHears, hpc] at hk

/-- The step of a consumer's activation: between calls and callbacks the program takes no
notice of it. -/
theorem consumer_step {i : Fin (n + 1)}
    (hs : Broadcast.stepConsumer none cap.toCapacity s i = some (s', es'))
    (hk : (es'.map Shown.seen).foldlM (fanBenchmarkHears p) k = some k') :
    Inv p (tr ++ (es'.map Shown.seen).map .inl) k' s' := by
  unfold Broadcast.stepConsumer at hs
  split at hs
  · cases hs
  · rename_i call rest hc
    simp only [Option.some.injEq, Prod.mk.injEq] at hs
    obtain ⟨rfl, rfl⟩ := hs
    obtain rfl := Option.some.inj hk
    refine h.calling_step hc (by simp) (by simp) ?_ rfl rfl
    intro hcalling
    obtain ⟨rfl, hf | ⟨pos, hf | hf⟩⟩ := hcalling.head
    · obtain rfl := Frame.loadCursor.inj hf
      trivial
    · cases hf
    · cases hf
  · rename_i call pos rest hc
    split at hs
    all_goals
      simp only [Option.some.injEq, Prod.mk.injEq] at hs
      obtain ⟨rfl, rfl⟩ := hs
      obtain rfl := Option.some.inj hk
      refine h.calling_step hc (by simp) (by simp) ?_ rfl rfl
      intro hcalling
      obtain ⟨rfl, hf | ⟨pos', hf | hf⟩⟩ := hcalling.head
    · cases hf
    · trivial
    · cases hf
    · cases hf
    · obtain ⟨rfl, _⟩ := Frame.loadTail.inj hf
      trivial
    · cases hf
  · rename_i call pos rest hc
    cases hs
    exact entered_step hi h hc (by simpa using hk)
  · rename_i call pos rest hc
    cases hs
    exact delivered_step hi h hc (by simpa using hk)
  · rename_i call pos v rest hc
    cases hs
    exact consumed_step h hc (by simpa using hk)

end Steps

theorem main_step_inv (h : Inv p tr k s) {rs : List (Benchmark.Event (n + 1))}
    (hs : stepMain p FanPc.exited k = some (k', rs)) : Inv p (tr ++ rs.map .inr) k' s := by
  obtain ⟨hmain, hk, hstamped, hcounted⟩ := h.main.step hs
  have hby := fun i => counted_by_nil hcounted i
  rw [hk] at hmain ⊢
  refine ⟨?_, ?_, ?_, ?_, ?_⟩
  · simpa using hmain
  · simpa [hstamped] using h.making
  · simpa [hstamped] using h.payloads
  · intro i
    simpa [hby] using h.place i
  · intro i
    simpa [hby] using h.samples i

theorem producer_step_inv (h : Inv p tr k s)
    (hbehind : ∀ i, s.cursors i ≤ (published (seen (Client.heard tr))).length) {ns : BitVec 64}
    {rs : List (Benchmark.Event (n + 1))} (hs : Benchmark.stepProducer p k ns = some (k', rs)) :
    Inv p (tr ++ rs.map .inr) k' s := by
  have hput : ∀ before item, Resting (published (seen (Client.heard tr))) s.producer before →
      Putting (published (seen (Client.heard tr))) s.producer before item := by
    intro before item hrest
    refine ⟨hrest.1, ?_⟩
    rw [hrest.2]
    trivial
  obtain ⟨pc, rfl, hpc, hcounted, hprinted, hmaking, hpayloads⟩ :=
    h.making.own hput h.payloads hs
  refine h.producer_side (fun he => absurd he hpc) (by rw [Client.told_inr])
    (by rw [Client.told_inr, hcounted]) (by rw [Client.told_inr, hprinted])
    (by rw [Client.heard_inr]) ?_ hpayloads hbehind rfl rfl
  simpa [seen, published] using hmaking

/-- A callback notes the latency of the item it has read. -/
theorem Inv.note_step (h : Inv p tr k s) {i : Fin (n + 1)} {c : Nat} {item : Item} {now : Int}
    (hpc : k.consumers i = .count c item now) {t : FanState n}
    (hnote : noteLatency p k i c item now = some t) :
    Inv p (tr ++ [.inr (.counted i item now)])
      (Benchmark.State.atConsumer t i (.returning c)) s := by
  have hplace := h.place i
  rw [hpc] at hplace
  obtain ⟨hlt, hcursor, hdone, hitem, hstack⟩ := hplace
  obtain ⟨hlen, hget⟩ := List.getElem?_eq_some_iff.mp hitem
  obtain ⟨r, rfl, hr⟩ := note_latency_spec hnote
  have hexit : (k.consumers i).exited = false := by
    rw [hpc]
    rfl
  have hlength : (countedBy i (Client.told tr)).length = c := by
    rw [← List.length_map Prod.fst, hdone, List.length_take]
    omega
  have htold : Client.told [(.inr (.counted i item now) : Shown n Item ⊕ Benchmark.Event (n + 1))] =
    [.counted i item now] := rfl
  have hmine : countedBy i [Event.counted i item now] = [(item, now)] := by simp [countedBy]
  rw [← htold] at hmine
  refine h.consumer_side (Aside.at_consumer hexit) rfl rfl rfl hmine ?_ ?_ ?_ rfl (fun _ _ => rfl)
    (fun _ _ => rfl)
  · intro j hj
    simp [countedBy, Client.told, Ne.symm hj]
  · rw [latencies_concat, hlength, hr, h.samples i]
  · refine ⟨hlt, hcursor, ?_, hlen, item, hstack⟩
    rw [List.map_append, hdone, List.take_succ_eq_append_getElem hlen, hget]
    rfl

theorem consumer_step_inv (h : Inv p tr k s) {i : Fin (n + 1)} {ns : BitVec 64}
    {rs : List (Benchmark.Event (n + 1))} (hs : stepFan p k i ns = some (k', rs)) :
    Inv p (tr ++ rs.map .inr) k' s := by
  have hplace := h.place i
  unfold stepFan at hs
  cases hpc : k.consumers i with
  | waitGo =>
    simp only [hpc] at hs
    split at hs
    · simp only [Option.some.injEq, Prod.mk.injEq] at hs
      obtain ⟨rfl, rfl⟩ := hs
      rw [hpc] at hplace
      obtain ⟨hcursor, hdone, hstack⟩ := hplace
      refine h.consumer_quiet (by rw [hpc]; rfl) rfl rfl ?_ rfl (fun _ _ => rfl) (fun _ _ => rfl)
      rw [hcursor, hdone, hstack]
      exact place_head (Nat.zero_le _) rfl
    · cases hs
  | callback c =>
    simp only [hpc, Option.some.injEq, Prod.mk.injEq] at hs
    obtain ⟨rfl, rfl⟩ := hs
    rw [hpc] at hplace
    exact h.consumer_quiet (by rw [hpc]; rfl) rfl rfl hplace rfl (fun _ _ => rfl) (fun _ _ => rfl)
  | count c item now =>
    simp only [hpc] at hs
    obtain ⟨t, hnote, he⟩ := Option.map_eq_some_iff.mp hs
    obtain ⟨rfl, rfl⟩ := Prod.mk.inj he
    exact h.note_step hpc hnote
  | _ => simp [hpc] at hs

/-- The program never calls a handle from inside its callback. -/
theorem machine_step_inv
    (hq : (Broadcast.machine n Item none cap.toCapacity).RunWhere Flat (seen (Client.heard tr)) s)
    (h : Inv p tr k s) {a : Broadcast.Act n Item} {ds : List (Shown n Item)}
    (hs : ((Broadcast.machine n Item none cap.toCapacity).relabel shown).step s a = some (s', ds))
    (hk : ds.foldlM (fanBenchmarkHears p) k = some k') :
    (Broadcast.machine n Item none cap.toCapacity).RunWhere Flat
        (seen (Client.heard (tr ++ ds.map .inl))) s' ∧
      Inv p (tr ++ ds.map .inl) k' s' := by
  have hi := run_inv (flat_steady hq).1
  obtain ⟨es', hstep, rfl⟩ := Machine.relabel_step hs
  rw [Client.heard_append, seen_append, Client.heard_inl]
  cases a with
  | publish arg =>
    have hrun := hstep
    simp only [machine, step] at hstep
    split at hstep
    · cases hstep
      have hflat : Flat s (.publish arg) := trivial
      refine ⟨Machine.Steps.step hq hflat hrun, publish_step hi h ?_⟩
      simpa [shown] using hk
    · cases hstep
  | producer =>
    simp only [shown, seen_map]
    have hflat : Flat s .producer := trivial
    exact ⟨Machine.Steps.step hq hflat hstep, producer_step hi h hstep hk⟩
  | consume i call =>
    have hheard : fanBenchmarkHears p k (.consume i call) = some k' := by simpa [shown] using hk
    cases hpc : k.consumers i with
    | poll c =>
      have hplace := h.place i
      rw [hpc] at hplace
      simp only [fanBenchmarkHears, hpc, Option.ite_none_right_eq_some, Option.some.injEq] at hheard
      obtain ⟨rfl, rfl⟩ := hheard
      have hrun := hstep
      simp only [machine, step] at hstep
      split at hstep
      · rename_i hc
        cases hstep
        have hflat : Flat s (.consume i .tryConsume) := hc
        refine ⟨Machine.Steps.step hq hflat hrun, ?_⟩
        rw [← at_consumer_self k i]
        refine h.consumer_quiet (by rw [hpc]; rfl) rfl rfl ?_ rfl (fun _ _ => rfl)
          (fun j hj => by simp [hj])
        rw [hpc]
        simpa [Place, Calling] using ⟨hplace.1, hplace.2.1, hplace.2.2.1⟩
      · rename_i pos rest hc
        rw [hc] at hplace
        obtain ⟨_, _, _, hcalling⟩ := hplace
        obtain ⟨_, hf | ⟨_, hf | hf⟩⟩ := hcalling.head <;> cases hf
      · cases hstep
    | _ => simp [fanBenchmarkHears, hpc] at hheard
  | consumer i =>
    simp only [shown, seen_map]
    have hflat : Flat s (.consumer i) := trivial
    exact ⟨Machine.Steps.step hq hflat hstep, consumer_step hi h hstep hk⟩
  | throws i =>
    simp only [machine, step] at hstep
    split at hstep
    · cases hstep
      simp [shown, fanBenchmarkHears] at hk
    · cases hstep

theorem run_fan_inv {y : FanState n × Broadcast.State n Item}
    (hr : ((runBroadcastBenchmark p).runs
      ((Broadcast.machine n Item none cap.toCapacity).relabel shown)).Run tr y) :
    (Broadcast.machine n Item none cap.toCapacity).RunWhere Flat (seen (Client.heard tr)) y.2 ∧
      Inv p tr y.1 y.2 := by
  refine (Client.invariant (I := fun tr k s =>
    (Broadcast.machine n Item none cap.toCapacity).RunWhere Flat (seen (Client.heard tr)) s ∧
      Inv p tr k s) ?_ ?_ ?_ hr).2
  · refine ⟨.refl, ⟨?_, ?_, ?_, .inl ⟨rfl, by simp [runBroadcastBenchmark]⟩⟩, ⟨rfl, rfl, rfl⟩, rfl,
      fun _ => ⟨rfl, rfl, rfl⟩, ?_⟩
    · exact fun h => absurd rfl h
    · exact fun _ hi => absurd hi (Nat.not_lt_zero _)
    · exact fun _ _ he => MainPc.noConfusion he
    · intro i
      simp [runBroadcastBenchmark, LatencyRecorder.new, latencies, countedBy]
  · intro tr k s a k' s' ds _ hinv hs hk
    exact machine_step_inv hinv.1 hinv.2 hs hk
  · intro tr k s c k' rs _ hinv hs
    obtain ⟨hq, h⟩ := hinv
    refine ⟨by rwa [Client.heard_append, Client.heard_inr, List.append_nil], ?_⟩
    have hi := run_inv (flat_steady hq).1
    cases c with
    | main => exact main_step_inv h hs
    | producer ns => exact producer_step_inv h hi.behind hs
    | consumer i ns => exact consumer_step_inv h hs

/-- What a run of `run_broadcast_benchmark` comes to. -/
structure Exact (p : Plan (n + 1)) (tr : List (Benchmark.Event (n + 1))) (k : FanState n) :
    Prop where
  /-- Every consumer is done with the first items, in the order they were made. -/
  order : ∀ i, (countedBy i tr).map Prod.fst <+: stamped tr
  /-- A consumer ends when it is done with every one of them. -/
  all : ∀ i, k.consumers i = .finished → (countedBy i tr).map Prod.fst = stamped tr ∧
    (stamped tr).map Item.payload = (List.range p.total).map payload
  /-- Its recorder has the latencies of those after the warmup. -/
  samples : ∀ i, (k.recs i).samples = latencies p (countedBy i tr) ∧
    (k.recs i).samples.length ≤ p.measure
  report : printed tr = [] ∧ k.main ≠ .reported ∨ k.main = .reported ∧
    (∀ i, (countedBy i tr).map Prod.fst = stamped tr) ∧
    printed tr = [BenchmarkThreads.report p (∑ i, (latencies p (countedBy i tr) : Multiset Nat))]

theorem Place.done_first {c : Nat} {stack : List (Frame Item)} {done : List Item} {pc : FanPc}
    (h : Place p log c stack done pc) : done <+: log := by
  cases pc with
  | waitGo =>
    rw [h.2.1]
    exact List.nil_prefix
  | poll k | callback k | reading k now | count k item now | returning k =>
    rw [h.2.2.1]
    exact List.take_prefix _ _
  | finished =>
    rw [h.2.1]
    exact List.take_prefix _ _

theorem FanPc.finished_of_exited {pc : FanPc} (h : pc.exited = true) : pc = .finished := by
  cases pc with
  | finished => rfl
  | _ => cases h

/-- A consumer that has ended has seen all that is made. -/
theorem Inv.all_seen (h : Inv p tr k s)
    (hbehind : ∀ i, s.cursors i ≤ (published (seen (Client.heard tr))).length) {i : Fin (n + 1)}
    (hpc : k.consumers i = .finished) :
    (countedBy i (Client.told tr)).map Prod.fst = stamped (Client.told tr) ∧
      (stamped (Client.told tr)).length = p.total ∧ s.cursors i = p.total ∧ s.consumers i = [] := by
  have hplace := h.place i
  rw [hpc] at hplace
  obtain ⟨hcursor, hdone, hstack⟩ := hplace
  have hle := hbehind i
  have hfirst := log_first h.making
  have hmade := h.making.length_le
  have hlog : published (seen (Client.heard tr)) = stamped (Client.told tr) :=
    hfirst.eq_of_length_le (by omega)
  have hlength := hfirst.length_le
  refine ⟨?_, by omega, hcursor, hstack⟩
  rw [hdone, List.take_of_length_le (by omega), hlog]

theorem Inv.exact (h : Inv p tr k s)
    (hbehind : ∀ i, s.cursors i ≤ (published (seen (Client.heard tr))).length) :
    Exact p (Client.told tr) k := by
  have horder := fun i => (h.place i).done_first.trans (log_first h.making)
  refine ⟨horder, ?_, ?_, ?_⟩
  · intro i hpc
    obtain ⟨hall, hlength, _⟩ := h.all_seen hbehind hpc
    exact ⟨hall, by rw [h.payloads, hlength]⟩
  · intro i
    have hlength := (horder i).length_le
    have hmade := h.making.length_le
    have hle := latencies_length_le p (countedBy i (Client.told tr))
    have htotal : p.total = p.warmup + p.measure := rfl
    rw [List.length_map] at hlength
    rw [h.samples i]
    exact ⟨rfl, by omega⟩
  · refine h.main.printed.imp id (fun ⟨hm, hp⟩ => ⟨hm, ?_, ?_⟩)
    · intro i
      have hexited := (h.main.reported hm).2.1 i
      exact (h.all_seen hbehind (FanPc.finished_of_exited hexited)).1
    · simp only [hp, allSamples, h.samples]

/-- `run_broadcast_benchmark` measures every item once for each consumer, all of
them in order, and leaves no consumer behind. -/
theorem run_broadcast_benchmark_exact
    (hr : ((runBroadcastBenchmark p).runs
      ((Broadcast.machine n Item none cap.toCapacity).relabel shown)).Run tr (k, s)) :
    Exact p (Client.told tr) k ∧ (k.main = .reported →
      s.tail = p.total ∧ s.producer = .idle ∧
        ∀ i, s.cursors i = s.tail ∧ s.consumers i = []) := by
  obtain ⟨hq, h⟩ := run_fan_inv hr
  have hi := run_inv (flat_steady hq).1
  refine ⟨h.exact hi.behind, ?_⟩
  intro hm
  obtain ⟨hproducer, hexited, _⟩ := h.main.reported hm
  have hmaking := h.making
  rw [hproducer] at hmaking
  obtain ⟨hmade, hlog, hidle⟩ := hmaking
  have htail : s.tail = p.total := by rw [hi.tail, hlog, hmade]
  refine ⟨htail, hidle, ?_⟩
  intro i
  obtain ⟨_, _, hcursor, hstack⟩ := h.all_seen hi.behind (FanPc.finished_of_exited (hexited i))
  exact ⟨hcursor.trans htail.symm, hstack⟩

/-- The item is stamped at 5, its callback reads the clock at 9. -/
def measureOne (i : Fin 1) : List (Broadcast.Act 0 Item ⊕ Choice 1) :=
  [.inr .main, .inr (.producer 0), .inr (.producer 5), .inl (.publish (some ⟨5, 0⟩)),
   .inl .producer, .inl .producer, .inl .producer, .inl .producer,
   .inr (.consumer i 0), .inl (.consume i .tryConsume), .inl (.consumer i), .inl (.consumer i),
   .inl (.consumer i), .inr (.consumer i 9), .inl (.consumer i), .inr (.consumer i 0),
   .inl (.consumer i), .inr .main, .inr .main, .inr .main, .inr .main, .inr .main]

theorem run_broadcast_benchmark_exact_once : ∃ tr k s, ((runBroadcastBenchmark oneItem).runs
      ((Broadcast.machine 0 Item none twoSlots.toCapacity).relabel shown)).Run tr (k, s) ∧
    printed (Client.told tr) = [[.line .header, .line (.row "one" ⟨4, (4, 1), 4, 4, 4, 4, 4, 4, 4⟩)]] ∧
    Exact oneItem (Client.told tr) k ∧ s.cursors 0 = s.tail := by
  have hr : ((runBroadcastBenchmark oneItem).runs
      ((Broadcast.machine 0 Item none twoSlots.toCapacity).relabel shown)).Run _ (_, _) :=
    Machine.run_of_exec (measureOne 0) rfl
  exact ⟨_, _, _, hr, rfl, (run_broadcast_benchmark_exact hr).1,
    (((run_broadcast_benchmark_exact hr).2 rfl).2.2 0).1⟩

end Toolbox.Proofs.BenchmarkFan
