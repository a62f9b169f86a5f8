import Mathlib.Algebra.BigOperators.Fin
import Mathlib.Algebra.Order.BigOperators.Group.List
import Mathlib.Algebra.Order.Ring.Nat
import Toolbox.Benchmark
import Toolbox.Proofs.LatencyReport

namespace Toolbox.Proofs.BenchmarkThreads
open Base Latency LatencyReport Benchmark
open Tsc (Item)

variable {n : Nat} {C D : Type*} {p : Plan n} {exited : C → Bool} {s s' : State n C D}
  {tr es : List (Event n)}

section Fields

variable (s) (i : Fin n) (pc : C)

@[simp] theorem recs_at_consumer : (s.atConsumer i pc).recs = s.recs := rfl

@[simp] theorem producer_at_consumer : (s.atConsumer i pc).producer = s.producer := rfl

@[simp] theorem main_at_consumer : (s.atConsumer i pc).main = s.main := rfl

@[simp] theorem shared_at_consumer : (s.atConsumer i pc).shared = s.shared := rfl

@[simp] theorem consumers_at_consumer (j : Fin n) :
    (s.atConsumer i pc).consumers j = if j = i then pc else s.consumers j := by
  simp only [State.atConsumer, Function.update_apply]

theorem at_consumer_self : s.atConsumer i (s.consumers i) = s := by
  simp [State.atConsumer]

end Fields

/-- The items that consumer `i` is done with, each with the time it noted. -/
def countedBy (i : Fin n) (tr : List (Event n)) : List (Item × Int) :=
  tr.filterMap (fun | .counted j item now => if j = i then some (item, now) else none | _ => none)

section Traces

variable (tr es)

@[simp] theorem stamped_append : stamped (tr ++ es) = stamped tr ++ stamped es :=
  List.filterMap_append

@[simp] theorem counted_append : counted (tr ++ es) = counted tr ++ counted es :=
  List.filterMap_append

@[simp] theorem printed_append : printed (tr ++ es) = printed tr ++ printed es :=
  List.filterMap_append

@[simp] theorem counted_by_append (i : Fin n) :
    countedBy i (tr ++ es) = countedBy i tr ++ countedBy i es := List.filterMap_append

end Traces

theorem counted_by_nil (h : counted tr = []) (i : Fin n) : countedBy i tr = [] := by
  refine List.filterMap_eq_nil_iff.mpr ?_
  intro e he
  cases e with
  | counted j item now =>
    have hmem : (j, item, now) ∈ counted tr := List.mem_filterMap.mpr ⟨_, he, rfl⟩
    rw [h] at hmem
    cases hmem
  | _ => rfl

/-- What one item adds to a recorder when its sample counts. -/
def measured (item : Item) (now : Int) : List Nat :=
  if 0 ≤ now - item.enqueueNs then [(now - item.enqueueNs).toNat] else []

/-- The samples of items in the order they were done with, the warmup left out. -/
def latencies (p : Plan n) (done : List (Item × Int)) : List Nat :=
  (done.drop p.warmup).flatMap (fun c => measured c.1 c.2)

theorem latencies_length_le (p : Plan n) (done : List (Item × Int)) :
    (latencies p done).length ≤ done.length - p.warmup := by
  have hone : ∀ m ∈ (done.drop p.warmup).map (fun c => (measured c.1 c.2).length), m ≤ 1 := by
    intro m hm
    obtain ⟨c, _, rfl⟩ := List.mem_map.mp hm
    unfold measured
    split <;> simp
  have hsum := List.sum_le_card_nsmul _ 1 hone
  rw [List.length_map, List.length_drop, smul_eq_mul, Nat.mul_one] at hsum
  rwa [latencies, List.length_flatMap]

theorem latencies_concat (p : Plan n) (done : List (Item × Int)) (item : Item) (now : Int) :
    latencies p (done ++ [(item, now)]) =
      latencies p done ++ if done.length < p.warmup then [] else measured item now := by
  unfold latencies
  split
  · rename_i hlt
    rw [List.drop_of_length_le (by simp; omega), List.drop_of_length_le (by omega)]
    rfl
  · rw [List.drop_append_of_le_length (by omega), List.flatMap_append]
    simp

/-- The producer's loop over the items: between two items the queue is at rest with
those made so far, in between it is taking the last one. -/
def Making (p : Plan n) (made : List Item) (resting : List Item → Prop)
    (putting : List Item → Item → Prop) : ProducerPc → Prop
  | .waitGo => made = [] ∧ resting []
  | .stamp i => i < p.total ∧ made.length = i ∧ resting made
  | .put i item => i < p.total ∧ ∃ before, made = before ++ [item] ∧ before.length = i ∧
    putting before item
  | .finished => made.length = p.total ∧ resting made

section Making

variable {made : List Item} {resting : List Item → Prop} {putting : List Item → Item → Prop}

theorem making_head {i : Nat} (hle : i ≤ p.total) (hmade : made.length = i) (hrest : resting made) :
    Making p made resting putting (loopHead p i) := by
  unfold loopHead
  split
  · rename_i hlt
    exact ⟨hlt, hmade, hrest⟩
  · exact ⟨by omega, hrest⟩

theorem Making.length_le {pc : ProducerPc} (h : Making p made resting putting pc) :
    made.length ≤ p.total := by
  cases pc with
  | waitGo => simp [h.1]
  | stamp i => exact Nat.le_of_lt (h.2.1 ▸ h.1)
  | put i item =>
    obtain ⟨hlt, before, rfl, rfl, _⟩ := h
    rw [List.length_append]
    exact hlt
  | finished => exact Nat.le_of_eq h.1

/-- What the queue has are the first of the items made. -/
theorem Making.first {pc : ProducerPc} {log : List Item} (h : Making p made resting putting pc)
    (hrest : ∀ l, resting l → log <+: l)
    (hput : ∀ before item, putting before item → log <+: before ++ [item]) : log <+: made := by
  cases pc with
  | waitGo =>
    rw [h.1]
    exact hrest _ h.2
  | stamp i => exact hrest _ h.2.2
  | put i item =>
    obtain ⟨_, before, rfl, _, hp⟩ := h
    exact hput _ _ hp
  | finished => exact hrest _ h.2

/-- While the queue is not at rest the producer is calling it. -/
theorem Making.calling {pc : ProducerPc} (h : Making p made resting putting pc)
    (hbusy : ∀ l, ¬ resting l) : ∃ i item before, pc = .put i item ∧ i < p.total ∧
      made = before ++ [item] ∧ before.length = i ∧ putting before item := by
  cases pc with
  | waitGo => exact absurd h.2 (hbusy _)
  | stamp i => exact absurd h.2.2 (hbusy _)
  | put i item =>
    obtain ⟨hlt, before, hmade, hlen, hput⟩ := h
    exact ⟨i, item, before, rfl, hlt, hmade, hlen, hput⟩
  | finished => exact absurd h.2 (hbusy _)

theorem Making.imp {resting' : List Item → Prop} {putting' : List Item → Item → Prop}
    {pc : ProducerPc} (h : Making p made resting putting pc) (hrest : ∀ l, resting l → resting' l)
    (hput : ∀ before item, putting before item → putting' before item) :
    Making p made resting' putting' pc := by
  cases pc with
  | waitGo => exact ⟨h.1, hrest _ h.2⟩
  | stamp i => exact ⟨h.1, h.2.1, hrest _ h.2.2⟩
  | put i item =>
    obtain ⟨hlt, before, hmade, hlen, hp⟩ := h
    exact ⟨hlt, before, hmade, hlen, hput _ _ hp⟩
  | finished => exact ⟨h.1, hrest _ h.2⟩

/-- The producer's steps between its calls: it starts, or it makes the next item. -/
theorem Making.own {ns : BitVec 64} (h : Making p made resting putting s.producer)
    (hput : ∀ before item, resting before → putting before item)
    (hpayloads : made.map Item.payload = (List.range made.length).map payload)
    (hs : stepProducer p s ns = some (s', es)) :
    ∃ pc, s' = { s with producer := pc } ∧ s.producer ≠ .finished ∧ counted es = [] ∧
      printed es = [] ∧ Making p (made ++ stamped es) resting putting pc ∧
      (made ++ stamped es).map Item.payload =
        (List.range (made ++ stamped es).length).map payload := by
  unfold stepProducer at hs
  cases hpc : s.producer with
  | waitGo =>
    rw [hpc] at h
    simp only [hpc] at hs
    split at hs
    · simp only [Option.some.injEq, Prod.mk.injEq] at hs
      obtain ⟨rfl, rfl⟩ := hs
      obtain ⟨rfl, hrest⟩ := h
      exact ⟨_, rfl, by simp, rfl, rfl, making_head (Nat.zero_le _) rfl hrest, hpayloads⟩
    · cases hs
  | stamp i =>
    rw [hpc] at h
    simp only [hpc, Option.some.injEq, Prod.mk.injEq] at hs
    obtain ⟨rfl, rfl⟩ := hs
    obtain ⟨hlt, hlen, hrest⟩ := h
    refine ⟨_, rfl, by simp, rfl, rfl, ⟨hlt, made, rfl, hlen, hput _ _ hrest⟩, ?_⟩
    rw [List.map_append, hpayloads, List.length_append, show (stamped
      [Event.stamped ⟨ns.toInt, payload i⟩]).length = 1 from rfl, List.range_succ,
      List.map_append, hlen]
    rfl
  | put i item =>
    simp only [hpc] at hs
    cases hs
  | finished =>
    simp only [hpc] at hs
    cases hs

theorem producer_waits {ns : BitVec 64} (hs : stepProducer p s ns = some (s', es))
    (hpc : s.producer = .waitGo) : s.go = true := by
  unfold stepProducer at hs
  simp only [hpc] at hs
  split at hs
  · assumption
  · cases hs

end Making

/-- The samples of all consumers. -/
def allSamples (s : State n C D) : Multiset Nat := ∑ i, ((s.recs i).samples : Multiset Nat)

/-- Noting a latency touches one recorder, by the sample the item is worth. -/
theorem note_latency_spec {i : Fin n} {k : Nat} {item : Item} {now : Int}
    (h : noteLatency p s i k item now = some s') :
    ∃ r, s' = { s with recs := Function.update s.recs i r } ∧
      r.samples = (s.recs i).samples ++ if k < p.warmup then [] else measured item now := by
  unfold noteLatency at h
  by_cases hk : k < p.warmup
  · rw [if_pos hk] at h
    obtain rfl := Option.some.inj h
    exact ⟨s.recs i, by rw [Function.update_eq_self], by simp [hk]⟩
  · simp only [if_neg hk] at h
    split at h
    · by_cases hpos : 0 ≤ now - item.enqueueNs
      · rw [if_pos hpos] at h
        obtain rfl := Option.some.inj h
        exact ⟨_, rfl, by rw [if_neg hk, measured, if_pos hpos]; rfl⟩
      · rw [if_neg hpos] at h
        obtain rfl := Option.some.inj h
        refine ⟨s.recs i, by rw [Function.update_eq_self], ?_⟩
        rw [if_neg hk, measured, if_neg hpos, List.append_nil]
    · cases h

theorem all_samples_update {i : Fin n} {r : LatencyRecorder} {more : List Nat}
    (hs : s'.recs = Function.update s.recs i r) (hr : r.samples = (s.recs i).samples ++ more) :
    allSamples s' = allSamples s + more := by
  have hsum := sum_update (fun r : LatencyRecorder => (r.samples : Multiset Nat)) s.recs i r
  rw [hr, ← Multiset.coe_add, add_comm ((s.recs i).samples : Multiset Nat), ← add_assoc,
    add_left_inj] at hsum
  rw [allSamples, hs]
  exact hsum

/-- How many consumers have been joined. -/
def joined (n : Nat) : MainPc → Nat
  | .start | .joinProducer => 0
  | .joinConsumer j => j
  | .merge _ _ | .reported => n

/-- What is printed for the given samples. -/
def report (p : Plan n) (samples : Multiset Nat) : List Answer :=
  (Tally.printReport p.ranks ⟨fun _ => samples, p.headerPrinted⟩ () p.label).2

theorem print_report_eq (p : Plan n) (merged : LatencyRecorder) :
    printReport p merged = report p merged.samples :=
  (Holds.print_report (x := ⟨fun _ => merged, p.headerPrinted⟩) ⟨fun _ => rfl, rfl⟩ () p.label).2

/-- What the starting thread knows: whom it has joined, what it has merged and
what has been printed. -/
structure MainOk (p : Plan n) (exited : C → Bool) (tr : List (Event n)) (s : State n C D) :
    Prop where
  producer : s.main ≠ .start → s.main ≠ .joinProducer → s.producer = .finished
  consumers : ∀ i : Fin n, i.val < joined n s.main → exited (s.consumers i) = true
  merged : ∀ j m, s.main = .merge j m → (m.samples : Multiset Nat) =
    ((List.ofFn (fun i => ((s.recs i).samples : Multiset Nat))).take j).sum
  printed : printed tr = [] ∧ s.main ≠ .reported ∨
    s.main = .reported ∧ Benchmark.printed tr = [report p (allSamples s)]

theorem MainOk.reported (h : MainOk p exited tr s) (hm : s.main = .reported) :
    s.producer = .finished ∧ (∀ i, exited (s.consumers i) = true) ∧
      Benchmark.printed tr = [report p (allSamples s)] := by
  refine ⟨h.producer (by simp [hm]) (by simp [hm]), fun i => h.consumers i ?_, ?_⟩
  · rw [hm]
    exact i.isLt
  · exact (h.printed.resolve_left (fun h => h.2 hm)).2

/-- Before anything is printed the label is open. -/
theorem MainOk.unprinted {p' : Plan n} (h : MainOk p exited tr s) (hm : s.main ≠ .reported) :
    MainOk p' exited tr s :=
  ⟨h.producer, h.consumers, h.merged, .inl (h.printed.resolve_right (fun h => hm h.1))⟩

/-- A step of another thread: one that has ended takes none. -/
structure Aside (exited : C → Bool) (s s' : State n C D) : Prop where
  main : s'.main = s.main
  producer : s.producer = .finished → s'.producer = .finished
  consumers : ∀ i, exited (s.consumers i) = true →
    exited (s'.consumers i) = true ∧ s'.recs i = s.recs i

theorem Aside.refl : Aside exited s s := ⟨rfl, id, fun _ h => ⟨h, rfl⟩⟩

theorem Aside.at_consumer {i : Fin n} {pc : C} {r : LatencyRecorder} {d : D}
    (hi : exited (s.consumers i) = false) : Aside exited s
      ({ s with shared := d, recs := Function.update s.recs i r }.atConsumer i pc) := by
  refine ⟨rfl, id, ?_⟩
  intro j hj
  have hne : j ≠ i := by
    rintro rfl
    simp [hi] at hj
  simp only [State.atConsumer, Function.update_of_ne hne]
  exact ⟨hj, trivial⟩

theorem MainOk.aside (h : MainOk p exited tr s) (hs : Aside exited s s')
    (hes : Benchmark.printed es = []) : MainOk p exited (tr ++ es) s' := by
  have hjoined : ∀ i : Fin n, i.val < joined n s.main → s'.recs i = s.recs i :=
    fun i hi => (hs.consumers i (h.consumers i hi)).2
  have hall : joined n s.main = n → s'.recs = s.recs :=
    fun hn => funext fun i => hjoined i (by rw [hn]; exact i.isLt)
  refine ⟨?_, ?_, ?_, ?_⟩
  · rw [hs.main]
    exact fun h1 h2 => hs.producer (h.producer h1 h2)
  · intro i hi
    rw [hs.main] at hi
    exact (hs.consumers i (h.consumers i hi)).1
  · intro j m hm
    rw [hs.main] at hm
    rw [hall (by rw [hm]; rfl)]
    exact h.merged j m hm
  · rw [printed_append, hes, List.append_nil, hs.main]
    refine h.printed.imp id (fun ⟨hm, hp⟩ => ⟨hm, ?_⟩)
    rw [allSamples, hall (by rw [hm]; rfl)]
    exact hp

/-- A step that prints nothing. -/
theorem MainOk.goes (h : MainOk p exited tr s) (hm : s.main ≠ .reported) {pc : MainPc}
    (hpc : pc ≠ .reported) (hproducer : pc ≠ .start → pc ≠ .joinProducer → s.producer = .finished)
    (hconsumers : ∀ i : Fin n, i.val < joined n pc → exited (s.consumers i) = true)
    (hmerged : ∀ j m, pc = .merge j m → (m.samples : Multiset Nat) =
      ((List.ofFn (fun i => ((s.recs i).samples : Multiset Nat))).take j).sum) (g : Bool) :
    MainOk p exited (tr ++ []) { s with go := g, main := pc } := by
  refine ⟨hproducer, hconsumers, hmerged, .inl ⟨?_, hpc⟩⟩
  rw [List.append_nil]
  exact (h.printed.resolve_right (fun h => hm h.1)).1

/-- The last step prints the report of all samples. -/
theorem MainOk.prints (h : MainOk p exited tr s) {j : Nat} {m : LatencyRecorder}
    (hm : s.main = .merge j m) (hj : ¬ j < n) :
    MainOk p exited (tr ++ [.printed (printReport p m)]) { s with main := .reported } := by
  have hp := h.producer (by simp [hm]) (by simp [hm])
  have hmerged := h.merged j m hm
  have hnot := (h.printed.resolve_right (fun h => absurd h.1 (by simp [hm]))).1
  rw [List.take_of_length_le (by rw [List.length_ofFn]; omega), List.sum_ofFn] at hmerged
  refine ⟨fun _ _ => hp, fun i _ => h.consumers i ?_, fun _ _ he => MainPc.noConfusion he,
    .inr ⟨rfl, ?_⟩⟩
  · rw [hm]
    exact i.isLt
  · rw [printed_append, hnot, print_report_eq, hmerged]
    rfl

/-- A step of the starting thread leaves the others alone. -/
theorem MainOk.step (h : MainOk p exited tr s) (hs : stepMain p exited s = some (s', es)) :
    MainOk p exited (tr ++ es) s' ∧
      s' = { s with go := s'.go, main := s'.main } ∧ stamped es = [] ∧ counted es = [] := by
  unfold stepMain at hs
  cases hm : s.main with
  | start =>
    simp only [hm, Option.some.injEq, Prod.mk.injEq] at hs
    obtain ⟨rfl, rfl⟩ := hs
    refine ⟨h.goes (by simp [hm]) (by simp) (by simp) ?_ ?_ _, rfl, rfl, rfl⟩
    · exact fun _ hi => absurd hi (Nat.not_lt_zero _)
    · exact fun _ _ he => MainPc.noConfusion he
  | joinProducer =>
    simp only [hm] at hs
    split at hs
    · rename_i hp
      simp only [Option.some.injEq, Prod.mk.injEq] at hs
      obtain ⟨rfl, rfl⟩ := hs
      refine ⟨h.goes (by simp [hm]) (by simp) (fun _ _ => hp) ?_ ?_ _, rfl, rfl, rfl⟩
      · exact fun _ hi => absurd hi (Nat.not_lt_zero _)
      · exact fun _ _ he => MainPc.noConfusion he
    · cases hs
  | joinConsumer j =>
    have hp := h.producer (by simp [hm]) (by simp [hm])
    have hbefore := h.consumers
    simp only [hm, joined] at hs hbefore
    split at hs
    · rename_i hj
      split at hs
      · rename_i hexit
        simp only [Option.some.injEq, Prod.mk.injEq] at hs
        obtain ⟨rfl, rfl⟩ := hs
        refine ⟨h.goes (by simp [hm]) (by simp) (fun _ _ => hp) ?_ ?_ _, rfl, rfl, rfl⟩
        · intro i hi
          rcases Nat.lt_succ_iff_lt_or_eq.mp hi with hlt | heq
          · exact hbefore i hlt
          · obtain rfl : i = ⟨j, hj⟩ := Fin.ext heq
            exact hexit
        · exact fun _ _ he => MainPc.noConfusion he
      · cases hs
    · rename_i hj
      simp only [Option.some.injEq, Prod.mk.injEq] at hs
      obtain ⟨rfl, rfl⟩ := hs
      refine ⟨h.goes (by simp [hm]) (by simp) (fun _ _ => hp) ?_ ?_ _, rfl, rfl, rfl⟩
      · exact fun i _ => hbefore i (by omega)
      · intro j m he
        obtain ⟨rfl, rfl⟩ := MainPc.merge.inj he
        simp [LatencyRecorder.new]
  | merge j m =>
    have hp := h.producer (by simp [hm]) (by simp [hm])
    have hbefore := h.consumers
    have hmerged := h.merged j m hm
    simp only [hm, joined] at hs hbefore
    split at hs
    · rename_i hj
      simp only [Option.some.injEq, Prod.mk.injEq] at hs
      obtain ⟨rfl, rfl⟩ := hs
      refine ⟨h.goes (by simp [hm]) (by simp) (fun _ _ => hp) ?_ ?_ _, rfl, rfl, rfl⟩
      · exact fun i _ => hbefore i i.isLt
      · intro j' m' he
        obtain ⟨rfl, rfl⟩ := MainPc.merge.inj he
        rw [List.sum_take_succ _ _ (by simpa using hj), List.getElem_ofFn, ← hmerged]
        rfl
    · rename_i hj
      simp only [Option.some.injEq, Prod.mk.injEq] at hs
      obtain ⟨rfl, rfl⟩ := hs
      exact ⟨h.prints hm hj, rfl, rfl, rfl⟩
  | reported =>
    simp only [hm] at hs
    cases hs

theorem main_goes (hs : stepMain p exited s = some (s', es)) :
    s'.main ≠ .start ∧ (s'.go = true ∨ s'.go = s.go) := by
  unfold stepMain at hs
  repeat' split at hs
  all_goals
    cases hs
    try exact ⟨by simp, .inr rfl⟩
  exact ⟨by simp, .inl rfl⟩

/-- One item and one consumer, no warmup. -/
def oneItem : Plan 1 :=
  ⟨"one", 0, 1, ⟨id, id, id, id, id, id⟩, false, by decide, Nat.one_pos⟩

end Toolbox.Proofs.BenchmarkThreads
