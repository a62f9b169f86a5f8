import Mathlib.Algebra.Order.BigOperators.Group.Finset
import Mathlib.Algebra.Order.BigOperators.Group.Multiset
import Toolbox.Proofs.BenchmarkThreads
import Toolbox.Proofs.SpmcHandoff
import Toolbox.Proofs.SpscHandoff

namespace Toolbox.Proofs.BenchmarkPop
open Base Latency Benchmark BenchmarkThreads
open Tsc (Item)

variable {n bound : Nat} {p : Plan n} {k k' : PopState n} {x x' : Handoff.State n Item}
  {tr es : List (Handoff.Event n Item ⊕ Event n)} {made : List Item}

/-- The queue has the items `l` and is not in a push. -/
def Resting (x : Handoff.State n Item) (l : List Item) : Prop := x.log = l ∧ x.push = .idle

/-- The queue has the items `before`, and maybe already the one it is called with. -/
def Putting (x : Handoff.State n Item) (before : List Item) (item : Item) : Prop :=
  x.log = before ∧ (x.push = .idle ∨ x.push = .offered .tries (some item)) ∨
    x.log = before ++ [item] ∧ x.push = .stored

theorem making_keep {pc : ProducerPc} (h : Making p made (Resting x) (Putting x) pc)
    (hlog : x'.log = x.log) (hpush : x'.push = x.push) :
    Making p made (Resting x') (Putting x') pc := by
  refine h.imp ?_ ?_
  · intro l hl
    rwa [Resting, hlog, hpush]
  · intro before item hp
    rwa [Putting, hlog, hpush]

theorem log_first {pc : ProducerPc} (h : Making p made (Resting x) (Putting x) pc) :
    x.log <+: made := by
  refine h.first ?_ ?_
  · rintro l ⟨rfl, _⟩
    exact List.prefix_refl _
  · rintro before item (⟨rfl, _⟩ | ⟨hlog, _⟩)
    · exact List.prefix_append _ _
    · rw [hlog]

/-- The item that a consumer has popped and not yet counted. -/
def uncounted : PopPc → List Item
  | .read item | .count item _ => [item]
  | .waitGo | .check | .poll | .finished => []

/-- The items counted, in the order of `fetch_add`. -/
def items (tr : List (Event n)) : List Item := (counted tr).map (fun c => c.2.1)

theorem items_append (tr es : List (Event n)) : items (tr ++ es) = items tr ++ items es := by
  simp [items]

/-- The program at work on a queue whose operations take effect in one step. -/
structure Inv (p : Plan n) (tr : List (Handoff.Event n Item ⊕ Event n)) (k : PopState n)
    (x : Handoff.State n Item) : Prop where
  main : MainOk p PopPc.exited (Client.told tr) k
  making : Making p (stamped (Client.told tr)) (Resting x) (Putting x) k.producer
  payloads : (stamped (Client.told tr)).map Item.payload =
    (List.range (stamped (Client.told tr)).length).map payload
  polling : ∀ i, x.pops i ≠ .idle → k.consumers i = .poll
  popped : ((Handoff.given (Client.heard tr)).map Prod.snd : Multiset Item) =
    items (Client.told tr) + ∑ i, (uncounted (k.consumers i) : Multiset Item)
  mine : ∀ i, Handoff.givenTo i (Client.heard tr) =
    (countedBy i (Client.told tr)).map Prod.fst ++ uncounted (k.consumers i)
  count : k.shared = (counted (Client.told tr)).length
  samples : allSamples k = latencies p ((counted (Client.told tr)).map Prod.snd)
  exits : ∀ i, k.consumers i = .finished → k.shared = p.total

/-- What is popped has been put in, so no more is popped than is made. -/
theorem Inv.count_le (h : Inv p tr k x) (ha : Handoff.Accounted (Client.heard tr) x) :
    k.shared + ∑ i, (uncounted (k.consumers i)).length ≤ p.total := by
  have hlog := (log_first h.making).length_le
  have hle : (Handoff.given (Client.heard tr)).length ≤ x.log.length := by
    have hcard := congrArg Multiset.card ha.items
    simp only [Multiset.card_add, Multiset.coe_card, List.length_map, List.length_take] at hcard
    omega
  have hcard := congrArg Multiset.card h.popped
  simp only [Multiset.card_add, Multiset.coe_card, List.length_map, Multiset.card_sum,
    items] at hcard
  rw [h.count, ← hcard]
  exact Nat.le_trans hle (Nat.le_trans hlog h.making.length_le)

/-- A step that only moves the queue, or shows the program nothing it keeps. -/
theorem Inv.silent (h : Inv p tr k x) {ds : List (Handoff.Event n Item)}
    (hmaking : Making p (stamped (Client.told tr)) (Resting x') (Putting x') k.producer)
    (hpolling : ∀ i, x'.pops i ≠ .idle → k.consumers i = .poll)
    (hgiven : Handoff.given ds = []) (hto : ∀ i, Handoff.givenTo i ds = []) :
    Inv p (tr ++ ds.map .inl) k x' := by
  refine ⟨?_, ?_, ?_, hpolling, ?_, ?_, ?_, ?_, h.exits⟩
  · simpa using h.main
  · simpa using hmaking
  · simpa using h.payloads
  · simpa [hgiven] using h.popped
  · simpa [hto] using h.mine
  · simpa using h.count
  · simpa using h.samples

theorem making_offered {pc : ProducerPc} (h : Making p made (Resting x) (Putting x) pc)
    {how : Handoff.Manner} {arg : Option Item} (hp : x.push = .offered how arg) :
    ∃ i item, pc = .put i item ∧
      arg = some item ∧ i < p.total ∧ made = x.log ++ [item] ∧ x.log.length = i := by
  obtain ⟨i, item, before, hpc, hlt, hmade, hlen, hput⟩ :=
    h.calling (fun l hl => by cases hp.symm.trans hl.2)
  rcases hput with ⟨rfl, hidle | hoffered⟩ | ⟨_, hstored⟩
  · cases hp.symm.trans hidle
  · exact ⟨i, item, hpc, (Handoff.PushPc.offered.inj (hp.symm.trans hoffered)).2, hlt, hmade, hlen⟩
  · cases hp.symm.trans hstored

theorem making_stored {pc : ProducerPc} (h : Making p made (Resting x) (Putting x) pc)
    (hp : x.push = .stored) :
    ∃ i item, pc = .put i item ∧ i < p.total ∧ made.length = i + 1 ∧ x.log = made := by
  obtain ⟨i, item, before, hpc, hlt, rfl, hlen, hput⟩ :=
    h.calling (fun l hl => by cases hp.symm.trans hl.2)
  rcases hput with ⟨_, hidle | hoffered⟩ | ⟨hlog, _⟩
  · cases hp.symm.trans hidle
  · cases hp.symm.trans hoffered
  · exact ⟨i, item, hpc, hlt, by rw [List.length_append, hlen]; rfl, hlog⟩

/-- The queue's pops are those of the consumers that poll. -/
theorem polling_at_pop (h : ∀ i, x.pops i ≠ .idle → k.consumers i = .poll) {i : Fin n}
    {c : Handoff.PopPc Item} (hi : k.consumers i = .poll) (j : Fin n)
    (hj : (x.atPop i c).pops j ≠ .idle) : k.consumers j = .poll := by
  rw [Handoff.pops_at_pop] at hj
  split at hj
  · rename_i he
    rw [he, hi]
  · exact h j hj

/-- A consumer leaves its call: the queue shows it done. -/
theorem polling_done (h : ∀ i, x.pops i ≠ .idle → k.consumers i = .poll) {i : Fin n} {pc : PopPc}
    (j : Fin n) (hj : (x.atPop i .idle).pops j ≠ .idle) :
    (k.atConsumer i pc).consumers j = .poll := by
  rw [Handoff.pops_at_pop] at hj
  split at hj
  · exact absurd rfl hj
  · rename_i hne
    simp only [State.atConsumer, Function.update_of_ne hne]
    exact h j hj

/-- A consumer that has not ended goes elsewhere, with nothing counted. -/
theorem Inv.at_consumer (h : Inv p tr k x) {i : Fin n} {pc : PopPc}
    (hi : k.consumers i ≠ .finished) (hpc : pc = .finished → k.shared = p.total)
    (hunc : uncounted pc = uncounted (k.consumers i))
    (hpolling : ∀ j, x'.pops j ≠ .idle → (k.atConsumer i pc).consumers j = .poll)
    (hlog : x'.log = x.log) (hpush : x'.push = x.push) {es : List (Handoff.Event n Item ⊕ Event n)}
    (hheard : Client.heard es = [] ∨ ∃ d, Client.heard es = [.nothing d])
    (htold : Client.told es = []) : Inv p (tr ++ es) (k.atConsumer i pc) x' := by
  have hsum := sum_update (fun pc => (uncounted pc : Multiset Item)) k.consumers i pc
  rw [hunc, add_left_inj] at hsum
  have hgiven : Handoff.given (Client.heard es) = [] := by
    rcases hheard with he | ⟨d, he⟩ <;> rw [he] <;> rfl
  have hto : ∀ j, Handoff.givenTo j (Client.heard es) = [] := by
    intro j
    rcases hheard with he | ⟨d, he⟩ <;> rw [he] <;> rfl
  have hexited : (k.consumers i).exited = false := by
    cases hc : k.consumers i with
    | finished => exact absurd hc hi
    | _ => rfl
  refine ⟨?_, ?_, ?_, hpolling, ?_, ?_, ?_, ?_, ?_⟩
  · have haside : Aside PopPc.exited k
        ({ k with recs := Function.update k.recs i (k.recs i) }.atConsumer i pc) :=
      Aside.at_consumer hexited
    rw [Function.update_eq_self] at haside
    rw [Client.told_append]
    exact h.main.aside haside (by rw [htold]; rfl)
  · rw [Client.told_append, htold, List.append_nil]
    exact making_keep h.making hlog hpush
  · rw [Client.told_append, htold, List.append_nil]
    exact h.payloads
  · rw [Client.heard_append, Client.told_append, htold, Handoff.given_append, hgiven,
      List.append_nil, List.append_nil, h.popped]
    exact congrArg _ hsum.symm
  · intro j
    rw [Client.heard_append, Client.told_append, htold, Handoff.given_to_append, hto,
      List.append_nil, List.append_nil, h.mine]
    congr 1
    simp only [State.atConsumer, Function.update_apply]
    split
    · rename_i hj
      rw [hj, hunc]
    · rfl
  · rw [Client.told_append, htold, List.append_nil]
    exact h.count
  · rw [Client.told_append, htold, List.append_nil]
    exact h.samples
  · intro j hj
    simp only [State.atConsumer, Function.update_apply] at hj
    split at hj
    · exact hpc hj
    · exact h.exits j hj

/-- A consumer gets an item. -/
theorem Inv.given (h : Inv p tr k x) {i : Fin n} {item : Item} (hi : k.consumers i = .poll) :
    Inv p (tr ++ [.inl (.given i item)]) (k.atConsumer i (.read item)) (x.atPop i .idle) := by
  have hsum := sum_update (fun pc => (uncounted pc : Multiset Item)) k.consumers i (.read item)
  simp only [hi, show uncounted .poll = [] from rfl, Multiset.coe_nil, add_zero] at hsum
  have hes : Client.told [(.inl (.given i item) : Handoff.Event n Item ⊕ Event n)] = [] := rfl
  have hheard : Client.heard [(.inl (.given i item) : Handoff.Event n Item ⊕ Event n)] =
    [.given i item] := rfl
  refine ⟨?_, ?_, ?_, polling_done h.polling, ?_, ?_, ?_, ?_, ?_⟩
  · have haside : Aside PopPc.exited k
        ({ k with recs := Function.update k.recs i (k.recs i) }.atConsumer i (.read item)) :=
      Aside.at_consumer (by rw [hi]; rfl)
    rw [Function.update_eq_self] at haside
    rw [Client.told_append]
    exact h.main.aside haside rfl
  · rw [Client.told_append, hes, List.append_nil]
    exact making_keep h.making rfl rfl
  · rw [Client.told_append, hes, List.append_nil]
    exact h.payloads
  · rw [Client.heard_append, Client.told_append, hes, hheard, Handoff.given_append,
      List.map_append, ← Multiset.coe_add, h.popped, List.append_nil, add_assoc]
    exact congrArg _ hsum.symm
  · intro j
    rw [Client.heard_append, Client.told_append, hes, hheard, Handoff.given_to_append,
      List.append_nil, h.mine]
    simp only [State.atConsumer, Function.update_apply, Handoff.givenTo]
    by_cases hj : j = i
    · simp [hj, hi, uncounted]
    · simp [hj, Ne.symm hj]
  · rw [Client.told_append, hes, List.append_nil]
    exact h.count
  · rw [Client.told_append, hes, List.append_nil]
    exact h.samples
  · intro j hj
    simp only [State.atConsumer, Function.update_apply] at hj
    split at hj
    · cases hj
    · exact h.exits j hj

/-- A step of the producer thread, its calls included. -/
theorem Inv.producer (h : Inv p tr k x) {pc : ProducerPc} {more : List Item}
    {es : List (Handoff.Event n Item ⊕ Event n)} (hpc : k.producer ≠ .finished)
    (hstamped : stamped (Client.told es) = more) (hcounted : counted (Client.told es) = [])
    (hby : ∀ i, countedBy i (Client.told es) = [])
    (hprinted : printed (Client.told es) = []) (hgiven : Handoff.given (Client.heard es) = [])
    (hto : ∀ i, Handoff.givenTo i (Client.heard es) = [])
    (hmaking : Making p (stamped (Client.told tr) ++ more) (Resting x') (Putting x') pc)
    (hpayloads : (stamped (Client.told tr) ++ more).map Item.payload =
      (List.range (stamped (Client.told tr) ++ more).length).map payload)
    (hpops : x'.pops = x.pops) : Inv p (tr ++ es) { k with producer := pc } x' := by
  refine ⟨?_, ?_, ?_, ?_, ?_, ?_, ?_, ?_, h.exits⟩
  · rw [Client.told_append]
    exact h.main.aside ⟨rfl, fun h => absurd h hpc, fun _ h => ⟨h, rfl⟩⟩ hprinted
  · simpa [hstamped] using hmaking
  · simpa [hstamped] using hpayloads
  · rw [hpops]
    exact h.polling
  · simpa [hgiven, items, hcounted] using h.popped
  · simpa [hto, hby] using h.mine
  · simpa [hcounted] using h.count
  · rw [Client.told_append, counted_append, hcounted, List.append_nil]
    exact h.samples

theorem machine_step_inv (h : Inv p tr k x) {a : Handoff.Act n Item}
    {ds : List (Handoff.Event n Item)} (hm : Handoff.Move bound x a x' ds)
    (hk : ds.foldlM (popBenchmarkHears p) k = some k') : Inv p (tr ++ ds.map .inl) k' x' := by
  have hnone : ∀ (pc : Handoff.PushPc Item) i, (x.atPush pc).pops i ≠ .idle →
      k.consumers i = .poll := fun _ => h.polling
  cases hm with
  | @offer how arg hp =>
    simp only [List.foldlM_cons, List.foldlM_nil, popBenchmarkHears, bind_pure] at hk
    split at hk
    · rename_i i item hpc
      split at hk
      · rename_i hcall
        obtain ⟨rfl, harg⟩ := hcall
        obtain rfl := Option.some.inj hk
        refine h.silent ?_ (hnone _) rfl (fun _ => rfl)
        have hmaking := h.making
        rw [hpc] at hmaking ⊢
        obtain ⟨hlt, before, hmade, hlen, ⟨hlog, _⟩ | ⟨_, hstored⟩⟩ := hmaking
        · exact ⟨hlt, before, hmade, hlen, .inl ⟨hlog, .inr (by rw [Handoff.push_at_push, harg])⟩⟩
        · cases hp.symm.trans hstored
      · cases hk
    · cases hk
  | @store how v hp hroom =>
    obtain rfl := Option.some.inj hk
    obtain ⟨i, item, hpc, hv, hlt, hmade, hlen⟩ := making_offered h.making hp
    obtain rfl := Option.some.inj hv
    refine h.silent ?_ h.polling rfl (fun _ => rfl)
    rw [hpc]
    exact ⟨hlt, x.log, hmade, hlen, .inr ⟨rfl, rfl⟩⟩
  | @refuse arg hp hroom =>
    simp only [List.foldlM_cons, List.foldlM_nil, popBenchmarkHears, bind_pure,
      Option.some.injEq] at hk
    subst hk
    obtain ⟨i, item, hpc, hv, hlt, hmade, hlen⟩ := making_offered h.making hp
    refine h.silent ?_ (hnone _) rfl (fun _ => rfl)
    rw [hpc]
    exact ⟨hlt, x.log, hmade, hlen, .inl ⟨rfl, .inl rfl⟩⟩
  | throw hp hroom =>
    simp only [List.foldlM_cons, List.foldlM_nil, popBenchmarkHears, bind_pure] at hk
    cases hk
  | finish hp =>
    obtain ⟨i, item, hpc, hlt, hlen, hlog⟩ := making_stored h.making hp
    simp only [List.foldlM_cons, List.foldlM_nil, popBenchmarkHears, hpc, bind_pure,
      Option.some.injEq] at hk
    subst hk
    refine h.producer (by simp [hpc]) (rfl : _ = []) rfl (fun _ => rfl) rfl rfl (fun _ => rfl)
      ?_ ?_ rfl
    · rw [List.append_nil]
      exact making_head hlt hlen ⟨hlog, rfl⟩
    · rw [List.append_nil]
      exact h.payloads
  | @ask i how hc =>
    simp only [List.foldlM_cons, List.foldlM_nil, popBenchmarkHears, bind_pure] at hk
    split at hk
    · rename_i hpoll
      split at hk
      · obtain rfl := Option.some.inj hk
        exact h.silent (making_keep h.making rfl rfl) (polling_at_pop h.polling hpoll) rfl
          (fun _ => rfl)
      · cases hk
    · cases hk
  | @take i how v hc hv =>
    obtain rfl := Option.some.inj hk
    have hpoll := h.polling i (by simp [hc])
    refine h.silent (making_keep h.making rfl rfl) ?_ rfl (fun _ => rfl)
    exact polling_at_pop (x := { x with taken := x.taken + 1 }) h.polling hpoll
  | @miss i hc hv =>
    have hpoll := h.polling i (by simp [hc])
    simp only [List.foldlM_cons, List.foldlM_nil, popBenchmarkHears, hpoll, bind_pure,
      Option.some.injEq] at hk
    subst hk
    exact h.at_consumer (by simp [hpoll]) (by simp) (by rw [hpoll]; rfl) (polling_done h.polling)
      rfl rfl (.inr ⟨i, rfl⟩) rfl
  | @release i q v hc =>
    obtain rfl := Option.some.inj hk
    have hpoll := h.polling i (by simp [hc])
    exact h.silent (making_keep h.making rfl rfl) (polling_at_pop h.polling hpoll) rfl (fun _ => rfl)
  | @give i v hc =>
    have hpoll := h.polling i (by simp [hc])
    simp only [List.foldlM_cons, List.foldlM_nil, popBenchmarkHears, hpoll, bind_pure,
      Option.some.injEq] at hk
    subst hk
    exact h.given hpoll

theorem main_step_inv (h : Inv p tr k x) {rs : List (Event n)}
    (hs : stepMain p PopPc.exited k = some (k', rs)) : Inv p (tr ++ rs.map .inr) k' x := by
  obtain ⟨hmain, hk, hstamped, hcounted⟩ := h.main.step hs
  have hby := fun i => counted_by_nil hcounted i
  rw [hk] at hmain ⊢
  refine ⟨?_, ?_, ?_, h.polling, ?_, ?_, ?_, ?_, h.exits⟩
  · simpa using hmain
  · simpa [hstamped] using h.making
  · simpa [hstamped] using h.payloads
  · simpa [items, hcounted] using h.popped
  · simpa [hby] using h.mine
  · simpa [hcounted] using h.count
  · rw [Client.told_append, Client.told_inr, counted_append, hcounted, List.append_nil]
    exact h.samples

theorem producer_step_inv (h : Inv p tr k x) {ns : BitVec 64} {rs : List (Event n)}
    (hs : stepProducer p k ns = some (k', rs)) : Inv p (tr ++ rs.map .inr) k' x := by
  obtain ⟨pc, rfl, hpc, hcounted, hprinted, hmaking, hpayloads⟩ :=
    h.making.own (fun _ _ hrest => .inl ⟨hrest.1, .inl hrest.2⟩) h.payloads hs
  refine h.producer hpc (by rw [Client.told_inr]) (by rw [Client.told_inr, hcounted]) ?_
    (by rw [Client.told_inr, hprinted]) (by rw [Client.heard_inr]; rfl)
    (fun _ => by rw [Client.heard_inr]; rfl) hmaking hpayloads rfl
  intro i
  rw [Client.told_inr, counted_by_nil hcounted]

/-- A consumer counts its item: the counter stays below `2 ^ 64`, and the order of
the counts says whose sample is kept. -/
theorem Inv.count_step (h : Inv p tr k x) (ha : Handoff.Accounted (Client.heard tr) x) {i : Fin n}
    {item : Item} {now : Int} (hc : k.consumers i = .count item now) {s' : PopState n}
    (hnote : noteLatency p { k with shared := (k.shared + 1) % 2 ^ 64 } i k.shared item now =
      some s') :
    Inv p (tr ++ [.inr (.counted i item now)]) (s'.atConsumer i .check) x := by
  have hbound := h.count_le ha
  have hone : (uncounted (k.consumers i)).length ≤
      ∑ j, (uncounted (k.consumers j)).length :=
    Finset.single_le_sum (f := fun j => (uncounted (k.consumers j)).length)
      (fun _ _ => Nat.zero_le _) (Finset.mem_univ i)
  rw [hc, show (uncounted (.count item now)).length = 1 from rfl] at hone
  have hmod : (k.shared + 1) % 2 ^ 64 = k.shared + 1 := by
    have hlt := p.total_lt
    have htotal : p.total = p.warmup + p.measure := rfl
    exact Nat.mod_eq_of_lt (by omega)
  rw [hmod] at hnote
  obtain ⟨r, rfl, hr⟩ := note_latency_spec hnote
  have hsum := sum_update (fun pc => (uncounted pc : Multiset Item)) k.consumers i .check
  simp only [hc, show uncounted .check = [] from rfl, Multiset.coe_nil, add_zero] at hsum
  have htold : Client.told [(.inr (.counted i item now) : Handoff.Event n Item ⊕ Event n)] =
    [.counted i item now] := rfl
  have hheard : Client.heard [(.inr (.counted i item now) : Handoff.Event n Item ⊕ Event n)] =
    [] := rfl
  have hstamped : stamped [Event.counted i item now] = [] := rfl
  have hlength : ((counted (Client.told tr)).map Prod.snd).length = k.shared := by
    rw [List.length_map, h.count]
  refine ⟨?_, ?_, ?_, ?_, ?_, ?_, ?_, ?_, ?_⟩
  · rw [Client.told_append]
    refine h.main.aside ?_ rfl
    have hexited : (k.consumers i).exited = false := by rw [hc]; rfl
    exact Aside.at_consumer hexited
  · rw [Client.told_append, htold, stamped_append, hstamped, List.append_nil]
    exact h.making
  · rw [Client.told_append, htold, stamped_append, hstamped, List.append_nil]
    exact h.payloads
  · intro j hj
    have hpoll := h.polling j hj
    have hne : j ≠ i := by
      rintro rfl
      exact nomatch hpoll.symm.trans hc
    simp only [State.atConsumer, Function.update_of_ne hne]
    exact hpoll
  · rw [Client.heard_append, Client.told_append, hheard, htold, List.append_nil, h.popped,
      items_append, ← Multiset.coe_add, add_assoc,
      add_comm (items [Event.counted i item now] : Multiset Item)]
    exact congrArg _ hsum.symm
  · intro j
    rw [Client.heard_append, Client.told_append, hheard, htold, List.append_nil, h.mine,
      counted_by_append]
    simp only [State.atConsumer, Function.update_apply, countedBy]
    by_cases hj : j = i
    · simp [hj, hc, uncounted]
    · simp [hj, Ne.symm hj]
  · rw [Client.told_append, htold, counted_append, List.length_append, ← h.count]
    rfl
  · rw [Client.told_append, htold, counted_append, List.map_append,
      show (counted [Event.counted i item now]).map Prod.snd = [(item, now)] from rfl,
      latencies_concat, hlength, ← Multiset.coe_add, ← h.samples]
    exact all_samples_update (s := k) rfl hr
  · intro j hj
    simp only [State.atConsumer, Function.update_apply] at hj
    split at hj
    · cases hj
    · have hfull := h.exits j hj
      omega

theorem consumer_step_inv (h : Inv p tr k x) (ha : Handoff.Accounted (Client.heard tr) x)
    {i : Fin n} {ns : BitVec 64} {rs : List (Event n)}
    (hs : stepPopper p k i ns = some (k', rs)) : Inv p (tr ++ rs.map .inr) k' x := by
  have hbound := h.count_le ha
  have hstays : ∀ {pc pc' : PopPc}, k.consumers i = pc → pc ≠ .poll → ∀ j, x.pops j ≠ .idle →
      (k.atConsumer i pc').consumers j = .poll := by
    intro pc pc' hc hne j hj
    have hpoll := h.polling j hj
    have hji : j ≠ i := by
      rintro rfl
      exact hne (hc.symm.trans hpoll)
    simp only [State.atConsumer, Function.update_of_ne hji]
    exact hpoll
  unfold stepPopper at hs
  cases hc : k.consumers i with
  | waitGo =>
    simp only [hc] at hs
    split at hs
    · simp only [Option.some.injEq, Prod.mk.injEq] at hs
      obtain ⟨rfl, rfl⟩ := hs
      exact h.at_consumer (by simp [hc]) (by simp) (by rw [hc]; rfl) (hstays hc (by simp)) rfl rfl
        (.inl rfl) rfl
    · cases hs
  | check =>
    simp only [hc, Option.some.injEq, Prod.mk.injEq] at hs
    obtain ⟨rfl, rfl⟩ := hs
    refine h.at_consumer (by simp [hc]) ?_ ?_ (hstays hc (by simp)) rfl rfl (.inl rfl) rfl
    · split
      · exact fun he => PopPc.noConfusion he
      · intro _
        omega
    · rw [hc]
      split <;> rfl
  | poll =>
    simp only [hc] at hs
    cases hs
  | read item =>
    simp only [hc, Option.some.injEq, Prod.mk.injEq] at hs
    obtain ⟨rfl, rfl⟩ := hs
    exact h.at_consumer (by simp [hc]) (by simp) (by rw [hc]; rfl) (hstays hc (by simp)) rfl rfl
      (.inl rfl) rfl
  | count item now =>
    simp only [hc] at hs
    obtain ⟨s', hnote, he⟩ := Option.map_eq_some_iff.mp hs
    obtain ⟨rfl, rfl⟩ := Prod.mk.inj he
    exact h.count_step ha hc hnote
  | finished =>
    simp only [hc] at hs
    cases hs

theorem run_inv {y : PopState n × Handoff.State n Item}
    (hr : ((runBenchmark p).runs (Handoff.machine n Item bound)).Run tr y) :
    (Handoff.machine n Item bound).Run (Client.heard tr) y.2 ∧ Inv p tr y.1 y.2 := by
  refine Client.invariant (I := fun tr k x => Inv p tr k x) ?_ ?_ ?_ hr
  · refine ⟨⟨?_, ?_, ?_, .inl ⟨rfl, by simp [runBenchmark]⟩⟩, ⟨rfl, rfl, rfl⟩, rfl, ?_, ?_, ?_,
      rfl, ?_, ?_⟩
    · exact fun h => absurd rfl h
    · exact fun _ hi => absurd hi (Nat.not_lt_zero _)
    · exact fun _ _ he => MainPc.noConfusion he
    · exact fun _ h => absurd rfl h
    · simp [runBenchmark, uncounted, items, counted, Handoff.given]
    · exact fun _ => rfl
    · simp [runBenchmark, allSamples, LatencyRecorder.new, latencies, counted]
    · exact fun _ he => PopPc.noConfusion he
  · intro tr k x a k' x' ds _ h hs hk
    exact machine_step_inv h (Handoff.step_moves hs) hk
  · intro tr k x c k' rs hrun h hs
    cases c with
    | main => exact main_step_inv h hs
    | producer ns => exact producer_step_inv h hs
    | consumer i ns => exact consumer_step_inv h (Handoff.run_accounted hrun) hs

/-- What a run of `run_benchmark` comes to. -/
structure Exact (p : Plan n) (tr : List (Event n)) (k : PopState n) : Prop where
  /-- `consumed` stops at the number of items. -/
  counter : k.shared ≤ p.total
  /-- A consumer that gives up polling does so when every item has been popped,
  by one consumer each. -/
  popped : ∀ i, k.consumers i = .finished →
    (items tr).Perm (stamped tr) ∧ (stamped tr).map Item.payload = (List.range p.total).map payload
  /-- No consumer sees items out of order. -/
  order : ∀ i, ((countedBy i tr).map Prod.fst).Sublist (stamped tr)
  /-- The report is that of the latencies of all items counted after the warmup. -/
  report : printed tr = [] ∧ k.main ≠ .reported ∨ k.main = .reported ∧
    (items tr).Perm (stamped tr) ∧
    printed tr = [BenchmarkThreads.report p (latencies p ((counted tr).map Prod.snd))] ∧
    (latencies p ((counted tr).map Prod.snd)).length ≤ p.measure

theorem Inv.items_le (h : Inv p tr k x) (ha : Handoff.Accounted (Client.heard tr) x) :
    (items (Client.told tr) : Multiset Item) ≤ stamped (Client.told tr) :=
  calc (items (Client.told tr) : Multiset Item)
    _ ≤ ((Handoff.given (Client.heard tr)).map Prod.snd : Multiset Item) := by
      rw [h.popped]
      exact Multiset.le_add_right _ _
    _ ≤ (x.log.take x.taken : Multiset Item) := by
      rw [← ha.items]
      exact Multiset.le_add_right _ _
    _ ≤ stamped (Client.told tr) :=
      Multiset.coe_le.mpr ((List.take_sublist _ _).trans (log_first h.making).sublist).subperm

theorem Inv.all_popped (h : Inv p tr k x) (ha : Handoff.Accounted (Client.heard tr) x)
    (hall : k.shared = p.total) : (items (Client.told tr)).Perm (stamped (Client.told tr)) ∧
      (stamped (Client.told tr)).length = p.total := by
  have hlength : (items (Client.told tr)).length = p.total := by
    rw [items, List.length_map, ← h.count, hall]
  have hmade := h.making.length_le
  have heq := Multiset.eq_of_le_of_card_le (h.items_le ha) (by
    rw [Multiset.coe_card, Multiset.coe_card, hlength]
    exact hmade)
  have hperm := Multiset.coe_eq_coe.mp heq
  exact ⟨hperm, by rw [← hperm.length_eq, hlength]⟩

theorem PopPc.finished_of_exited {pc : PopPc} (h : pc.exited = true) : pc = .finished := by
  cases pc with
  | finished => rfl
  | _ => cases h

theorem Inv.exact (h : Inv p tr k x) (ha : Handoff.Accounted (Client.heard tr) x) :
    Exact p (Client.told tr) k := by
  refine ⟨Nat.le_trans (Nat.le_add_right _ _) (h.count_le ha), ?_, ?_, ?_⟩
  · intro i hi
    obtain ⟨hperm, hlength⟩ := h.all_popped ha (h.exits i hi)
    exact ⟨hperm, by rw [h.payloads, hlength]⟩
  · intro i
    have hmine := ha.order i
    rw [h.mine i] at hmine
    exact ((List.sublist_append_left _ _).trans (List.sublist_append_left _ _)).trans
      (hmine.trans ((List.take_sublist _ _).trans (log_first h.making).sublist))
  · refine h.main.printed.imp id (fun ⟨hm, hp⟩ => ⟨hm, ?_, ?_, ?_⟩)
    · have hexited := (h.main.reported hm).2.1 ⟨0, p.consumers_pos⟩
      exact (h.all_popped ha (h.exits _ (PopPc.finished_of_exited hexited))).1
    · rw [hp, h.samples]
    · have hcount := h.count_le ha
      have hle := latencies_length_le p ((counted (Client.told tr)).map Prod.snd)
      rw [List.length_map, ← h.count] at hle
      have htotal : p.total = p.warmup + p.measure := rfl
      omega

/-- At the report the queue has been emptied and nobody is at it. -/
theorem Inv.drained (h : Inv p tr k x) (ha : Handoff.Accounted (Client.heard tr) x)
    (hm : k.main = .reported) : x.push = .idle ∧ (∀ i, x.pops i = .idle) ∧
      x.taken = x.log.length := by
  obtain ⟨hproducer, hexited, _⟩ := h.main.reported hm
  have hfinished : ∀ i, k.consumers i = .finished := fun i =>
    PopPc.finished_of_exited (hexited i)
  have hidle : ∀ i, x.pops i = .idle := by
    intro i
    by_contra hne
    exact PopPc.noConfusion ((hfinished i).symm.trans (h.polling i hne))
  have hmaking := h.making
  rw [hproducer] at hmaking
  obtain ⟨hmade, hlog, hpush⟩ := hmaking
  refine ⟨hpush, hidle, ?_⟩
  have hcount := h.exits _ (hfinished ⟨0, p.consumers_pos⟩)
  have hgiven := congrArg Multiset.card h.popped
  have htaken := congrArg Multiset.card ha.items
  simp only [hfinished, hidle, uncounted, Handoff.carried, Multiset.coe_nil,
    Finset.sum_const_zero, add_zero, Multiset.coe_card, List.length_map, List.length_take,
    items] at hgiven htaken
  rw [← h.count, hcount] at hgiven
  have hle := ha.taken
  rw [hlog] at htaken hle ⊢
  omega

/-- Over `SPMCQueue`, `run_benchmark` measures every item once, whichever threads
poll or block, and leaves the queue's destructor nothing to destroy. -/
theorem run_benchmark_exact {cap : RingCapacity} {s : Spmc.State n Item}
    (hr : ((runBenchmark p).runs
      ((Spmc.machine n Item none cap.toCapacity).relabel Spmc.shown)).Run tr (k, s)) :
    Exact p (Client.told tr) k ∧ (k.main = .reported → Spmc.Quiescent s ∧
      Spmc.destructor none cap.toCapacity 0 s = some (s.slots, [])) := by
  obtain ⟨⟨k₁, x⟩, hx, hk, hshows⟩ := (SpmcHandoff.simulation.client (runBenchmark p)).run hr
  obtain rfl : k = k₁ := hk
  obtain ⟨hqueue, hinv⟩ := run_inv hx
  have ha := Handoff.run_accounted hqueue
  refine ⟨hinv.exact ha, ?_⟩
  intro hm
  obtain ⟨hpush, hpops, htaken⟩ := hinv.drained ha hm
  have hproducer : s.producer = .idle := by
    obtain ⟨how, hp⟩ := hshows.push
    rw [hpush] at hp
    cases hc : s.producer <;> simp [hc, SpmcHandoff.pushOf] at hp
    rfl
  have htail : s.tail = x.log.length := by
    have hok := hshows.inv.producer
    rwa [hproducer] at hok
  have hconsumers : ∀ i, s.consumers i = .idle := by
    intro i
    have hp := hshows.pops i
    rw [hpops i] at hp
    cases hc : s.consumers i with
    | idle => rfl
    | moveOut q =>
      simp only [hc, SpmcHandoff.popOf] at hp
      split at hp <;> cases hp
    | _ => simp [hc, SpmcHandoff.popOf] at hp
  refine ⟨⟨hproducer, hconsumers⟩, ?_⟩
  have hempty : s.head = s.tail := by
    rw [htail, ← htaken, hshows.taken]
  unfold Spmc.destructor Spmc.destroyWalk
  rw [if_pos hempty]

/-- The item is stamped at 5 and read at 9. -/
def measureOne (i : Fin 1) : List (Spmc.Act 1 Item ⊕ Choice 1) :=
  [.inr .main, .inr (.producer 0), .inr (.producer 5),
   .inl (.emplace .tryEmplace (some ⟨5, 0⟩)), .inl .producer, .inl .producer, .inl .producer,
   .inl .producer, .inl .producer, .inl .producer,
   .inr (.consumer i 0), .inr (.consumer i 0), .inl (.pop i .tryPop), .inl (.consumer i),
   .inl (.consumer i), .inl (.consumer i), .inl (.consumer i), .inl (.consumer i),
   .inl (.notifyOne i none), .inr (.consumer i 9), .inr (.consumer i 0), .inr (.consumer i 0),
   .inr .main, .inr .main, .inr .main, .inr .main, .inr .main]

theorem run_benchmark_exact_once : ∃ tr k s, ((runBenchmark oneItem).runs
      ((Spmc.machine 1 Item none twoSlots.toCapacity).relabel Spmc.shown)).Run tr (k, s) ∧
    printed (Client.told tr) = [[.line .header, .line (.row "one" ⟨4, (4, 1), 4, 4, 4, 4, 4, 4, 4⟩)]] ∧
    Exact oneItem (Client.told tr) k ∧ Spmc.Quiescent s := by
  have hr : ((runBenchmark oneItem).runs
      ((Spmc.machine 1 Item none twoSlots.toCapacity).relabel Spmc.shown)).Run _ (_, _) :=
    Machine.run_of_exec (measureOne 0) rfl
  exact ⟨_, _, _, hr, rfl, (run_benchmark_exact hr).1, ((run_benchmark_exact hr).2 rfl).1⟩

/-- The same over `SPSCQueue`, with its one consumer. -/
theorem run_benchmark_exact_spsc {p : Plan 1} {k : PopState 1} {cap : Capacity}
    {s : Spsc.State Item} {tr : List (Handoff.Event 1 Item ⊕ Event 1)}
    (hr : ((runBenchmark p).runs ((Spsc.machine Item cap).relabel Spsc.shown)).Run tr (k, s)) :
    Exact p (Client.told tr) k ∧ (k.main = .reported → s.producer = .idle ∧
      s.consumer = .idle ∧ s.head = s.tail) := by
  obtain ⟨⟨k₁, x⟩, hx, hk, hshows⟩ := (SpscHandoff.simulation.client (runBenchmark p)).run hr
  obtain rfl : k = k₁ := hk
  obtain ⟨hqueue, hinv⟩ := run_inv hx
  have ha := Handoff.run_accounted hqueue
  refine ⟨hinv.exact ha, ?_⟩
  intro hm
  obtain ⟨hpush, hpops, htaken⟩ := hinv.drained ha hm
  refine ⟨?_, ?_, ?_⟩
  · have hp := hshows.push
    rw [hpush] at hp
    cases hc : s.producer <;> simp [hc, SpscHandoff.pushOf] at hp
    rfl
  · have hp := hshows.pop
    rw [hpops 0] at hp
    cases hc : s.consumer <;> simp [hc, SpscHandoff.popOf] at hp
    rfl
  · have htail := hshows.holds.tail_eq
    rw [htaken, List.drop_length] at htail
    rw [htail]
    exact (cap.index_of_lt hshows.holds.head_lt).symm

end Toolbox.Proofs.BenchmarkPop
