import Toolbox.Proofs.BenchmarkThreads
import Toolbox.Proofs.OverwriteAccounting
import Toolbox.Proofs.OverwriteRecent
import Toolbox.Proofs.OverwriteWrap

namespace Toolbox.Proofs.BenchmarkLossy
open Base Latency Benchmark BenchmarkThreads Overwrite OverwriteMoves OverwriteSeqlock
open OverwriteAccounting OverwriteRecent
open Tsc (Item)

section Queue

variable {n m : Nat} {D : Type*} {cap : Capacity} {s s' : Overwrite.State n m D}
  {a : Overwrite.Act n m D} {tr es : List (Overwrite.Event n m D)}

/-- A consumer that is ahead of every publish got the newest item, or started there. -/
def Newest (tr : List (Overwrite.Event n m D)) (s : Overwrite.State n m D) : Prop :=
  ∀ i c, s.consumers i = some c →
    c.pos ≤ s.writePos ∨ c.pos ∈ starts i tr ∨ c.pos - 1 ∈ delivered i tr

theorem Newest.later (h : Newest tr s) (hconsumers : s'.consumers = s.consumers)
    (hwrite : s.writePos ≤ s'.writePos) : Newest (tr ++ es) s' := by
  intro i c hc
  rw [hconsumers] at hc
  rw [starts_append, delivered_append]
  rcases h i c hc with hle | hstart | hgiven
  · exact .inl (Nat.le_trans hle hwrite)
  · exact .inr (.inl (List.mem_append_left _ hstart))
  · exact .inr (.inr (List.mem_append_left _ hgiven))

theorem move_newest (hi : OverwriteSeqlock.Inv cap (calls tr) s) (h : Newest tr s)
    (hm : Move cap s a s' es) : Newest (tr ++ es) s' := by
  cases hm with
  | call | mark | threw | build | word | settle | announce => exact h.later rfl (Nat.le_refl _)
  | advance => exact h.later rfl (Nat.le_succ _)
  | @make i hnone =>
    have hold : Newest (tr ++ [.made i (s.published + 1)]) s := h.later rfl (Nat.le_refl _)
    intro j c hc
    rw [consumers_set_consumer] at hc
    split at hc
    · rename_i hj
      obtain rfl := Option.some.inj hc
      exact .inr (.inl (by simp [starts, hj]))
    · exact hold j c hc
  | @reader a i c c' es hc hm =>
    have hold : Newest (tr ++ es) s := h.later rfl (Nat.le_refl _)
    intro j d hd
    rw [consumers_set_consumer] at hd
    split at hd
    · rename_i hj
      obtain rfl := Option.some.inj hd
      subst hj
      have hkeep : c'.pos = c.pos → c'.pos ≤ s.writePos ∨ c'.pos ∈ starts j (tr ++ es) ∨
          c'.pos - 1 ∈ delivered j (tr ++ es) := by
        intro hpos
        rw [hpos]
        exact hold j c hc
      cases hm with
      | ok hpc hdone hsame => exact .inr (.inr (by simp [delivered]))
      | lapped hpc htarget hlt =>
        rw [htarget]
        exact .inl (hi.lapped_target hc hpc).2
      | _ => exact hkeep rfl
    · exact hold j d hd

theorem run_newest [Inhabited D] (hr : (machine n m D none cap).Run tr s) : Newest tr s := by
  refine Machine.Run.invariant (I := fun tr s => Newest tr s) ?_ ?_ hr
  · intro i c hc
    cases hc
  · intro tr s a s' es hrun h hs
    exact move_newest (run_inv hrun) h (step_moves hs)

/-- Positions count from 1. -/
theorem run_positive [Inhabited D] (hr : (machine n m D none cap).Run tr s) (i : Fin n) :
    ∀ q ∈ delivered i tr, 1 ≤ q := by
  refine Machine.Run.invariant (I := fun tr _ => ∀ q ∈ delivered i tr, 1 ≤ q) ?_ ?_ hr
  · intro q hq
    cases hq
  · intro tr s a s' es hrun h hs q hq
    rw [delivered_append] at hq
    rcases List.mem_append.mp hq with hq | hq
    · exact h q hq
    · obtain ⟨e, he, hgot⟩ := List.mem_filterMap.mp hq
      cases e with
      | ok j pos out =>
        obtain ⟨hpos, _⟩ := move_ok (run_inv hrun) (step_moves hs) he
        simp only [Option.ite_none_right_eq_some, Option.some.injEq] at hgot
        exact hgot.2 ▸ hpos
      | _ => cases hgot

/-- Between publishes a call finds nothing only when it has everything. -/
theorem empty_caught_up (hi : OverwriteSeqlock.Inv cap (calls tr) s) (h : Ring cap tr s)
    (hidle : s.producer = .idle) {i : Fin n} {c c' : Consumer m D} (hc : s.consumers i = some c)
    (hm : ReaderMove cap s i c a c' es) {out : Words m D} (hmem : .empty i out ∈ es) :
    c.pos = s.writePos + 1 := by
  obtain ⟨hpos, hle⟩ := hi.place i c hc
  by_contra hne
  have hseq : s.seq cap c.pos % 2 = 0 ∧ c.pos ≤ s.seq cap c.pos / 2 := by
    rcases Nat.lt_or_ge s.writePos (c.pos + cap.size) with hlt | hge
    · have hkept := h.kept hidle hpos (by omega) hlt
      omega
    · have hlost := h.lost hidle hge
      omega
  cases hm with
  | busy hpc hodd => omega
  | early hpc heven hlt => omega
  | call | passed | matched | word | torn => cases hmem
  | ok | lapped | stayed => simp at hmem

end Queue

variable {n : Nat} {p : Plan n} {rate : Nat → Nat → String} {cap : Capacity} {k k' : LossyState n}
  {s s' : Overwrite.State n 2 Int} {tr es : List (Shown n 2 Int ⊕ Benchmark.Event n)}
  {made log : List Item} {es' : List (Overwrite.Event n 2 Int)}

/-- The queue's own events among what the threads see. -/
def seen (ds : List (Shown n 2 Int)) : List (Overwrite.Event n 2 Int) :=
  ds.filterMap (fun | .seen e => some e | _ => none)

@[simp] theorem seen_append (ds fs : List (Shown n 2 Int)) : seen (ds ++ fs) = seen ds ++ seen fs :=
  List.filterMap_append

@[simp] theorem seen_map (es : List (Overwrite.Event n 2 Int)) : seen (es.map .seen) = es := by
  induction es with
  | nil => rfl
  | cons e es ih => simp [seen]

/-- The items of the publishes that have returned. -/
def returned (tr : List (Shown n 2 Int ⊕ Benchmark.Event n)) : List Item :=
  (items (seen (Client.heard tr))).map ofWords

/-- A call of the producer that is in progress is for the item in its hand. -/
def InCall (item : Item) : Overwrite.ProducerPc 2 Int → Prop
  | .idle => True
  | .advance arg | .mark arg _ | .construct arg _ => arg.map ofWords = some item
  | .copy v _ _ | .announce v _ => ofWords v = item

def Resting (log : List Item) (q : Overwrite.ProducerPc 2 Int) (l : List Item) : Prop :=
  log = l ∧ q = .idle

def Putting (log : List Item) (q : Overwrite.ProducerPc 2 Int) (before : List Item)
    (item : Item) : Prop := log = before ∧ InCall item q

/-- A consumer's handle, and how often it was given an item, at each place of the
loop. Nothing is left to a consumer that has found the queue empty while draining. -/
def Place (p : Plan n) (done : Bool) (c : Consumer 2 Int) (given : Nat) : LossyPc → Prop
  | .waitGo => c.pc = .idle ∧ given = 0
  | .poll k draining => given = k ∧ (draining = true → done = true)
  | .read k draining _ => c.pc = .idle ∧ given = k + 1 ∧ (draining = true → done = true)
  | .empty k draining => c.pc = .idle ∧ given = k ∧
    (draining = true → done = true ∧ c.pos = p.total + 1)
  | .finished r => c.pc = .idle ∧ given = r ∧ done = true ∧ c.pos = p.total + 1

/-- The item that a consumer has been given and not yet counted. -/
def pending : LossyPc → List Item
  | .read _ _ item => [item]
  | _ => []

/-- What handle `i` has missed. -/
def missedBy (s : Overwrite.State n 2 Int) (i : Fin n) : Nat :=
  ((s.consumers i).map Consumer.missed).getD 0

/-- The sums over the handles gone through: none before all threads have ended, all
before anything is merged. -/
structure Tally (k : LossyState n) (s : Overwrite.State n 2 Int) : Prop where
  ended : k.shared.tallied ≠ 0 → ∀ i, (k.consumers i).exited = true
  missed : k.shared.missedTotal =
    ((List.ofFn (missedBy s)).take k.shared.tallied).sum % 2 ^ 64
  received : k.shared.receivedTotal =
    ((List.ofFn (fun i => (k.consumers i).received)).take k.shared.tallied).sum % 2 ^ 64
  merging : ∀ j m, k.main = .merge j m → k.shared.tallied = n
  reported : k.main = .reported → k.shared.tallied = n

/-- A step that adds nothing to the sums, of a thread that has not ended. -/
theorem Tally.keep (h : Tally k s) (hmain : k'.main = k.main)
    (htallied : k'.shared.tallied = k.shared.tallied)
    (hmissed : k'.shared.missedTotal = k.shared.missedTotal)
    (hreceived : k'.shared.receivedTotal = k.shared.receivedTotal)
    (hthreads : (∃ i, (k.consumers i).exited = false) ∨
      k'.consumers = k.consumers ∧ s'.consumers = s.consumers) : Tally k' s' := by
  have hkept : k.shared.tallied = 0 ∨
      k'.consumers = k.consumers ∧ missedBy s' = missedBy s := by
    rcases hthreads with ⟨i, hi⟩ | ⟨hk, hs⟩
    · refine .inl (Classical.byContradiction fun hne => ?_)
      exact Bool.false_ne_true (hi.symm.trans (h.ended hne i))
    · exact .inr ⟨hk, funext fun i => by rw [missedBy, missedBy, hs]⟩
  refine ⟨?_, ?_, ?_, ?_, ?_⟩
  · intro hne
    rw [htallied] at hne
    rw [(hkept.resolve_left hne).1]
    exact h.ended hne
  · rw [htallied, hmissed, h.missed]
    rcases hkept with hzero | ⟨_, hs⟩
    · rw [hzero]
      rfl
    · rw [hs]
  · rw [htallied, hreceived, h.received]
    rcases hkept with hzero | ⟨hk, _⟩
    · rw [hzero]
      rfl
    · rw [hk]
  · rw [hmain, htallied]
    exact h.merging
  · rw [hmain, htallied]
    exact h.reported

/-- The program at work on the queue. -/
structure Inv (p : Plan n) (rate : Nat → Nat → String)
    (tr : List (Shown n 2 Int ⊕ Benchmark.Event n)) (k : LossyState n)
    (s : Overwrite.State n 2 Int) : Prop where
  main : MainOk (p.labelled rate k.shared.missedTotal k.shared.receivedTotal) LossyPc.exited
    (Client.told tr) k
  making : Making p (stamped (Client.told tr)) (Resting (returned tr) s.producer)
    (Putting (returned tr) s.producer) k.producer
  payloads : (stamped (Client.told tr)).map Item.payload =
    (List.range (stamped (Client.told tr)).length).map payload
  quiet : k.go = false → k.producer = .waitGo ∧ ∀ i, k.consumers i = .waitGo
  starting : k.main = .start → k.go = false
  handles : ∀ i : Fin n, (s.consumers i).isSome = true ↔ i.val < k.shared.handles
  ready : k.main ≠ .start → k.shared.handles = n
  starts : ∀ i c, s.consumers i = some c → Overwrite.starts i (seen (Client.heard tr)) = [1]
  closed : k.shared.done = true → k.producer = .finished
  place : ∀ i c, s.consumers i = some c → Place p k.shared.done c
    (delivered i (seen (Client.heard tr))).length (k.consumers i)
  got : ∀ i, (delivered i (seen (Client.heard tr))).map
      (fun pos => (stamped (Client.told tr))[pos - 1]?) =
    ((countedBy i (Client.told tr)).map Prod.fst ++ pending (k.consumers i)).map some
  samples : ∀ i, (k.recs i).samples = latencies p (countedBy i (Client.told tr))
  tally : Tally k s

theorem returned_append : returned (tr ++ es) = returned tr ++ returned es := by
  simp [returned, items_append]

/-- The items found at positions stay there when more are made. -/
theorem found_grow {ps : List Nat} {xs : List Item} (more : List Item)
    (h : ps.map (fun pos => made[pos - 1]?) = xs.map some) :
    ps.map (fun pos => (made ++ more)[pos - 1]?) = xs.map some := by
  rw [← h]
  apply List.map_congr_left
  intro pos hpos
  have hmem : made[pos - 1]? ∈ xs.map some := h ▸ List.mem_map_of_mem hpos
  obtain ⟨item, _, hitem⟩ := List.mem_map.mp hmem
  rw [← hitem, List.getElem?_append_left (List.getElem?_eq_some_iff.mp hitem.symm).1, ← hitem]

theorem log_first {q : Overwrite.ProducerPc 2 Int} {pc : Benchmark.ProducerPc}
    (h : Making p made (Resting log q) (Putting log q) pc) : log <+: made := by
  refine h.first ?_ ?_
  · rintro l ⟨rfl, _⟩
    exact List.prefix_refl _
  · rintro before item ⟨rfl, _⟩
    exact List.prefix_append _ _

/-- Every argument that a publish has begun with is one of the items made. -/
theorem calls_made {pc : Benchmark.ProducerPc} {q : Overwrite.ProducerPc 2 Int}
    {qtr : List (Overwrite.Event n 2 Int)}
    (h : Making p made (Resting ((items qtr).map ofWords) q)
      (Putting ((items qtr).map ofWords) q) pc)
    (hledger : calls qtr = (items qtr).map some ++ begun q) {j : Nat} {out : Words 2 Int}
    (hj : (calls qtr)[j]? = some (some out)) : made[j]? = some (ofWords out) := by
  rw [hledger] at hj
  rcases Nat.lt_or_ge j (items qtr).length with hlt | hge
  · rw [List.getElem?_append_left (by simpa using hlt)] at hj
    have hlog : ((items qtr).map ofWords)[j]? = some (ofWords out) := by
      simp only [List.getElem?_map, Option.map_eq_some_iff] at hj ⊢
      obtain ⟨v, hv, he⟩ := hj
      obtain rfl := Option.some.inj he
      exact ⟨v, hv, rfl⟩
    obtain ⟨more, rfl⟩ := log_first h
    rw [List.getElem?_append_left (by simpa using hlt), hlog]
  · rw [List.getElem?_append_right (by simpa using hge), List.length_map] at hj
    have hne : q ≠ .idle := by
      rintro rfl
      simp [begun] at hj
    obtain ⟨i, item, before, rfl, _, rfl, _, rfl, hcall⟩ := h.calling (fun l hl => hne hl.2)
    have hone : begun q = [some out] ∧ j - (items qtr).length = 0 ∧ ofWords out = item := by
      cases q with
      | idle => exact absurd rfl hne
      | advance arg => simp [begun] at hj
      | mark arg pos | construct arg pos =>
        obtain ⟨hlt, hget⟩ := List.getElem?_eq_some_iff.mp hj
        simp only [begun, List.length_singleton] at hlt hget
        have hzero : j - (items qtr).length = 0 := by omega
        simp only [hzero, List.getElem_cons_zero] at hget
        subst hget
        exact ⟨rfl, hzero, Option.some.inj hcall⟩
      | copy v pos done | announce v pos =>
        obtain ⟨hlt, hget⟩ := List.getElem?_eq_some_iff.mp hj
        simp only [begun, List.length_singleton] at hlt hget
        have hzero : j - (items qtr).length = 0 := by omega
        simp only [hzero, List.getElem_cons_zero] at hget
        obtain rfl := Option.some.inj hget
        exact ⟨rfl, hzero, hcall⟩
    obtain ⟨_, hzero, rfl⟩ := hone
    rw [List.getElem?_append_right (by simpa using hge), List.length_map, hzero]
    rfl

/-- A step of the producer, the queue's part of it included. -/
theorem Inv.producer_side (h : Inv p rate tr k s) {pc : Benchmark.ProducerPc} {more new : List Item}
    (hgo : k.go = true) (hpc : k.producer = .finished → pc = .finished)
    (hstamped : stamped (Client.told es) = more) (hcounted : counted (Client.told es) = [])
    (hprinted : printed (Client.told es) = []) (hreturned : returned es = new)
    (hgiven : ∀ i, delivered i (seen (Client.heard es)) = [])
    (hstarts : ∀ i, Overwrite.starts i (seen (Client.heard es)) = [])
    (hmaking : Making p (stamped (Client.told tr) ++ more)
      (Resting (returned tr ++ new) s'.producer) (Putting (returned tr ++ new) s'.producer) pc)
    (hpayloads : (stamped (Client.told tr) ++ more).map Item.payload =
      (List.range (stamped (Client.told tr) ++ more).length).map payload)
    (hconsumers : s'.consumers = s.consumers) :
    Inv p rate (tr ++ es) { k with producer := pc } s' := by
  have hby := fun i => counted_by_nil hcounted i
  refine ⟨?_, ?_, ?_, ?_, h.starting, ?_, h.ready, ?_, ?_, ?_, ?_, ?_,
    h.tally.keep rfl rfl rfl rfl (.inr ⟨rfl, hconsumers⟩)⟩
  · rw [Client.told_append]
    exact h.main.aside ⟨rfl, hpc, fun _ h => ⟨h, rfl⟩⟩ hprinted
  · rw [Client.told_append, stamped_append, hstamped, returned_append, hreturned]
    exact hmaking
  · rw [Client.told_append, stamped_append, hstamped]
    exact hpayloads
  · exact fun hno => absurd (hno.symm.trans hgo) Bool.false_ne_true
  · rw [hconsumers]
    exact h.handles
  · rw [hconsumers]
    simpa [starts_append, hstarts] using h.starts
  · exact fun hdone => hpc (h.closed hdone)
  · rw [hconsumers]
    simpa [delivered_append, hgiven] using h.place
  · intro i
    rw [Client.told_append, Client.heard_append, seen_append, delivered_append, hgiven,
      List.append_nil, stamped_append, counted_by_append, hby, List.append_nil]
    exact found_grow _ (h.got i)
  · intro i
    rw [Client.told_append, counted_by_append, hby, List.append_nil]
    exact h.samples i

/-- A step of a consumer, the queue's part of it included. -/
theorem Inv.consumer_side (h : Inv p rate tr k s) {i : Fin n} {pc : LossyPc} {r : LatencyRecorder}
    {c' : Consumer 2 Int} {more : List (Item × Int)} {ps : List Nat} (hgo : k.go = true)
    (hexit : (k.consumers i).exited = false)
    (hstamped : stamped (Client.told es) = []) (hprinted : printed (Client.told es) = [])
    (hmine : countedBy i (Client.told es) = more)
    (hothers : ∀ j, j ≠ i → countedBy j (Client.told es) = [])
    (hreturned : returned es = [])
    (hgiven : ∀ j, delivered j (seen (Client.heard es)) = if j = i then ps else [])
    (hstarts : ∀ j, Overwrite.starts j (seen (Client.heard es)) = [])
    (hproducer : s'.producer = s.producer) (hsome : (s.consumers i).isSome = true)
    (hconsumers : ∀ j, s'.consumers j = if j = i then some c' else s.consumers j)
    (hr : r.samples = latencies p (countedBy i (Client.told tr) ++ more))
    (hplace : Place p k.shared.done c'
      ((delivered i (seen (Client.heard tr))).length + ps.length) pc)
    (hgot : (delivered i (seen (Client.heard tr)) ++ ps).map
        (fun pos => (stamped (Client.told tr))[pos - 1]?) =
      ((countedBy i (Client.told tr) ++ more).map Prod.fst ++ pending pc).map some) :
    Inv p rate (tr ++ es) ({ k with recs := Function.update k.recs i r }.atConsumer i pc) s' := by
  refine ⟨?_, ?_, ?_, ?_, h.starting, ?_, h.ready, ?_, h.closed, ?_, ?_, ?_,
    h.tally.keep rfl rfl rfl rfl (.inl ⟨i, hexit⟩)⟩
  · rw [Client.told_append]
    exact h.main.aside (Aside.at_consumer hexit) hprinted
  · rw [Client.told_append, stamped_append, hstamped, returned_append, hreturned, List.append_nil,
      List.append_nil, hproducer]
    exact h.making
  · rw [Client.told_append, stamped_append, hstamped, List.append_nil]
    exact h.payloads
  · exact fun hno => absurd (hno.symm.trans hgo) Bool.false_ne_true
  · intro j
    rw [hconsumers]
    split
    · rename_i hj
      rw [hj]
      exact ⟨fun _ => (h.handles i).mp hsome, fun _ => rfl⟩
    · exact h.handles j
  · intro j c hc
    rw [Client.heard_append, seen_append, starts_append, hstarts, List.append_nil]
    rw [hconsumers] at hc
    split at hc
    · rename_i hj
      obtain ⟨d, hd⟩ := Option.isSome_iff_exists.mp hsome
      rw [hj]
      exact h.starts i d hd
    · exact h.starts j c hc
  · intro j c hc
    rw [Client.heard_append, seen_append, delivered_append, hgiven]
    rw [hconsumers] at hc
    by_cases hj : j = i
    · rw [if_pos hj] at hc
      obtain rfl := Option.some.inj hc
      subst hj
      simpa using hplace
    · rw [if_neg hj] at hc
      simpa [hj] using h.place j c hc
  · intro j
    rw [Client.told_append, Client.heard_append, seen_append, delivered_append, hgiven,
      stamped_append, hstamped, List.append_nil, counted_by_append]
    by_cases hj : j = i
    · subst hj
      simpa [hmine] using hgot
    · simpa [hj, hothers j hj] using h.got j
  · intro j
    rw [Client.told_append, counted_by_append]
    by_cases hj : j = i
    · subst hj
      simpa [hmine] using hr
    · simpa [hothers j hj, Function.update_of_ne hj] using h.samples j

theorem Inv.consumer_going (h : Inv p rate tr k s) {i : Fin n} (hi : k.consumers i ≠ .waitGo) :
    k.go = true := by
  cases hgo : k.go with
  | true => rfl
  | false => exact absurd ((h.quiet hgo).2 i) hi

theorem Inv.producer_going (h : Inv p rate tr k s) (hp : k.producer ≠ .waitGo) : k.go = true := by
  cases hgo : k.go with
  | true => rfl
  | false => exact absurd (h.quiet hgo).1 hp

/-- A step of the producer that only the queue takes part in. -/
theorem Inv.producer_quiet (h : Inv p rate tr k s) {j : Nat} {item : Item}
    (hput : k.producer = .put j item) (htold : Client.told es = []) (hreturned : returned es = [])
    (hgiven : ∀ i, delivered i (seen (Client.heard es)) = [])
    (hstarts : ∀ i, Overwrite.starts i (seen (Client.heard es)) = [])
    (hcall : InCall item s.producer → InCall item s'.producer)
    (hconsumers : s'.consumers = s.consumers) : Inv p rate (tr ++ es) k s' := by
  have hmaking := h.making
  have hstamped : stamped (Client.told es) = [] := by rw [htold]; rfl
  refine h.producer_side (h.producer_going (by simp [hput])) id hstamped (by rw [htold]; rfl)
    (by rw [htold]; rfl) hreturned hgiven hstarts ?_ ?_ hconsumers
  · rw [List.append_nil, List.append_nil]
    rw [hput] at hmaking ⊢
    obtain ⟨hlt, before, hmade, hlen, hlog, hin⟩ := hmaking
    exact ⟨hlt, before, hmade, hlen, hlog, hcall hin⟩
  · rw [List.append_nil]
    exact h.payloads

/-- A step of a consumer that neither is given nor counts anything. -/
theorem Inv.consumer_quiet (h : Inv p rate tr k s) {i : Fin n} {pc : LossyPc} {c' : Consumer 2 Int}
    (hgo : k.go = true) (hexit : (k.consumers i).exited = false) (htold : Client.told es = [])
    (hreturned : returned es = []) (hgiven : ∀ j, delivered j (seen (Client.heard es)) = [])
    (hstarts : ∀ j, Overwrite.starts j (seen (Client.heard es)) = [])
    (hproducer : s'.producer = s.producer) (hsome : (s.consumers i).isSome = true)
    (hconsumers : ∀ j, s'.consumers j = if j = i then some c' else s.consumers j)
    (hpending : pending pc = pending (k.consumers i))
    (hplace : Place p k.shared.done c' (delivered i (seen (Client.heard tr))).length pc) :
    Inv p rate (tr ++ es) (Benchmark.State.atConsumer k i pc) s' := by
  have hmine : countedBy i (Client.told es) = [] := by rw [htold]; rfl
  have hnone : ∀ j, delivered j (seen (Client.heard es)) = if j = i then [] else [] := by
    simpa using hgiven
  have hstep := h.consumer_side (r := k.recs i) hgo hexit (by rw [htold]; rfl) (by rw [htold]; rfl)
    hmine (fun _ _ => by rw [htold]; rfl) hreturned hnone hstarts hproducer hsome hconsumers
    (by rw [List.append_nil]; exact h.samples i) hplace
    (by rw [List.append_nil, List.append_nil, hpending]; exact h.got i)
  rwa [Function.update_eq_self] at hstep

/-- A step inside a consumer's call that leaves it calling. -/
theorem Inv.poll_step (h : Inv p rate tr k s) {i : Fin n} {c c' : Consumer 2 Int} {j : Nat}
    {draining : Bool} (hc : s.consumers i = some c) (hpoll : k.consumers i = .poll j draining)
    (htold : Client.told es = []) (hreturned : returned es = [])
    (hgiven : ∀ j, delivered j (seen (Client.heard es)) = [])
    (hstarts : ∀ j, Overwrite.starts j (seen (Client.heard es)) = []) :
    Inv p rate (tr ++ es) k (Overwrite.State.setConsumer s i c') := by
  have hplace := h.place i c hc
  rw [hpoll] at hplace
  have hgo : k.go = true := h.consumer_going fun he => LossyPc.noConfusion (hpoll.symm.trans he)
  rw [← at_consumer_self k i]
  refine h.consumer_quiet hgo (by rw [hpoll]; rfl) htold hreturned hgiven hstarts rfl
    (by rw [hc]; rfl) (consumers_set_consumer s i c') rfl ?_
  rw [hpoll]
  exact hplace

theorem Place.polling {done : Bool} {c : Consumer 2 Int} {given : Nat} {pc : LossyPc}
    (h : Place p done c given pc) (hc : c.pc ≠ .idle) :
    ∃ j draining, pc = .poll j draining ∧ given = j ∧ (draining = true → done = true) := by
  cases pc with
  | waitGo => exact absurd h.1 hc
  | poll j draining => exact ⟨j, draining, rfl, h⟩
  | read => exact absurd h.1 hc
  | empty => exact absurd h.1 hc
  | finished => exact absurd h.1 hc

/-- When the producer thread has ended, so have its publishes. -/
theorem Inv.all_published (h : Inv p rate tr k s) (hring : Ring cap (seen (Client.heard tr)) s)
    (hi : OverwriteSeqlock.Inv cap (calls (seen (Client.heard tr))) s)
    (hfinished : k.producer = .finished) :
    s.producer = .idle ∧ s.writePos = p.total ∧ (stamped (Client.told tr)).length = p.total := by
  have hmaking := h.making
  rw [hfinished] at hmaking
  obtain ⟨hmade, hlog, hidle⟩ := hmaking
  refine ⟨hidle, ?_, hmade⟩
  rw [← hring.length hi hidle, ← hmade, ← hlog, returned, List.length_map]

theorem hears_made {i : Fin n} {start : Nat}
    (hk : lossyBenchmarkHears p k (.seen (.made i start)) = some k') :
    k.main = .start ∧ i.val = k.shared.handles ∧
      k' = { k with shared := { k.shared with handles := k.shared.handles + 1 } } := by
  unfold lossyBenchmarkHears at hk
  simp only at hk
  split at hk
  · rename_i hm
    split at hk
    · rename_i hcount
      exact ⟨hm, hcount, (Option.some.inj hk).symm⟩
    · cases hk
  · cases hk

section Steps

variable (hi : OverwriteSeqlock.Inv cap (calls (seen (Client.heard tr))) s)
  (hring : Ring cap (seen (Client.heard tr)) s) (h : Inv p rate tr k s)

include hi hring h

/-- A consumer finds the queue empty. -/
theorem empty_step {i : Fin n} {c : Consumer 2 Int} {a : Overwrite.Act n 2 Int} {out : Words 2 Int}
    (hc : s.consumers i = some c) (hpc : c.pc = .loadSeq out)
    (hm : ReaderMove cap s i c a { c with pc := .idle } [.empty i out])
    (hk : lossyBenchmarkHears p k (.seen (.empty i out)) = some k') :
    Inv p rate (tr ++ [.inl (.seen (.empty i out))]) k'
      (Overwrite.State.setConsumer s i { c with pc := .idle }) := by
  obtain ⟨j, draining, hpoll, hgiven, hdone⟩ := (h.place i c hc).polling (by simp [hpc])
  have hgo : k.go = true := h.consumer_going fun he => LossyPc.noConfusion (hpoll.symm.trans he)
  simp only [lossyBenchmarkHears, hpoll, Option.some.injEq] at hk
  subst hk
  refine h.consumer_quiet hgo (by rw [hpoll]; rfl) rfl rfl (fun _ => rfl) (fun _ => rfl) rfl
    (by rw [hc]; rfl) (consumers_set_consumer _ _ _) (by rw [hpoll]; rfl) ⟨rfl, hgiven, ?_⟩
  intro hdraining
  obtain ⟨hidle, hwrite, _⟩ := h.all_published hring hi (h.closed (hdone hdraining))
  have hpos : c.pos = s.writePos + 1 :=
    empty_caught_up hi hring hidle hc hm (List.mem_singleton_self _)
  exact ⟨hdone hdraining, by rw [hpos, hwrite]⟩

/-- A consumer is given the item at its position. -/
theorem ok_step {i : Fin n} {c : Consumer 2 Int} {s1 : Nat} {copied : Fin 2 → Bool}
    {out : Words 2 Int} (hc : s.consumers i = some c) (hpc : c.pc = .copy s1 copied out)
    (hcopied : ∀ w, copied w = true) (hsame : s1 = s.seq cap c.pos)
    (hk : lossyBenchmarkHears p k (.seen (.ok i c.pos out)) = some k') :
    Inv p rate (tr ++ [.inl (.seen (.ok i c.pos out))]) k'
      (Overwrite.State.setConsumer s i ⟨c.pos + 1, c.missed, .idle⟩) := by
  obtain ⟨j, draining, hpoll, hgiven, hdone⟩ := (h.place i c hc).polling (by simp [hpc])
  have hgo : k.go = true := h.consumer_going fun he => LossyPc.noConfusion (hpoll.symm.trans he)
  have hitem := calls_made h.making hring.ledger (hi.ok_value hc hpc hcopied hsame)
  have hexit : (k.consumers i).exited = false := by
    rw [hpoll]
    rfl
  have hone : ∀ j, delivered j (seen (Client.heard
      [(.inl (.seen (.ok i c.pos out)) : Shown n 2 Int ⊕ Benchmark.Event n)])) =
      if j = i then [c.pos] else [] := by
    intro j
    by_cases hj : i = j
    · simp [delivered, seen, Client.heard, hj]
    · simp [delivered, seen, Client.heard, hj, Ne.symm hj]
  have hgot := h.got i
  simp only [lossyBenchmarkHears, hpoll, Option.some.injEq] at hk
  subst hk
  have hkeep : ({ k with recs := Function.update k.recs i (k.recs i) } : LossyState n) = k := by
    rw [Function.update_eq_self]
  rw [← hkeep]
  refine h.consumer_side hgo hexit rfl rfl (rfl : countedBy i _ = []) (fun _ _ => rfl) rfl hone
    (fun _ => rfl) rfl (by rw [hc]; rfl) (consumers_set_consumer s i ⟨c.pos + 1, c.missed, .idle⟩)
    (by rw [List.append_nil]; exact h.samples i) ⟨rfl, by rw [hgiven]; rfl, hdone⟩ ?_
  rw [hpoll] at hgot
  rw [List.map_append, hgot, List.append_nil, List.map_cons, hitem]
  simp [pending]

/-- A step of a consumer's call. -/
theorem reader_step {i : Fin n} {c c' : Consumer 2 Int} {a : Overwrite.Act n 2 Int}
    (hc : s.consumers i = some c) (hm : ReaderMove cap s i c a c' es')
    (hk : (shown a es').foldlM (lossyBenchmarkHears p) k = some k') :
    Inv p rate (tr ++ (shown a es').map .inl) k' (Overwrite.State.setConsumer s i c') := by
  have hplace := h.place i c hc
  cases hm with
  | @call out hpc =>
    have hheard : lossyBenchmarkHears p k (.tryRead i) = some k' := by simpa [shown] using hk
    cases hpoll : k.consumers i with
    | poll j draining =>
      simp only [lossyBenchmarkHears, hpoll, Option.some.injEq] at hheard
      subst hheard
      exact h.poll_step hc hpoll rfl rfl (fun _ => rfl) (fun _ => rfl)
    | _ => simp [lossyBenchmarkHears, hpoll] at hheard
  | passed hpc | matched hpc | word _ hpc | torn hpc =>
    obtain ⟨j, draining, hpoll, _⟩ := hplace.polling (by simp [hpc])
    obtain rfl := Option.some.inj hk
    exact h.poll_step hc hpoll rfl rfl (fun _ => rfl) (fun _ => rfl)
  | lapped hpc | stayed hpc =>
    obtain ⟨j, draining, hpoll, _⟩ := hplace.polling (by simp [hpc])
    simp only [shown, List.map_cons, List.map_nil, List.foldlM_cons, List.foldlM_nil,
      lossyBenchmarkHears, hpoll, bind_pure, Option.some.injEq] at hk
    subst hk
    exact h.poll_step hc hpoll rfl rfl (fun _ => rfl) (fun _ => rfl)
  | busy hpc hodd =>
    exact empty_step hi hring h hc hpc (.busy hpc hodd) (by simpa [shown] using hk)
  | early hpc heven hlt =>
    exact empty_step hi hring h hc hpc (.early hpc heven hlt) (by simpa [shown] using hk)
  | ok hpc hdone hsame =>
    exact ok_step hi hring h hc hpc hdone hsame (by simpa [shown] using hk)

/-- A handle made before the threads start is at position 1. -/
theorem make_step {i : Fin n} (hnone : s.consumers i = none)
    (hb : Balanced (starts i (seen (Client.heard tr))) (delivered i (seen (Client.heard tr)))
      (s.consumers i))
    (hk : lossyBenchmarkHears p k (.seen (.made i (s.published + 1))) = some k') :
    Inv p rate (tr ++ [.inl (.seen (.made i (s.published + 1)))]) k'
      (Overwrite.State.setConsumer s i ⟨s.published + 1, 0, .idle⟩) := by
  rw [hnone] at hb
  obtain ⟨hstarts, hgiven⟩ := hb
  obtain ⟨hm, hcount, rfl⟩ := hears_made hk
  obtain ⟨hproducer, hwait⟩ := h.quiet (h.starting hm)
  have hmaking := h.making
  rw [hproducer] at hmaking
  have hempty : (items (seen (Client.heard tr))).length = 0 := by
    have hlog := congrArg List.length hmaking.2.1
    simpa [returned] using hlog
  have hzero : s.published = 0 := by
    have hlength := hring.length hi hmaking.2.2
    have hannounced := hi.announced
    omega
  have htold : Client.told [(.inl (.seen (.made i (s.published + 1))) :
      Shown n 2 Int ⊕ Benchmark.Event n)] = [] := rfl
  have hheard : seen (Client.heard [(.inl (.seen (.made i (s.published + 1))) :
      Shown n 2 Int ⊕ Benchmark.Event n)]) = [.made i (s.published + 1)] := rfl
  have hreturned : returned [(.inl (.seen (.made i (s.published + 1))) :
      Shown n 2 Int ⊕ Benchmark.Event n)] = [] := rfl
  refine ⟨?_, ?_, ?_, h.quiet, h.starting, ?_, fun hno => absurd hm hno, ?_, h.closed, ?_, ?_, ?_,
    h.tally.keep rfl rfl rfl rfl (.inl ⟨i, by rw [hwait]; rfl⟩)⟩
  · rw [Client.told_append]
    exact h.main.aside ⟨rfl, id, fun _ h => ⟨h, rfl⟩⟩ rfl
  · rw [returned_append, hreturned, Client.told_append, htold, List.append_nil, List.append_nil]
    exact h.making
  · rw [Client.told_append, htold, List.append_nil]
    exact h.payloads
  · intro j
    rw [consumers_set_consumer]
    by_cases hj : j = i
    · simp [hj, hcount]
    · have hne : j.val ≠ k.shared.handles := fun he => hj (Fin.ext (he.trans hcount.symm))
      rw [if_neg hj, h.handles j]
      simp only
      omega
  · intro j c hc
    rw [Client.heard_append, seen_append, hheard, starts_append]
    rw [consumers_set_consumer] at hc
    by_cases hj : j = i
    · rw [hj, hstarts]
      simp [Overwrite.starts, hzero]
    · rw [if_neg hj] at hc
      rw [h.starts j c hc]
      simp [Overwrite.starts, Ne.symm hj]
  · intro j c hc
    rw [Client.heard_append, seen_append, hheard, delivered_append]
    rw [consumers_set_consumer] at hc
    by_cases hj : j = i
    · rw [if_pos hj] at hc
      obtain rfl := Option.some.inj hc
      rw [hj, hgiven, hwait]
      exact ⟨rfl, rfl⟩
    · rw [if_neg hj] at hc
      simpa [delivered] using h.place j c hc
  · intro j
    rw [Client.heard_append, seen_append, hheard, delivered_append, Client.told_append, htold,
      List.append_nil, show delivered j [.made i (s.published + 1)] = [] from rfl, List.append_nil]
    exact h.got j
  · rw [Client.told_append, htold, List.append_nil]
    exact h.samples

end Steps

/-- A step inside the producer's call that the program does not notice. -/
theorem Inv.calling_step (h : Inv p rate tr k s) (hbusy : s.producer ≠ .idle)
    (htold : Client.told es = []) (hreturned : returned es = [])
    (hgiven : ∀ i, delivered i (seen (Client.heard es)) = [])
    (hstarts : ∀ i, Overwrite.starts i (seen (Client.heard es)) = [])
    (hcall : ∀ item, InCall item s.producer → InCall item s'.producer)
    (hconsumers : s'.consumers = s.consumers) : Inv p rate (tr ++ es) k s' := by
  obtain ⟨j, item, before, hput, _⟩ := h.making.calling (fun l hl => hbusy hl.2)
  exact h.producer_quiet hput htold hreturned hgiven hstarts (hcall item) hconsumers

theorem Inv.publish_step (h : Inv p rate tr k s) {arg : Option (Words 2 Int)}
    (hk : lossyBenchmarkHears p k (.publish arg) = some k') :
    Inv p rate (tr ++ [.inl (.publish arg)]) k' (Overwrite.State.atProducer s (.advance arg)) := by
  cases hput : k.producer with
  | put j item =>
    simp only [lossyBenchmarkHears, hput, Option.ite_none_right_eq_some, Option.some.injEq] at hk
    obtain ⟨harg, rfl⟩ := hk
    exact h.producer_quiet hput rfl rfl (fun _ => rfl) (fun _ => rfl) (fun _ => harg) rfl
  | _ => simp [lossyBenchmarkHears, hput] at hk

/-- A publish returns: its item is in the queue. -/
theorem Inv.published_step (h : Inv p rate tr k s) {v : Words 2 Int} {pos : Nat}
    (hp : s.producer = .announce v pos) (hk : lossyBenchmarkHears p k (.seen (.published pos v)) = some k') :
    Inv p rate (tr ++ [.inl (.seen (.published pos v))]) k'
      (Overwrite.State.atProducer { s with published := pos } .idle) := by
  obtain ⟨j, item, before, hput, hlt, hmade, hlen, rfl, hcall⟩ :=
    h.making.calling (fun l hl => by cases hp.symm.trans hl.2)
  rw [hp] at hcall
  obtain rfl : ofWords v = item := hcall
  simp only [lossyBenchmarkHears, hput, Option.some.injEq] at hk
  subst hk
  have hreturned : returned [(.inl (.seen (.published pos v)) :
      Shown n 2 Int ⊕ Benchmark.Event n)] = [ofWords v] := rfl
  refine h.producer_side (h.producer_going (by simp [hput])) (by simp [hput]) (rfl : _ = []) rfl rfl
    hreturned (fun _ => rfl) (fun _ => rfl) ?_ ?_ rfl
  · rw [List.append_nil, hmade]
    exact making_head hlt (by rw [List.length_append, hlen]; rfl) ⟨rfl, rfl⟩
  · rw [List.append_nil]
    exact h.payloads

theorem seen_shown {a : Overwrite.Act n 2 Int} (hm : Move cap s a s' es') :
    seen (shown a es') = es' := by
  cases hm with
  | reader hc hm =>
    cases hm with
    | call => rfl
    | _ => exact seen_map _
  | call => rfl
  | _ => exact seen_map _

theorem machine_step_inv
    (hq : (Overwrite.machine n 2 Int none cap).RunWhere NoThrow (seen (Client.heard tr)) s)
    (h : Inv p rate tr k s) {a : Overwrite.Act n 2 Int} {ds : List (Shown n 2 Int)}
    (hs : ((Overwrite.machine n 2 Int none cap).relabel shown).step s a = some (s', ds))
    (hk : ds.foldlM (lossyBenchmarkHears p) k = some k') :
    (Overwrite.machine n 2 Int none cap).RunWhere NoThrow
        (seen (Client.heard (tr ++ ds.map .inl))) s' ∧
      Inv p rate (tr ++ ds.map .inl) k' s' := by
  have hi := run_inv hq.run
  have hring := run_ring hq
  obtain ⟨es', hstep, rfl⟩ := Machine.relabel_step hs
  have hm := step_moves hstep
  have hok : NoThrow s a := by
    cases a with
    | publish arg =>
      cases hput : k.producer with
      | put j item =>
        simp only [shown, List.foldlM_cons, List.foldlM_nil, lossyBenchmarkHears, hput, bind_pure,
          Option.ite_none_right_eq_some] at hk
        obtain ⟨v, rfl, _⟩ := Option.map_eq_some_iff.mp hk.1
        rfl
      | _ => simp [shown, lossyBenchmarkHears, hput] at hk
    | _ => trivial
  refine ⟨?_, ?_⟩
  · rw [Client.heard_append, seen_append, Client.heard_inl, seen_shown hm]
    exact Machine.Steps.step hq hok hstep
  · cases hm with
    | call hp => exact h.publish_step (by simpa [shown] using hk)
    | advance hp =>
      simp only [shown, List.map_cons, List.map_nil, List.foldlM_cons, List.foldlM_nil,
        lossyBenchmarkHears, bind_pure, Option.some.injEq] at hk
      subst hk
      refine h.calling_step (by simp [hp]) rfl rfl (fun _ => rfl) (fun _ => rfl) ?_ rfl
      rw [hp]
      exact fun _ h => h
    | threw hp => simp [shown, lossyBenchmarkHears] at hk
    | mark hp | word hp | settle hp =>
      obtain rfl := Option.some.inj hk
      refine h.calling_step (by simp [hp]) rfl rfl (fun _ => rfl) (fun _ => rfl) ?_ rfl
      rw [hp]
      exact fun _ h => h
    | build hp =>
      obtain rfl := Option.some.inj hk
      refine h.calling_step (by simp [hp]) rfl rfl (fun _ => rfl) (fun _ => rfl) ?_ rfl
      rw [hp]
      exact fun _ h => Option.some.inj h
    | announce hp => exact h.published_step hp (by simpa [shown] using hk)
    | make hnone =>
      exact make_step hi hring h hnone (run_balanced hq.run _) (by simpa [shown] using hk)
    | reader hc hm => exact reader_step hi hring h hc hm hk

theorem Inv.handle (h : Inv p rate tr k s) (hgo : k.go = true) (i : Fin n) :
    ∃ c, s.consumers i = some c := by
  have hm : k.main ≠ .start := fun hm => absurd (hgo.symm.trans (h.starting hm)) (by simp)
  apply Option.isSome_iff_exists.mp
  rw [h.handles i, h.ready hm]
  exact i.isLt

/-- The starting thread goes on when it is ready to, and merges when the sums are made. -/
theorem Tally.main (h : Tally k s) (hready : k.ready = true) {rs : List (Benchmark.Event n)}
    (hs : stepMain p LossyPc.exited k = some (k', rs))
    (hk : k' = { k with go := k'.go, main := k'.main }) : Tally k' s := by
  have hall : (∀ j m, k'.main = .merge j m → k.shared.tallied = n) ∧
      (k'.main = .reported → k.shared.tallied = n) := by
    unfold stepMain at hs
    cases hm : k.main with
    | start =>
      simp only [hm, Option.some.injEq, Prod.mk.injEq] at hs
      obtain ⟨rfl, rfl⟩ := hs
      simp
    | joinProducer =>
      simp only [hm] at hs
      split at hs
      · cases hs
        simp
      · cases hs
    | joinConsumer j =>
      simp only [LossyState.ready, hm, decide_eq_true_eq] at hready
      simp only [hm] at hs
      split at hs
      · split at hs
        · cases hs
          simp
        · cases hs
      · rename_i hj
        have htallied := hready.resolve_left hj
        cases hs
        exact ⟨fun _ _ _ => htallied, fun _ => htallied⟩
    | merge j m =>
      have htallied := h.merging j m hm
      exact ⟨fun _ _ _ => htallied, fun _ => htallied⟩
    | reported =>
      simp only [hm] at hs
      cases hs
  rw [hk]
  exact ⟨h.ended, h.missed, h.received, hall.1, hall.2⟩

theorem main_step_inv (h : Inv p rate tr k s) {rs : List (Benchmark.Event n)}
    (hs : lossyBenchmarkStep p rate k .main = some (k', rs)) :
    Inv p rate (tr ++ rs.map .inr) k' s := by
  obtain ⟨hready, hs⟩ := Option.ite_none_right_eq_some.mp hs
  obtain ⟨hmain, hk, hstamped, hcounted⟩ := h.main.step hs
  obtain ⟨hnext, hgo⟩ := main_goes hs
  have htally := h.tally.main hready hs hk
  have hby := fun i => counted_by_nil hcounted i
  have hreturned : returned (rs.map .inr) = [] := by simp [returned, seen, items]
  rw [hk] at hmain htally ⊢
  refine ⟨?_, ?_, ?_, ?_, fun hm => absurd hm hnext, h.handles, fun _ => ?_, ?_, h.closed, ?_, ?_,
    ?_, htally⟩
  · simpa using hmain
  · simpa [hstamped, returned_append, hreturned] using h.making
  · simpa [hstamped] using h.payloads
  · intro hno
    have hoff : k'.go = false := hno
    exact h.quiet ((hgo.resolve_left (by simp [hoff])).symm.trans hoff)
  · by_cases hm : k.main = .start
    · simpa [LossyState.ready, hm] using hready
    · exact h.ready hm
  · simpa using h.starts
  · simpa using h.place
  · simpa [hstamped, hby] using h.got
  · simpa [hby] using h.samples

theorem Place.done {done : Bool} {c : Consumer 2 Int} {given : Nat} {pc : LossyPc}
    (h : Place p done c given pc) : Place p true c given pc := by
  cases pc with
  | waitGo => exact h
  | poll j draining => exact ⟨h.1, fun _ => rfl⟩
  | read j draining item => exact ⟨h.1, h.2.1, fun _ => rfl⟩
  | empty j draining => exact ⟨h.1, h.2.1, fun hd => ⟨rfl, (h.2.2 hd).2⟩⟩
  | finished r => exact ⟨h.1, h.2.1, rfl, h.2.2.2⟩

theorem producer_step_inv (h : Inv p rate tr k s) {ns : BitVec 64} {rs : List (Benchmark.Event n)}
    (hs : lossyBenchmarkStep p rate k (.producer ns) = some (k', rs)) :
    Inv p rate (tr ++ rs.map .inr) k' s := by
  unfold lossyBenchmarkStep at hs
  simp only at hs
  split at hs
  · rename_i hfinished
    split at hs
    · cases hs
    · simp only [Option.some.injEq, Prod.mk.injEq] at hs
      obtain ⟨rfl, rfl⟩ := hs
      rw [List.map_nil, List.append_nil]
      refine ⟨⟨h.main.producer, h.main.consumers, h.main.merged, h.main.printed⟩, h.making,
        h.payloads, h.quiet, h.starting, h.handles, h.ready, h.starts, fun _ => hfinished, ?_,
        h.got, h.samples, h.tally.keep rfl rfl rfl rfl (.inr ⟨rfl, rfl⟩)⟩
      exact fun i c hc => (h.place i c hc).done
  · have hput : ∀ before item, Resting (returned tr) s.producer before →
        Putting (returned tr) s.producer before item := by
      intro before item hrest
      refine ⟨hrest.1, ?_⟩
      rw [hrest.2]
      trivial
    have hgo : k.go = true := by
      by_cases hpc : k.producer = .waitGo
      · exact producer_waits hs hpc
      · exact h.producer_going hpc
    obtain ⟨pc, rfl, hpc, hcounted, hprinted, hmaking, hpayloads⟩ :=
      h.making.own hput h.payloads hs
    refine h.producer_side hgo (fun he => absurd he hpc) (by rw [Client.told_inr])
      (by rw [Client.told_inr, hcounted]) (by rw [Client.told_inr, hprinted]) rfl
      (fun _ => by rw [Client.heard_inr]; rfl) (fun _ => by rw [Client.heard_inr]; rfl) ?_
      hpayloads rfl
    simpa [returned, seen, items] using hmaking

theorem handle_kept {i : Fin n} {c : Consumer 2 Int} (hc : s.consumers i = some c) (j : Fin n) :
    s.consumers j = if j = i then some c else s.consumers j := by
  split
  · rename_i hj
    rw [hj, hc]
  · rfl

/-- A consumer notes the latency of the item it was given. -/
theorem Inv.note_step (h : Inv p rate tr k s) {i : Fin n} {j : Nat} {draining : Bool} {item : Item}
    {now : Int} (hpc : k.consumers i = .read j draining item) {t : LossyState n}
    (hnote : noteLatency p k i j item now = some t) :
    Inv p rate (tr ++ [.inr (.counted i item now)])
      (Benchmark.State.atConsumer t i (.poll (j + 1) draining)) s := by
  have hgo : k.go = true := h.consumer_going fun he => LossyPc.noConfusion (hpc.symm.trans he)
  obtain ⟨c, hc⟩ := h.handle hgo i
  have hplace := h.place i c hc
  have hgot := h.got i
  rw [hpc] at hplace hgot
  obtain ⟨_, hgiven, hdone⟩ := hplace
  have hlength : (countedBy i (Client.told tr)).length = j := by
    have hlengths := congrArg List.length hgot
    simp only [List.length_map, List.length_append, hgiven, pending,
      List.length_singleton] at hlengths
    omega
  obtain ⟨r, rfl, hr⟩ := note_latency_spec hnote
  have hexit : (k.consumers i).exited = false := by
    rw [hpc]
    rfl
  have htold : Client.told [(.inr (.counted i item now) : Shown n 2 Int ⊕ Benchmark.Event n)] =
    [.counted i item now] := rfl
  have hmine : countedBy i [Event.counted i item now] = [(item, now)] := by simp [countedBy]
  rw [← htold] at hmine
  have hnone : ∀ l, delivered l (seen (Client.heard
      [(.inr (.counted i item now) : Shown n 2 Int ⊕ Benchmark.Event n)])) =
      if l = i then [] else [] := by simp [delivered, seen, Client.heard]
  refine h.consumer_side hgo hexit rfl rfl hmine ?_ rfl hnone (fun _ => rfl) rfl (by rw [hc]; rfl)
    (handle_kept hc) ?_ ⟨hgiven, hdone⟩ ?_
  · intro l hl
    simp [countedBy, Client.told, Ne.symm hl]
  · rw [latencies_concat, hlength, hr, h.samples i]
  · rw [List.append_nil, hgot]
    simp [pending]

theorem consumer_step_inv (h : Inv p rate tr k s) {i : Fin n} {ns : BitVec 64}
    {rs : List (Benchmark.Event n)} (hs : stepLossy p k i ns = some (k', rs)) :
    Inv p rate (tr ++ rs.map .inr) k' s := by
  have hquiet : ∀ {pc : LossyPc} {c : Consumer 2 Int}, k.go = true → s.consumers i = some c →
      (k.consumers i).exited = false → pending pc = pending (k.consumers i) →
      Place p k.shared.done c (delivered i (seen (Client.heard tr))).length pc →
      Inv p rate (tr ++ []) (Benchmark.State.atConsumer k i pc) s := by
    intro pc c hgo hc hexit hpending hplace
    exact h.consumer_quiet hgo hexit rfl rfl (fun _ => rfl) (fun _ => rfl) rfl (by rw [hc]; rfl)
      (handle_kept hc) hpending hplace
  unfold stepLossy at hs
  cases hpc : k.consumers i with
  | waitGo =>
    simp only [hpc] at hs
    split at hs
    · rename_i hgo
      simp only [Option.some.injEq, Prod.mk.injEq] at hs
      obtain ⟨rfl, rfl⟩ := hs
      obtain ⟨c, hc⟩ := h.handle hgo i
      have hplace := h.place i c hc
      rw [hpc] at hplace
      exact hquiet hgo hc (by rw [hpc]; rfl) (by rw [hpc]; rfl) ⟨hplace.2, by simp⟩
    · cases hs
  | poll j draining => simp [hpc] at hs
  | read j draining item =>
    simp only [hpc] at hs
    obtain ⟨t, hnote, he⟩ := Option.map_eq_some_iff.mp hs
    obtain ⟨rfl, rfl⟩ := Prod.mk.inj he
    exact h.note_step hpc hnote
  | empty j draining =>
    have hgo : k.go = true := h.consumer_going fun he => LossyPc.noConfusion (hpc.symm.trans he)
    obtain ⟨c, hc⟩ := h.handle hgo i
    have hplace := h.place i c hc
    rw [hpc] at hplace
    obtain ⟨hidle, hgiven, hdone⟩ := hplace
    simp only [hpc] at hs
    split at hs
    all_goals
      simp only [Option.some.injEq, Prod.mk.injEq] at hs
      obtain ⟨rfl, rfl⟩ := hs
    · rename_i hdraining
      exact hquiet hgo hc (by rw [hpc]; rfl) (by rw [hpc]; rfl) ⟨hidle, hgiven, hdone hdraining⟩
    · exact hquiet hgo hc (by rw [hpc]; rfl) (by rw [hpc]; rfl) ⟨hgiven, id⟩
  | finished r => simp [hpc] at hs

theorem hears_missed {i : Fin n} {count : Nat}
    (hk : lossyBenchmarkHears p k (.missed i count) = some k') :
    k.main = .joinConsumer n ∧ i.val = k.shared.tallied ∧
      k' = { k with shared := { k.shared with
        tallied := k.shared.tallied + 1
        missedTotal := (k.shared.missedTotal + count) % 2 ^ 64
        receivedTotal := (k.shared.receivedTotal + (k.consumers i).received) % 2 ^ 64 } } := by
  unfold lossyBenchmarkHears at hk
  simp only at hk
  split at hk
  · rename_i j hm
    obtain ⟨⟨rfl, hi⟩, he⟩ := Option.ite_none_right_eq_some.mp hk
    exact ⟨hm, hi, (Option.some.inj he).symm⟩
  · cases hk

theorem seen_missed (i : Fin n) (count : Nat) :
    seen (Client.heard (tr ++ [.inl (.missed i count)])) = seen (Client.heard tr) := by
  rw [Client.heard_append, seen_append]
  exact List.append_nil _

/-- The next summand of a sum modulo `2 ^ 64`. -/
theorem sum_take_mod {f : Fin n → Nat} {i : Fin n} {t total : Nat} (hi : i.val = t)
    (htotal : total = ((List.ofFn f).take t).sum % 2 ^ 64) :
    (total + f i) % 2 ^ 64 = ((List.ofFn f).take (t + 1)).sum % 2 ^ 64 := by
  subst hi
  rw [List.sum_take_succ _ _ (by simp), List.getElem_ofFn, htotal, Nat.mod_add_mod]

/-- The starting thread adds a handle to the sums. -/
theorem Inv.missed_step (h : Inv p rate tr k s) {i : Fin n} {c : Consumer 2 Int}
    (hc : s.consumers i = some c) (hk : lossyBenchmarkHears p k (.missed i c.missed) = some k') :
    Inv p rate (tr ++ [.inl (.missed i c.missed)]) k' s := by
  obtain ⟨hm, hi, rfl⟩ := hears_missed hk
  have htold : Client.told (tr ++ [.inl (.missed i c.missed)]) = Client.told tr := by
    rw [Client.told_append]
    exact List.append_nil _
  have hseen : seen (Client.heard (tr ++ [.inl (.missed i c.missed)])) = seen (Client.heard tr) :=
    seen_missed i c.missed
  have hreturned : returned (tr ++ [.inl (.missed i c.missed)]) = returned tr := by
    rw [returned, hseen, returned]
  have hexited : ∀ j, (k.consumers j).exited = true := by
    intro j
    refine h.main.consumers j ?_
    rw [hm]
    exact j.isLt
  have hcount : missedBy s i = c.missed := by rw [missedBy, hc]; rfl
  refine ⟨?_, ?_, ?_, h.quiet, h.starting, h.handles, h.ready, ?_, h.closed, ?_, ?_, ?_,
    fun _ => hexited, ?_, sum_take_mod hi h.tally.received, ?_, ?_⟩
  · rw [htold, ← List.append_nil (Client.told tr)]
    exact (h.main.unprinted (by simp [hm])).aside ⟨rfl, id, fun _ h => ⟨h, rfl⟩⟩ rfl
  · rw [htold, hreturned]
    exact h.making
  · rw [htold]
    exact h.payloads
  · rw [hseen]
    exact h.starts
  · rw [hseen]
    exact h.place
  · rw [hseen, htold]
    exact h.got
  · rw [htold]
    exact h.samples
  · rw [← hcount]
    exact sum_take_mod hi h.tally.missed
  · intro j m he
    exact MainPc.noConfusion (hm.symm.trans he)
  · intro he
    exact MainPc.noConfusion (hm.symm.trans he)

theorem run_lossy_inv {y : LossyState n × Overwrite.State n 2 Int}
    (hr : ((runOverwriteBenchmark p rate).runs
      (called (Overwrite.machine n 2 Int none cap))).Run tr y) :
    (Overwrite.machine n 2 Int none cap).RunWhere NoThrow (seen (Client.heard tr)) y.2 ∧
      Inv p rate tr y.1 y.2 := by
  refine (Client.invariant (I := fun tr k s =>
    (Overwrite.machine n 2 Int none cap).RunWhere NoThrow (seen (Client.heard tr)) s ∧
      Inv p rate tr k s) ?_ ?_ ?_ hr).2
  · refine ⟨.refl, ⟨?_, ?_, ?_, .inl ⟨rfl, by simp [runOverwriteBenchmark]⟩⟩, ⟨rfl, rfl, rfl⟩, rfl,
      fun _ => ⟨rfl, fun _ => rfl⟩, fun _ => rfl, ?_, fun h => absurd rfl h, ?_, ?_, ?_, ?_, ?_,
      fun h => absurd rfl h, rfl, rfl, fun _ _ he => MainPc.noConfusion he,
      fun he => MainPc.noConfusion he⟩
    · exact fun h => absurd rfl h
    · exact fun _ hi => absurd hi (Nat.not_lt_zero _)
    · exact fun _ _ he => MainPc.noConfusion he
    · exact fun i => ⟨fun h => Bool.noConfusion h, fun h => absurd h (Nat.not_lt_zero _)⟩
    · intro i c hc
      cases hc
    · exact fun h => Bool.noConfusion h
    · intro i c hc
      cases hc
    · exact fun _ => rfl
    · intro i
      simp [runOverwriteBenchmark, LatencyRecorder.new, latencies, countedBy]
  · intro tr k s a k' s' ds _ hinv hs hk
    cases a with
    | inl a => exact machine_step_inv hinv.1 hinv.2 hs hk
    | inr i =>
      obtain ⟨c, hc, he⟩ := Option.map_eq_some_iff.mp hs
      obtain ⟨rfl, rfl⟩ := Prod.mk.inj he
      refine ⟨?_, hinv.2.missed_step hc (by simpa [runOverwriteBenchmark] using hk)⟩
      rw [List.map_singleton, seen_missed]
      exact hinv.1
  · intro tr k s c k' rs _ hinv hs
    obtain ⟨hq, h⟩ := hinv
    refine ⟨by rwa [Client.heard_append, Client.heard_inr, List.append_nil], ?_⟩
    cases c with
    | main => exact main_step_inv h hs
    | producer ns => exact producer_step_inv h hs
    | consumer i ns => exact consumer_step_inv h hs

/-- Below half the range of 64 bits no counter of the queue wraps. -/
theorem Inv.lower (h : Inv p rate tr k s) (hlt : p.total < 2 ^ 63)
    (hq : (Overwrite.machine n 2 Int none cap).RunWhere NoThrow (seen (Client.heard tr)) s) :
    OverwriteWrap.Lower 64 s := by
  have hi := run_inv hq.run
  have hledger := (run_ring hq).ledger
  have hcount := hi.count
  rw [hledger, List.length_append, List.length_map] at hcount
  have hmade := h.making.length_le
  have hfirst := (log_first h.making).length_le
  rw [returned, List.length_map] at hfirst
  have hcalling : s.producer ≠ .idle → (items (seen (Client.heard tr))).length < p.total := by
    intro hne
    obtain ⟨j, item, before, _, hlt, _, hlen, hlog, _⟩ := h.making.calling (fun l hl => hne hl.2)
    rw [← hlog, returned, List.length_map] at hlen
    omega
  have hbegun : (begun s.producer).length ≤ 1 := by cases s.producer <;> simp [begun]
  refine ⟨by decide, ?_, ?_, ?_⟩
  · by_cases hidle : s.producer = .idle
    · rw [hidle] at hcount
      simp only [begun, List.length_nil] at hcount
      omega
    · have := hcalling hidle
      omega
  · intro arg hp
    have := hcalling (by simp [hp])
    rw [hp] at hcount
    simp only [begun, List.length_nil] at hcount
    omega
  · intro i c hc
    have hbalanced := run_balanced hq.run i
    rw [hc] at hbalanced
    obtain ⟨⟨start, _, hsum⟩, _⟩ := hbalanced
    omega

/-- A plan of fewer than `2 ^ 63` items runs with counters of 64 bits as with unbounded ones. -/
theorem run_unbounded (hlt : p.total < 2 ^ 63) {y : LossyState n × Overwrite.State n 2 Int}
    (hr : ((runOverwriteBenchmark p rate).runs
      (called (Overwrite.machine n 2 Int (some 64) cap))).Run tr y) :
    ((runOverwriteBenchmark p rate).runs
      (called (Overwrite.machine n 2 Int none cap))).Run tr y := by
  have hstart : ((runOverwriteBenchmark p rate).runs
      (called (Overwrite.machine n 2 Int none cap))).Run []
        ((runOverwriteBenchmark p rate).runs
          (called (Overwrite.machine n 2 Int (some 64) cap))).init := .init
  refine Machine.Run.invariant (I := fun tr y => ((runOverwriteBenchmark p rate).runs
    (called (Overwrite.machine n 2 Int none cap))).Run tr y) hstart ?_ hr
  rintro tr ⟨k, s⟩ a z es _ hrun hs
  obtain ⟨hq, h⟩ := run_lossy_inv hrun
  refine hrun.next (a := a) (Eq.trans ?_ hs)
  cases a with
  | inr b => rfl
  | inl a =>
    cases a with
    | inr i => rfl
    | inl a =>
      have hstep := OverwriteWrap.step_lower (run_inv hq.run) (h.lower hlt hq) a
      simp only [Client.runs, called, Machine.relabel, Overwrite.machine, hstep]

/-- The items at increasing places, from the last one on backwards. -/
theorem sublist_of_places {α : Type*} {l : List α} {ps : List Nat} {xs : List α} {b : Nat}
    (hsorted : ps.Pairwise (· < ·)) (hb : ∀ q ∈ ps, 1 ≤ q ∧ q ≤ b)
    (h : ps.map (fun q => l[q - 1]?) = xs.map some) : xs.Sublist (l.take b) := by
  induction ps using List.reverseRecOn generalizing xs b with
  | nil =>
    obtain rfl := List.map_eq_nil_iff.mp h.symm
    exact List.nil_sublist _
  | append_singleton qs q ih =>
    obtain ⟨hqs, _, hlast⟩ := List.pairwise_append.mp hsorted
    obtain ⟨h1, hle⟩ := hb q (by simp)
    rw [List.map_append] at h
    obtain ⟨ys, zs, rfl, hys, hzs⟩ := List.map_eq_append_iff.mp h.symm
    obtain ⟨y, rfl, hy⟩ := List.map_eq_singleton_iff.mp hzs
    obtain ⟨hlt, hget⟩ := List.getElem?_eq_some_iff.mp hy.symm
    have hfirst : ys.Sublist (l.take (q - 1)) := by
      refine ih hqs (fun r hr => ⟨(hb r (by simp [hr])).1, ?_⟩) hys.symm
      have := hlast r hr q (by simp)
      omega
    have hone : l.take (q - 1) ++ [y] = l.take (q - 1 + 1) := by
      rw [List.take_succ_eq_append_getElem hlt, hget]
    have hthis := hfirst.append (List.Sublist.refl [y])
    rw [hone] at hthis
    exact hthis.trans ((List.take_prefix_take_left (by omega)).sublist)

/-- What a run of `run_overwrite_benchmark` comes to. -/
structure Exact (p : Plan n) (rate : Nat → Nat → String) (tr : List (Benchmark.Event n))
    (k : LossyState n) (s : Overwrite.State n 2 Int) : Prop where
  /-- A consumer is given some of the items, in the order they were made. -/
  order : ∀ i, ((countedBy i tr).map Prod.fst).Sublist (stamped tr)
  /-- When it ends, `received` and `missed()` make up all of them, the last item is
  among those received, and the producer has made them all. -/
  all : ∀ i r, k.consumers i = .finished r → ∃ c, s.consumers i = some c ∧
    r = (countedBy i tr).length ∧ r + c.missed = p.total ∧
    (stamped tr).map Item.payload = (List.range p.total).map payload ∧
    ((countedBy i tr).map Prod.fst).getLast? = (stamped tr).getLast?
  samples : ∀ i, (k.recs i).samples = latencies p (countedBy i tr)
  /-- The report is that of all samples, under the loss of all handles together. -/
  report : printed tr = [] ∧ k.main ≠ .reported ∨ k.main = .reported ∧
    (∀ i, ∃ r, k.consumers i = .finished r) ∧
    printed tr = [BenchmarkThreads.report
      (p.labelled rate ((∑ i, missedBy s i) % 2 ^ 64) ((∑ i, (countedBy i tr).length) % 2 ^ 64))
      (∑ i, (latencies p (countedBy i tr) : Multiset Nat))]

theorem last_of_greatest {ps : List Nat} {t : Nat} (hsorted : ps.Pairwise (· < ·)) (ht : t ∈ ps)
    (hle : ∀ q ∈ ps, q ≤ t) : ∃ qs, ps = qs ++ [t] := by
  obtain ⟨qs, rs, rfl⟩ := List.append_of_mem ht
  obtain ⟨_, hrest, _⟩ := List.pairwise_append.mp hsorted
  cases rs with
  | nil => exact ⟨qs, rfl⟩
  | cons r rs =>
    have hlt := (List.pairwise_cons.mp hrest).1 r (by simp)
    have := hle r (by simp)
    omega

theorem Inv.order (h : Inv p rate tr k s)
    (hq : (Overwrite.machine n 2 Int none cap).RunWhere NoThrow (seen (Client.heard tr)) s)
    (i : Fin n) : (delivered i (seen (Client.heard tr))).Pairwise (· < ·) ∧
      ∀ q ∈ delivered i (seen (Client.heard tr)),
        1 ≤ q ∧ q ≤ (stamped (Client.told tr)).length := by
  refine ⟨?_, ?_⟩
  · have hbalanced := run_balanced hq.run i
    cases hc : s.consumers i with
    | none =>
      rw [hc] at hbalanced
      rw [hbalanced.2]
      exact List.Pairwise.nil
    | some c =>
      rw [hc] at hbalanced
      exact hbalanced.2.1
  · intro q hmem
    have hfound : (stamped (Client.told tr))[q - 1]? ∈
        ((countedBy i (Client.told tr)).map Prod.fst ++ pending (k.consumers i)).map some := by
      rw [← h.got i]
      exact List.mem_map_of_mem hmem
    obtain ⟨item, _, hitem⟩ := List.mem_map.mp hfound
    have hlt := (List.getElem?_eq_some_iff.mp hitem.symm).1
    have hpos := run_positive hq.run i q hmem
    exact ⟨hpos, by omega⟩

/-- A consumer that has ended has a handle past the last item. -/
theorem Inv.caught_up (h : Inv p rate tr k s)
    (hq : (Overwrite.machine n 2 Int none cap).RunWhere NoThrow (seen (Client.heard tr)) s)
    {i : Fin n} {r : Nat} (hpc : k.consumers i = .finished r) :
    ∃ c, s.consumers i = some c ∧ r = (countedBy i (Client.told tr)).length ∧
      r + c.missed = p.total ∧
      (stamped (Client.told tr)).map Item.payload = (List.range p.total).map payload ∧
      ((countedBy i (Client.told tr)).map Prod.fst).getLast? =
        (stamped (Client.told tr)).getLast? := by
  have hgo : k.go = true := h.consumer_going fun he => LossyPc.noConfusion (hpc.symm.trans he)
  obtain ⟨c, hc⟩ := h.handle hgo i
  have hplace := h.place i c hc
  have hgot := h.got i
  have hbalanced := run_balanced hq.run i
  have hstarts := h.starts i c hc
  have hnewest := run_newest hq.run i c hc
  obtain ⟨hsorted, hrange⟩ := h.order hq i
  rw [hpc] at hplace hgot
  rw [hc] at hbalanced
  obtain ⟨_, hgiven, hdone, hpos⟩ := hplace
  obtain ⟨hidle, hwrite, hmade⟩ := h.all_published (run_ring hq) (run_inv hq.run) (h.closed hdone)
  obtain ⟨⟨start, hstart, hsum⟩, _⟩ := hbalanced
  obtain rfl := (List.cons.inj (hstart.symm.trans hstarts)).1
  rw [show pending (.finished r) = [] from rfl, List.append_nil] at hgot
  have hcount : (delivered i (seen (Client.heard tr))).length =
      (countedBy i (Client.told tr)).length := by
    have hlengths := congrArg List.length hgot
    simpa using hlengths
  refine ⟨c, hc, by omega, by omega, by rw [h.payloads, hmade], ?_⟩
  rcases hnewest with hle | hfirst | hlast
  · omega
  · rw [hstarts] at hfirst
    have hzero : p.total = 0 := by
      have := List.mem_singleton.mp hfirst
      omega
    have hnothing : (countedBy i (Client.told tr)).length = 0 := by omega
    rw [List.length_eq_zero_iff.mp hnothing, List.length_eq_zero_iff.mp (hmade.trans hzero)]
    rfl
  · rw [hpos, Nat.add_sub_cancel] at hlast
    obtain ⟨qs, hqs⟩ := last_of_greatest hsorted hlast (fun q hmem => hmade ▸ (hrange q hmem).2)
    rw [hqs, List.map_append, List.map_cons, List.map_nil] at hgot
    obtain ⟨ys, zs, hxs, _, hzs⟩ := List.map_eq_append_iff.mp hgot.symm
    obtain ⟨y, rfl, hy⟩ := List.map_eq_singleton_iff.mp hzs
    rw [hxs, List.getLast?_concat, hy, List.getLast?_eq_getElem?, hmade]

/-- The sums that the label is made of. -/
theorem Inv.totals (h : Inv p rate tr k s)
    (hq : (Overwrite.machine n 2 Int none cap).RunWhere NoThrow (seen (Client.heard tr)) s)
    (hm : k.main = .reported) (hfinished : ∀ i, ∃ r, k.consumers i = .finished r) :
    k.shared.missedTotal = (∑ i, missedBy s i) % 2 ^ 64 ∧
      k.shared.receivedTotal = (∑ i, (countedBy i (Client.told tr)).length) % 2 ^ 64 := by
  have hreceived : ∀ i, (k.consumers i).received = (countedBy i (Client.told tr)).length := by
    intro i
    obtain ⟨r, hpc⟩ := hfinished i
    obtain ⟨_, _, hr, _⟩ := h.caught_up hq hpc
    rw [hpc, ← hr]
    rfl
  rw [h.tally.missed, h.tally.received, h.tally.reported hm]
  rw [List.take_of_length_le (by simp), List.take_of_length_le (by simp), List.sum_ofFn,
    List.sum_ofFn]
  simp only [hreceived, and_self]

theorem Inv.exact (h : Inv p rate tr k s)
    (hq : (Overwrite.machine n 2 Int none cap).RunWhere NoThrow (seen (Client.heard tr)) s) :
    Exact p rate (Client.told tr) k s := by
  refine ⟨?_, fun i r hpc => h.caught_up hq hpc, h.samples, ?_⟩
  · intro i
    obtain ⟨hsorted, hrange⟩ := h.order hq i
    exact ((List.sublist_append_left _ _).trans (sublist_of_places hsorted hrange (h.got i))).trans
      (List.take_sublist _ _)
  · refine h.main.printed.imp id (fun hp => ?_)
    have hfinished : ∀ i, ∃ r, k.consumers i = .finished r := by
      intro i
      have hexited := (h.main.reported hp.1).2.1 i
      cases hpc : k.consumers i with
      | finished r => exact ⟨r, rfl⟩
      | _ => rw [hpc] at hexited; cases hexited
    obtain ⟨hmissed, hreceived⟩ := h.totals hq hp.1 hfinished
    have hsamples : ∀ i, (k.recs i).samples = _ := h.samples
    refine ⟨hp.1, hfinished, ?_⟩
    rw [hp.2, hmissed, hreceived, allSamples]
    simp only [hsamples]

/-- `run_overwrite_benchmark` ends with every item received or counted as missed by
every consumer, the last one received by all, and prints the share of the missed. -/
theorem run_overwrite_benchmark_exact (hlt : p.total < 2 ^ 63)
    (hr : ((runOverwriteBenchmark p rate).runs
      (called (Overwrite.machine n 2 Int (some 64) cap))).Run tr (k, s)) :
    Exact p rate (Client.told tr) k s := by
  obtain ⟨hq, h⟩ := run_lossy_inv (run_unbounded hlt hr)
  exact h.exact hq

/-- Three items and one consumer, no warmup. -/
def threeItems : Plan 1 :=
  ⟨"one", 0, 3, ⟨id, id, id, id, id, id⟩, false, by decide, Nat.one_pos⟩

/-- A percentage in tenths. -/
def tenths (missed total : Nat) : String :=
  let t := (2000 * missed + total) / (2 * total)
  toString (t / 10) ++ "." ++ toString (t % 10)

/-- The producer stamps its item and publishes it. -/
def publishing (ns : BitVec 64) (k : Int) (w v : Fin 2) :
    List ((Overwrite.Act 1 2 Int ⊕ Fin 1) ⊕ Choice 1) :=
  .inr (.producer ns) :: ([.publish (some ![ns.toInt, k]), .producer, .producer, .producer,
    .producerWord w, .producerWord v, .producer, .producer].map (fun a => .inl (.inl a)))

/-- The consumer is given an item and reads the clock. -/
def receiving (ns : BitVec 64) (i : Fin 1) (w v : Fin 2) :
    List ((Overwrite.Act 1 2 Int ⊕ Fin 1) ⊕ Choice 1) :=
  [.tryRead i ![0, 0], .reader i, .readerWord i w, .readerWord i v, .reader i].map
    (fun a => .inl (.inl a)) ++ [.inr (.consumer i ns)]

/-- The consumer begins after the third item has overwritten the first. -/
def loseOne (i : Fin 1) (w v : Fin 2) : List ((Overwrite.Act 1 2 Int ⊕ Fin 1) ⊕ Choice 1) :=
  [.inl (.inl (.makeConsumer i)), .inr .main, .inr (.producer 0)] ++
  publishing 5 0 w v ++ publishing 6 1 w v ++ publishing 7 2 w v ++
  [.inr (.consumer i 0), .inl (.inl (.tryRead i ![0, 0])), .inl (.inl (.reader i)),
   .inl (.inl (.reader i))] ++
  receiving 9 i w v ++ receiving 9 i w v ++
  [.inr (.producer 0), .inl (.inl (.tryRead i ![0, 0])), .inl (.inl (.reader i)),
   .inr (.consumer i 0), .inl (.inl (.tryRead i ![0, 0])), .inl (.inl (.reader i)),
   .inr (.consumer i 0), .inr .main, .inr .main, .inl (.inr i), .inr .main, .inr .main, .inr .main]

/-- One item of three is lost, and the label says so. -/
theorem run_overwrite_benchmark_exact_lost : ∃ tr k s,
    ((runOverwriteBenchmark threeItems tenths).runs
      (called (Overwrite.machine 1 2 Int (some 64) twoSlots.toCapacity))).Run tr (k, s) ∧
    printed (Client.told tr) =
      [[.line .header, .line (.row "one (loss 33.3%)" ⟨2, (5, 2), 3, 3, 3, 3, 3, 3, 3⟩)]] ∧
    Exact threeItems tenths (Client.told tr) k s := by
  have hr : ((runOverwriteBenchmark threeItems tenths).runs
      (called (Overwrite.machine 1 2 Int (some 64) twoSlots.toCapacity))).Run _ (_, _) :=
    Machine.run_of_exec (loseOne 0 0 1) rfl
  exact ⟨_, _, _, hr, rfl, run_overwrite_benchmark_exact (by decide) hr⟩

end Toolbox.Proofs.BenchmarkLossy
