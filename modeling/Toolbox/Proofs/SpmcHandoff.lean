import Toolbox.Base.Client
import Toolbox.Callers
import Toolbox.Proofs.SpmcAnswers
import Toolbox.Proofs.SpmcWrap

namespace Toolbox.Proofs.SpmcHandoff
open Base Spmc SpmcMoves SpmcSlots

variable {n : Nat} {T : Type*} {cap : RingCapacity} {s s' : State n T} {a : Act n T}
  {es : List (Event n T)} {x : Handoff.State n T}

/-- A push has taken effect once its slot shows the item to consumers. From the free slot on
the two calls run the same code, and `how` tells which it was. -/
def pushOf (how : Handoff.Manner) : ProducerPc T → Handoff.PushPc T
  | .idle => .idle
  | .loadTail call arg | .loadSeq call arg _ => .offered call.manner arg
  | .wait arg _ _ | .parked arg _ _ => .offered .waits arg
  | .construct arg _ => .offered how arg
  | .storeSeq v _ => .offered how (some v)
  | .storeTail _ _ | .notifyAll _ _ => .stored

/-- A pop has taken effect with its claim, and its slot is free with its sequence
store. -/
def popOf (log : List T) : ConsumerPc T → Handoff.PopPc T
  | .idle => .idle
  | .loadHead call | .loadSeq call _ | .reload call _ | .cas call _ => .asked call.manner
  | .wait _ _ | .parked _ _ => .asked .waits
  | .moveOut h =>
    match log[h]? with
    | some v => .holds h v
    | none => .asked .tries
  | .storeSeq h v => .holds h v
  | .notifyOne _ v => .released v

/-- `s` is the queue `x` with its steps in progress. -/
structure Shows (cap : Capacity) (s : State n T) (x : Handoff.State n T) : Prop where
  inv : Inv cap x.log s
  taken : x.taken = s.head
  push : ∃ how, x.push = pushOf how s.producer
  pops : ∀ i, x.pops i = popOf x.log (s.consumers i)

theorem Shows.keep (h : Shows cap.toCapacity s x) (hinv : Inv cap.toCapacity x.log s')
    (hhead : s'.head = s.head)
    (hpush : ∀ how, ∃ how', pushOf how s.producer = pushOf how' s'.producer)
    (hpops : ∀ i, popOf x.log (s'.consumers i) = popOf x.log (s.consumers i)) :
    Shows cap.toCapacity s' x := by
  obtain ⟨how, hhow⟩ := h.push
  obtain ⟨how', hnext⟩ := hpush how
  exact ⟨hinv, by rw [hhead, h.taken], ⟨how', hhow.trans hnext⟩, fun i => by rw [hpops i, h.pops i]⟩

@[simp] theorem push_of_woken (how : Handoff.Manner) (pc : ProducerPc T) :
    pushOf how pc.woken = pushOf how pc := by
  cases pc <;> rfl

@[simp] theorem pop_of_woken (log : List T) (pc : ConsumerPc T) :
    popOf log pc.woken = popOf log pc := by
  cases pc <;> rfl

theorem push_of_wake (how : Handoff.Manner) (s : State n T) (w : Waiter n) :
    pushOf how (s.wake w).producer = pushOf how s.producer := by
  cases w <;> simp [State.wake]

theorem pop_of_wake (log : List T) (s : State n T) (w : Waiter n) (i : Fin n) :
    popOf log ((s.wake w).consumers i) = popOf log (s.consumers i) := by
  cases w with
  | producer => rfl
  | consumer j =>
    simp only [State.wake, consumers_at_consumer]
    split
    · rename_i hj
      rw [hj, pop_of_woken]
    · rfl

theorem held_pop_of (h : Shows cap.toCapacity s x) (i : Fin n) :
    Handoff.held (x.pops i) = held (s.consumers i) := by
  have hok := h.inv.consumer i
  rw [h.pops i]
  cases hc : s.consumers i with
  | moveOut p =>
    obtain ⟨v, _, hv⟩ := h.inv.move_out_live hc
    simp only [popOf, hv, Handoff.held, held]
  | _ => rfl

/-- The queue has a place for the next item when the slot of that position is free,
and has none when it is not. -/
theorem roomy_iff (h : Shows cap.toCapacity s x) :
    x.Roomy cap.size ↔ s.seq cap.toCapacity x.log.length = x.log.length := by
  have htwo := cap.two_le
  have hheld := held_pop_of h
  unfold Handoff.State.Roomy
  rw [h.taken]
  constructor
  · intro hroom
    cases h.inv.slot x.log.length (Nat.le_refl _) (by omega) with
    | free hseq _ _ => exact hseq
    | full p hq _ hle _ => omega
    | taken p i hq _ _ hi =>
      obtain rfl : p = x.log.length - cap.size := by omega
      rcases hroom with hlt | ⟨_, hnone⟩
      · omega
      · exact absurd ((hheld i).trans hi) (hnone i)
  · intro hseq
    cases h.inv.slot x.log.length (Nat.le_refl _) (by omega) with
    | free _ hlt _ =>
      refine Classical.or_iff_not_imp_left.mpr fun hge => ⟨hlt, ?_⟩
      intro i hi
      rw [hheld i] at hi
      obtain ⟨_, _, hfull⟩ := held_ok (h.inv.consumer i) hi
      have hne := free_ne_used hseq hfull
      apply hne
      rw [← cap.index_add_size (x.log.length - cap.size), Nat.sub_add_cancel (by omega)]
    | full p hq hfull _ _ => omega
    | taken p i hq hfull _ _ => omega

theorem initial_shows :
    Shows cap.toCapacity (machine n T none cap.toCapacity).init (Handoff.machine n T cap.size).init :=
  ⟨initial_inv, rfl, ⟨.tries, rfl⟩, fun _ => rfl⟩

/-- A step that only moves the producer's program counter. -/
theorem Shows.at_producer (h : Shows cap.toCapacity s x) {pc : ProducerPc T}
    (hinv : Inv cap.toCapacity x.log (s.atProducer pc))
    (hpush : ∀ how, ∃ how', pushOf how s.producer = pushOf how' pc) :
    Shows cap.toCapacity (s.atProducer pc) x :=
  h.keep hinv rfl hpush (fun _ => rfl)

theorem Shows.at_consumer (h : Shows cap.toCapacity s x) {i : Fin n} {pc : ConsumerPc T}
    (hinv : Inv cap.toCapacity x.log (s.atConsumer i pc))
    (hpop : popOf x.log pc = popOf x.log (s.consumers i)) :
    Shows cap.toCapacity (s.atConsumer i pc) x := by
  refine h.keep hinv rfl (fun how => ⟨how, rfl⟩) ?_
  intro j
  rw [consumers_at_consumer]
  split
  · rename_i hj
    rw [hj, hpop]
  · rfl

/-- The producer's call begins, ends or changes its program counter, and so does the
push. -/
theorem Shows.push_step (h : Shows cap.toCapacity s x) {pc : ProducerPc T}
    (hinv : Inv cap.toCapacity x.log (s.atProducer pc)) (how : Handoff.Manner) :
    Shows cap.toCapacity (s.atProducer pc) (x.atPush (pushOf how pc)) :=
  ⟨hinv, h.taken, ⟨how, rfl⟩, h.pops⟩

theorem Shows.pop_step (h : Shows cap.toCapacity s x) {i : Fin n} {pc : ConsumerPc T}
    (hinv : Inv cap.toCapacity x.log (s.atConsumer i pc)) :
    Shows cap.toCapacity (s.atConsumer i pc) (x.atPop i (popOf x.log pc)) := by
  refine ⟨hinv, h.taken, h.push, ?_⟩
  intro j
  rw [Handoff.pops_at_pop, consumers_at_consumer]
  split
  · rfl
  · exact h.pops j

theorem Shows.wake (h : Shows cap.toCapacity s x) (w : Waiter n) :
    Shows cap.toCapacity (s.wake w) x :=
  h.keep (h.inv.wake w) (SpmcClaims.head_wake s w) (fun how => ⟨how, (push_of_wake how s w).symm⟩)
    (pop_of_wake x.log s w)

theorem Shows.wake_all (h : Shows cap.toCapacity s x) (pos : Nat) :
    Shows cap.toCapacity (s.wakeAll cap.toCapacity pos) x := by
  refine h.keep (h.inv.wake_all pos) rfl ?_ ?_
  · intro how
    refine ⟨how, ?_⟩
    simp only [State.wakeAll]
    split
    · exact (push_of_woken how _).symm
    · rfl
  · intro i
    simp only [State.wakeAll]
    split
    · exact pop_of_woken _ _
    · rfl

/-- With the sequence store an item joins the queue, and no pop notices. -/
theorem Shows.produce (h : Shows cap.toCapacity s x) {v : T} {t : Nat}
    (hp : s.producer = .storeSeq v t) :
    Shows cap.toCapacity ((s.storeSeq cap.toCapacity t (t + 1)).atProducer (.storeTail v t))
      ({ x with log := x.log ++ [v] }.atPush .stored) := by
  refine ⟨h.inv.produce hp, h.taken, ⟨.tries, rfl⟩, ?_⟩
  intro i
  change x.pops i = popOf (x.log ++ [v]) (s.consumers i)
  rw [h.pops i]
  cases hc : s.consumers i with
  | moveOut p =>
    obtain ⟨u, _, hu⟩ := h.inv.move_out_live hc
    have hlt := (List.getElem?_eq_some_iff.mp hu).1
    simp only [popOf, List.getElem?_append_left hlt]
  | _ => rfl

theorem Shows.claim (h : Shows cap.toCapacity s x) {i : Fin n} {call : PopCall} {p : Nat}
    (hc : s.consumers i = .cas call p) (hhead : s.head = p) :
    ∃ v, x.log[x.taken]? = some v ∧
      Shows cap.toCapacity ({ s with head := p + 1 }.atConsumer i (.moveOut p))
        ({ x with taken := x.taken + 1 }.atPop i (.holds x.taken v)) := by
  have hok := h.inv.consumer i
  rw [hc] at hok
  obtain ⟨v, hv⟩ : ∃ v, x.log[p]? = some v := ⟨_, List.getElem?_eq_getElem hok.2⟩
  have htaken : x.taken = p := h.taken.trans hhead
  refine ⟨v, by rw [htaken, hv], h.inv.claim hc hhead, congrArg (· + 1) htaken, h.push, ?_⟩
  intro j
  rw [Handoff.pops_at_pop, consumers_at_consumer]
  split
  · simp only [popOf, Handoff.log_at_pop, hv, htaken]
  · exact h.pops j

/-- The queue answers `es` with the schedule `bs`. -/
def Answers (cap : RingCapacity) (x : Handoff.State n T) (es : List (Event n T))
    (s' : State n T) : Prop :=
  ∃ bs x', (Handoff.machine n T cap.size).exec x bs = some (x', es.filterMap Event.shown) ∧
    Shows cap.toCapacity s' x'

theorem Answers.stutter (h : Shows cap.toCapacity s' x) (hes : es.filterMap Event.shown = []) :
    Answers cap x es s' :=
  ⟨[], x, by rw [hes]; rfl, h⟩

theorem Answers.one {b : Handoff.Act n T} {x' : Handoff.State n T}
    (hs : Handoff.step cap.size x b = some (x', es.filterMap Event.shown))
    (h : Shows cap.toCapacity s' x') : Answers cap x es s' :=
  ⟨[b], x', Machine.exec_single hs, h⟩

theorem Shows.producer_move (h : Shows cap.toCapacity s x) {pc : ProducerPc T}
    (hm : ProducerMove cap.toCapacity s pc es) (hidle : s.producer = .idle → pc = .idle) :
    Answers cap x es (s.atProducer pc) := by
  have hinv := h.inv.producer_move hm
  have hprod := h.inv.producer
  obtain ⟨how, hpush⟩ := h.push
  cases hm with
  | call hp => cases hidle hp
  | loadTail hp | block hp _ | park hp _ | changed hp _ =>
    exact .stutter (h.at_producer hinv (by rw [hp]; exact fun how => ⟨how, rfl⟩)) rfl
  | @free call arg t hp _ =>
    exact .stutter (h.at_producer hinv (by rw [hp]; exact fun _ => ⟨call.manner, rfl⟩)) rfl
  | full hp hseq =>
    rw [hp] at hprod hpush
    have hroom : ¬ x.Roomy cap.size := by rwa [roomy_iff h, ← hprod.1]
    refine .one (b := .refuse) ?_ (h.push_step hinv how)
    simp only [Handoff.step, hpush, pushOf, EmplaceCall.manner, if_neg hroom]
    rfl
  | threw hp =>
    rw [hp] at hprod hpush
    have hroom : x.Roomy cap.size := by
      rw [roomy_iff h, ← hprod.1]
      exact hprod.2.2
    refine .one (b := .throw) ?_ (h.push_step hinv how)
    simp only [Handoff.step, hpush, pushOf, if_pos hroom]
    rfl

theorem Shows.consumer_move (h : Shows cap.toCapacity s x) {i : Fin n} {pc : ConsumerPc T}
    (hm : ConsumerMove cap.toCapacity s i pc es) : Answers cap x es (s.atConsumer i pc) := by
  have hinv := h.inv.consumer_move hm
  have hpop := h.pops i
  have hok := h.inv.consumer i
  cases hm with
  | @call call hc =>
    rw [hc] at hpop
    refine .one (b := .ask i call.manner) ?_ (h.pop_step hinv)
    simp only [Handoff.step, hpop, popOf]
    rfl
  | empty hc hseq =>
    rw [hc] at hpop hok
    have hnone : x.log[x.taken]? = none := by
      rw [h.taken, (SpmcAnswers.nothing_left h.inv hok hseq).2]
      exact List.getElem?_eq_none (Nat.le_refl _)
    refine .one (b := .miss i) ?_ (h.pop_step hinv)
    simp only [Handoff.step, hpop, popOf, PopCall.manner, hnone]
    rfl
  | loadHead hc | ready hc _ | block hc _ | stale hc _ | reload hc | park hc _ | changed hc _
  | lost hc _ | spurious hc _ =>
    exact .stutter (h.at_consumer hinv (by rw [hc]; rfl)) rfl

/-- Every step is answered, except that of a producer that begins a call. -/
theorem move_answered (h : Shows cap.toCapacity s x) (hm : Move cap.toCapacity s a s' es)
    (hidle : s.producer = .idle → s'.producer = .idle) : Answers cap x es s' := by
  have hinv := move_inv h.inv hm
  cases hm with
  | producer hm => exact h.producer_move hm hidle
  | consumer hm => exact h.consumer_move hm
  | construct hp =>
    refine .stutter (h.keep ?_ rfl (by rw [hp]; exact fun how => ⟨how, rfl⟩) (fun _ => rfl)) rfl
    exact h.inv.construct hp
  | produce hp =>
    have hprod := h.inv.producer
    obtain ⟨how, hpush⟩ := h.push
    rw [hp] at hprod hpush
    have hroom : x.Roomy cap.size := by
      rw [roomy_iff h, ← hprod.1]
      exact hprod.2.2.1
    refine .one (b := .store) ?_ (h.produce hp)
    simp only [Handoff.step, hpush, pushOf, if_pos hroom]
    rfl
  | storeTail hp =>
    refine .stutter (h.keep ?_ rfl (by rw [hp]; exact fun how => ⟨how, rfl⟩) (fun _ => rfl)) rfl
    exact h.inv.store_tail hp
  | @notifyAll v t hp =>
    obtain ⟨how, hpush⟩ := h.push
    rw [hp] at hpush
    refine .one (b := .finish) ?_ ((h.wake_all t).push_step (by simpa [produced] using hinv) how)
    simp only [Handoff.step, hpush, pushOf]
    rfl
  | @claim i call p hc hhead =>
    have hpop := h.pops i
    rw [hc] at hpop
    obtain ⟨v, hv, hshows⟩ := h.claim hc hhead
    refine .one (b := .take i) ?_ hshows
    simp only [Handoff.step, hpop, popOf, hv]
    rfl
  | @moveOut i p v hc hstore =>
    obtain ⟨u, hu, hlog⟩ := h.inv.move_out_live hc
    obtain rfl : v = u := Option.some.inj (hstore.symm.trans hu)
    refine .stutter (h.keep (h.inv.move_out hc hstore) rfl (fun how => ⟨how, rfl⟩) ?_) rfl
    intro j
    rw [consumers_at_consumer]
    split
    · rename_i hj
      rw [hj, hc]
      simp only [popOf, hlog]
    · rfl
  | undefined hc hstore =>
    obtain ⟨v, hv, _⟩ := h.inv.move_out_live hc
    rw [hstore] at hv
    cases hv
  | @release i p v hc =>
    have hpop := h.pops i
    rw [hc] at hpop
    have hshows : Shows cap.toCapacity
        ((s.storeSeq cap.toCapacity p (p + cap.size)).atConsumer i (.notifyOne p v))
        (x.atPop i (.released v)) := by
      refine ⟨h.inv.release hc, h.taken, h.push, ?_⟩
      intro j
      rw [Handoff.pops_at_pop, consumers_at_consumer]
      split
      · rfl
      · exact h.pops j
    refine .one (b := .release i) ?_ hshows
    simp only [Handoff.step, hpop, popOf]
    rfl
  | @notifyNobody i p v hc _ =>
    have hpop := h.pops i
    rw [hc] at hpop
    refine .one (b := .give i) ?_ (h.pop_step (by simpa [produced] using hinv))
    simp only [Handoff.step, hpop, popOf]
    rfl
  | @notify i p v w hc _ =>
    have hpop := h.pops i
    rw [hc] at hpop
    refine .one (b := .give i) ?_ ((h.wake w).pop_step (by simpa [produced] using hinv))
    simp only [Handoff.step, hpop, popOf]
    rfl
  | wake => exact .stutter (h.wake _) rfl

theorem woken_idle {pc : ProducerPc T} (h : pc = .idle) : pc.woken = .idle := by
  rw [h]
  rfl

/-- Only a call of the producer's own ends its idleness. -/
theorem stays_idle (ha : ∀ call arg, a ≠ .emplace call arg)
    (hs : step none cap.toCapacity s a = some (s', es)) (hp : s.producer = .idle) :
    s'.producer = .idle := by
  cases a with
  | emplace call arg => exact absurd rfl (ha call arg)
  | producer => simp [step, stepProducer, hp] at hs
  | pop i call =>
    simp only [step] at hs
    split at hs <;> cases hs
    exact hp
  | consumer i =>
    simp only [step, stepConsumer] at hs
    repeat' split at hs
    all_goals cases hs
    all_goals exact hp
  | casFails i =>
    simp only [step] at hs
    repeat' split at hs
    all_goals cases hs
    exact hp
  | notifyOne i woken =>
    simp only [step, stepNotifyOne] at hs
    repeat' split at hs
    all_goals cases hs
    · rename_i w _
      cases w with
      | producer => exact woken_idle hp
      | consumer j => exact hp
    · exact hp
  | spurious w =>
    simp only [step] at hs
    split at hs <;> cases hs
    cases w with
    | producer => exact woken_idle hp
    | consumer j => exact hp

/-- `SPMCQueue` shows its callers nothing that a queue with operations of one step
each would not show them. -/
theorem simulation :
    Simulation ((machine n T none cap.toCapacity).relabel shown) (Handoff.machine n T cap.size)
      (Shows cap.toCapacity) where
  init := initial_shows
  step := by
    intro s x a s' ds h hs
    obtain ⟨es, hstep, rfl⟩ := Machine.relabel_step hs
    by_cases ha : ∃ call arg, a = .emplace call arg
    · obtain ⟨call, arg, rfl⟩ := ha
      obtain ⟨how, hpush⟩ := h.push
      simp only [machine, step] at hstep
      split at hstep
      · rename_i hp
        cases hstep
        rw [hp] at hpush
        refine ⟨[.offer call.manner arg], _, Machine.exec_single ?_,
          h.push_step (h.inv.producer_move (.call hp)) how⟩
        simp only [Handoff.machine, Handoff.step, hpush, pushOf, shown]
      · cases hstep
    · have hne : ∀ call arg, a ≠ .emplace call arg := fun call arg he => ha ⟨call, arg, he⟩
      have hshown : shown a es = es.filterMap Event.shown := by
        cases a with
        | emplace call arg => exact absurd rfl (hne call arg)
        | _ => rfl
      rw [hshown]
      exact move_answered h (step_moves hstep) (stays_idle hne hstep)

/-- Callers do not see positions. -/
theorem shown_wrap (w : Nat) (a : Act n T) (es : List (Event n T)) :
    shown a (es.map (SpmcWrap.wrapEvent w)) = shown a es := by
  have hone : ∀ e : Event n T, (SpmcWrap.wrapEvent w e).shown = e.shown := by
    intro e
    cases e <;> rfl
  cases a with
  | emplace call arg => rfl
  | _ => simp only [shown, List.filterMap_map, Function.comp_def, hone]

/-- Near `head_` callers cannot tell counters that wrap from unbounded ones. -/
theorem shown_lockstep {w : Nat} (hk : cap.bits + 1 ≤ w) (as : List (Act n T))
    (hnear : ((machine n T none cap.toCapacity).relabel shown).Stays (SpmcWrap.Near w cap.toCapacity)
      (machine n T none cap.toCapacity).init as) :
    Option.Rel (fun p q => SpmcWrap.Wraps w cap.toCapacity p.1 q.1 ∧ q.2 = p.2.map id)
      (((machine n T none cap.toCapacity).relabel shown).exec
        (machine n T none cap.toCapacity).init as)
      (((machine n T (some w) cap.toCapacity).relabel shown).exec
        (machine n T (some w) cap.toCapacity).init as) := by
  refine Machine.exec_lockstep (M := (machine n T none cap.toCapacity).relabel shown) id ?_ .init
    (SpmcWrap.initial_wraps (Nat.le_of_succ_le hk)) as hnear
  intro ds u s a hr h hok
  obtain ⟨tr, hrun⟩ := Machine.run_of_relabel hr
  have hboth := SpmcWrap.step_lockstep hk (run_inv hrun) (SpmcWrap.run_recalls hrun) h hok
  refine Machine.rel_map hboth ?_
  rintro ⟨u', es⟩ ⟨s', fs⟩ ⟨hwraps, rfl⟩
  exact ⟨hwraps, by rw [List.map_id, shown_wrap]⟩

/-- What callers see of every interleaving is a run of the queue whose operations each take
effect at once: items are handed out in the order they were put in, `try_pop` misses only an
empty queue, `try_emplace` is refused only while the item one lap back is waiting or its pop
has not let go of the place, and `pop_wait` and `emplace_wait` do not give up. Counters of
`w` bits do as well as long as no consumer looks further than half the range behind `head_`. -/
theorem refines_handoff :
    (∀ ds (s : State n T), ((machine n T none cap.toCapacity).relabel shown).Run ds s →
      ∃ x, (Handoff.machine n T cap.size).Run ds x ∧ x.taken = s.head ∧
        (∃ how, x.push = pushOf how s.producer) ∧ ∀ i, x.pops i = popOf x.log (s.consumers i)) ∧
    (∀ w as ds (s : State n T), cap.bits + 1 ≤ w →
      ((machine n T none cap.toCapacity).relabel shown).Stays (SpmcWrap.Near w cap.toCapacity)
        (machine n T none cap.toCapacity).init as →
      ((machine n T (some w) cap.toCapacity).relabel shown).exec
        (machine n T (some w) cap.toCapacity).init as = some (s, ds) →
      ∃ x, (Handoff.machine n T cap.size).Run ds x ∧ s.head = Width.wrap (some w) x.taken) := by
  constructor
  · intro ds s hr
    obtain ⟨x, hx, hshows⟩ := simulation.run hr
    exact ⟨x, hx, hshows.taken, hshows.push, hshows.pops⟩
  · intro w as ds s hk hnear hexec
    have hrel := shown_lockstep hk as hnear
    rw [hexec] at hrel
    cases hu : ((machine n T none cap.toCapacity).relabel shown).exec
        (machine n T none cap.toCapacity).init as with
    | none =>
      rw [hu] at hrel
      cases hrel
    | some p =>
      obtain ⟨u, es⟩ := p
      rw [hu] at hrel
      cases hrel with
      | some hpq =>
        obtain ⟨hwraps, hsame⟩ := hpq
        obtain rfl : ds = es := hsame.trans (List.map_id es)
        obtain ⟨x, hx, hshows⟩ := simulation.run (Machine.run_of_exec as hu)
        exact ⟨x, hx, hwraps.head.trans (by rw [hshows.taken])⟩

/-- Two pops that cross; and five items by two slots and two bits. -/
theorem refines_handoff_crossed :
    (∃ (s : State 2 Nat) (x : Handoff.State 2 Nat),
      (Handoff.machine 2 Nat twoSlots.toCapacity.size).Run
        [.offered .tries (some 7), .pushed, .offered .waits (some 8), .pushed, .asked 0 .tries,
          .asked 1 .waits, .given 1 8, .given 0 7] x ∧ x.taken = s.head) ∧
    ∃ (s : State 1 Nat) (ds : List (Handoff.Event 1 Nat)) (x : Handoff.State 1 Nat),
      ((machine 1 Nat (some 2) twoSlots.toCapacity).relabel shown).exec
        (machine 1 Nat (some 2) twoSlots.toCapacity).init (SpmcWrap.fiveItems 0) = some (s, ds) ∧
      ds.length = 20 ∧ (Handoff.machine 1 Nat twoSlots.toCapacity.size).Run ds x := by
  constructor
  · have hr : ((machine 2 Nat none twoSlots.toCapacity).relabel shown).Run
        [.offered .tries (some 7), .pushed, .offered .waits (some 8), .pushed, .asked 0 .tries,
          .asked 1 .waits, .given 1 8, .given 0 7] _ :=
      Machine.run_of_exec (SpmcClaims.crossedPops 0 1) rfl
    obtain ⟨x, hx, htaken, _⟩ := refines_handoff.1 _ _ hr
    exact ⟨_, x, hx, htaken⟩
  · have hnear : ((machine 1 Nat none twoSlots.toCapacity).relabel shown).Stays
        (SpmcWrap.Near 2 twoSlots.toCapacity) (machine 1 Nat none twoSlots.toCapacity).init
        (SpmcWrap.fiveItems 0) := Machine.stays_of_exec_where _ (by decide +kernel)
    have hlength : (((machine 1 Nat (some 2) twoSlots.toCapacity).relabel shown).exec
        (machine 1 Nat (some 2) twoSlots.toCapacity).init (SpmcWrap.fiveItems 0)).map
          (fun p => p.2.length) = some 20 := by decide +kernel
    obtain ⟨⟨s, ds⟩, hexec, htwenty⟩ := Option.map_eq_some_iff.mp hlength
    obtain ⟨x, hx, _⟩ := refines_handoff.2 2 _ _ _ (Nat.le_refl 2) hnear hexec
    exact ⟨s, ds, x, hexec, htwenty, hx⟩

end Toolbox.Proofs.SpmcHandoff
