import Toolbox.Base.Client
import Toolbox.Callers
import Toolbox.Proofs.SpscFifo

namespace Toolbox.Proofs.SpscHandoff
open Base Spsc SpscFifo

variable {T : Type*} {cap : Capacity} {s s' : State T} {a : Act T} {es : List (Event T)}
  {x x' : Handoff.State 1 T}

def pushOf : ProducerPc T → Handoff.PushPc T
  | .idle => .idle
  | .loadTail arg | .loadHead arg _ | .write arg _ => .offered .tries arg
  | .storeTail v _ => .offered .tries (some v)

/-- A pop takes effect with its `head` store, which also gives the slot free and
ends the call. -/
def popOf : ConsumerPc T → Handoff.PopPc T
  | .idle => .idle
  | .loadHead | .loadTail _ | .move _ | .storeHead _ _ => .asked .tries

structure Shows (cap : Capacity) (s : State T) (x : Handoff.State 1 T) : Prop where
  holds : Holds cap s (x.log.drop x.taken)
  taken : x.taken ≤ x.log.length
  push : x.push = pushOf s.producer
  pop : x.pops 0 = popOf s.consumer

theorem held_none (h : Shows cap s x) (i : Fin 1) : Handoff.held (x.pops i) = none := by
  rw [Subsingleton.elim i 0, h.pop]
  cases s.consumer <;> rfl

theorem roomy_iff (h : Shows cap s x) :
    x.Roomy (cap.size - 1) ↔ (x.log.drop x.taken).length + 1 < cap.size := by
  have htaken := h.taken
  rw [List.length_drop]
  constructor
  · rintro (hlt | ⟨hlt, _⟩) <;> omega
  · intro hlt
    refine .inr ⟨by omega, ?_⟩
    intro i
    rw [held_none h i]
    exact Option.some_ne_none _ ∘ Eq.symm

theorem next_item (x : Handoff.State 1 T) : x.log[x.taken]? = (x.log.drop x.taken).head? := by
  rw [List.head?_drop]

theorem initial_shows [Inhabited T] (cap : Capacity) :
    Shows cap (machine T cap).init (Handoff.machine 1 T (cap.size - 1)).init :=
  ⟨initial_holds cap, Nat.le_refl 0, rfl, rfl⟩

/-- The queue answers `ds` with some schedule. -/
def Answers (cap : Capacity) (x : Handoff.State 1 T) (ds : List (Handoff.Event 1 T))
    (s' : State T) : Prop :=
  ∃ bs x', (Handoff.machine 1 T (cap.size - 1)).exec x bs = some (x', ds) ∧ Shows cap s' x'

theorem Shows.at_producer (h : Shows cap s x) (pc : ProducerPc T)
    (hholds : Holds cap { s with producer := pc } (x.log.drop x.taken)) :
    Shows cap { s with producer := pc } (x.atPush (pushOf pc)) :=
  ⟨hholds, h.taken, rfl, h.pop⟩

theorem Shows.at_consumer (h : Shows cap s x) (pc : ConsumerPc T)
    (hholds : Holds cap { s with consumer := pc } (x.log.drop x.taken)) :
    Shows cap { s with consumer := pc } (x.atPop 0 (popOf pc)) :=
  ⟨hholds, h.taken, h.push, Handoff.pops_at_pop x 0 (popOf pc) 0⟩

theorem Shows.stutter (h : Shows cap s x) (hholds : Holds cap s' (x.log.drop x.taken))
    (hpush : pushOf s'.producer = pushOf s.producer)
    (hpop : popOf s'.consumer = popOf s.consumer) : Answers cap x [] s' :=
  ⟨[], x, rfl, hholds, h.taken, h.push.trans hpush.symm, h.pop.trans hpop.symm⟩

theorem Shows.one (h : Shows cap s' x') {b : Handoff.Act 1 T} {ds : List (Handoff.Event 1 T)}
    (hs : Handoff.step (cap.size - 1) x b = some (x', ds)) : Answers cap x ds s' :=
  ⟨[b], x', Machine.exec_single hs, h⟩

theorem producer_answered (h : Shows cap s x) (hs : stepProducer cap s = some (s', es)) :
    Answers cap x (es.filterMap Event.shown) s' := by
  have hprod := h.holds.producer
  have hpush := h.push
  have hroomy := roomy_iff h
  have hroom := h.holds.room
  cases hp : s.producer with
  | idle => simp [stepProducer, hp] at hs
  | loadTail arg =>
    simp only [stepProducer, hp, Option.some.injEq, Prod.mk.injEq] at hs
    obtain ⟨rfl, rfl⟩ := hs
    exact h.stutter (h.holds.at_producer rfl) (by rw [hp]; rfl) rfl
  | loadHead arg t =>
    rw [hp] at hpush
    simp only [hp, ProducerOk] at hprod
    subst t
    simp only [stepProducer, hp, full_iff h.holds] at hs
    split at hs
    all_goals
      simp only [Option.some.injEq, Prod.mk.injEq] at hs
      obtain ⟨rfl, rfl⟩ := hs
    · have hfull : ¬ x.Roomy (cap.size - 1) := by
        rw [hroomy]
        omega
      refine (h.at_producer .idle (h.holds.at_producer trivial)).one (b := .refuse) ?_
      simp only [Handoff.step, hpush, pushOf, if_neg hfull]
      rfl
    · exact h.stutter (h.holds.at_producer ⟨rfl, by omega⟩) (by rw [hp]; rfl) rfl
  | write arg t =>
    rw [hp] at hpush
    simp only [hp, ProducerOk] at hprod
    obtain ⟨rfl, hlt⟩ := hprod
    cases arg with
    | none =>
      simp only [stepProducer, hp, Option.some.injEq, Prod.mk.injEq] at hs
      obtain ⟨rfl, rfl⟩ := hs
      refine (h.at_producer .idle (h.holds.at_producer trivial)).one (b := .throw) ?_
      simp only [Handoff.step, hpush, pushOf, if_pos (hroomy.mpr hlt)]
      rfl
    | some v =>
      simp only [stepProducer, hp, Option.some.injEq, Prod.mk.injEq] at hs
      obtain ⟨rfl, rfl⟩ := hs
      exact h.stutter (h.holds.write v hlt) (by rw [hp]; rfl) rfl
  | storeTail v t =>
    rw [hp] at hpush
    simp only [hp, ProducerOk] at hprod
    simp only [stepProducer, hp, Option.some.injEq, Prod.mk.injEq] at hs
    obtain ⟨rfl, rfl⟩ := hs
    have hstored := h.holds.push hp
    rw [← List.drop_append_of_le_length h.taken] at hstored
    have hstore : Handoff.step (cap.size - 1) x .store =
        some ({ x with log := x.log ++ [v] }.atPush .stored, []) := by
      simp only [Handoff.step, hpush, pushOf, if_pos (hroomy.mpr hprod.2.1)]
    have hexec : (Handoff.machine 1 T (cap.size - 1)).exec x [.store, .finish] =
        some (({ x with log := x.log ++ [v] }.atPush .stored).atPush .idle, [] ++ [.pushed]) :=
      Machine.exec_step hstore (Machine.exec_single rfl)
    refine ⟨_, _, hexec, hstored, ?_, rfl, h.pop⟩
    rw [Handoff.log_at_push, Handoff.log_at_push, List.length_append]
    exact Nat.le_add_right_of_le h.taken

theorem consumer_answered (h : Shows cap s x) (hs : stepConsumer cap s = some (s', es)) :
    Answers cap x (es.filterMap Event.shown) s' := by
  have hcons := h.holds.consumer
  have hpop := h.pop
  cases hc : s.consumer with
  | idle | move n => simp [stepConsumer, hc] at hs
  | loadHead =>
    simp only [stepConsumer, hc, Option.some.injEq, Prod.mk.injEq] at hs
    obtain ⟨rfl, rfl⟩ := hs
    exact h.stutter (h.holds.at_consumer (by simp [hc, Moved]) rfl) rfl (by rw [hc]; rfl)
  | loadTail n =>
    rw [hc] at hpop
    simp only [hc, ConsumerOk] at hcons
    subst n
    simp only [stepConsumer, hc, empty_iff h.holds] at hs
    split at hs
    all_goals
      rename_i hq
      simp only [Option.some.injEq, Prod.mk.injEq] at hs
      obtain ⟨rfl, rfl⟩ := hs
    · have hnone : x.log[x.taken]? = none := by rw [next_item, hq, List.head?_nil]
      refine (h.at_consumer .idle (h.holds.at_consumer (by simp [hc, Moved]) trivial)).one
        (b := .miss 0) ?_
      simp only [Handoff.step, hpop, popOf, hnone]
      rfl
    · exact h.stutter (h.holds.at_consumer (by simp [hc, Moved]) ⟨rfl, hq⟩) rfl (by rw [hc]; rfl)
  | storeHead v n =>
    rw [hc] at hpop
    simp only [hc, ConsumerOk] at hcons
    simp only [stepConsumer, hc, Option.some.injEq, Prod.mk.injEq] at hs
    obtain ⟨rfl, rfl⟩ := hs
    obtain ⟨rest, hq, hrest⟩ := h.holds.pop hc
    have hv : x.log[x.taken]? = some v := by rw [next_item, hcons.2]
    have hdrop : rest = x.log.drop (x.taken + 1) := by
      rw [← List.tail_drop, hq, List.tail_cons]
    rw [hdrop] at hrest
    have htake : Handoff.step (cap.size - 1) x (.take 0) =
        some ({ x with taken := x.taken + 1 }.atPop 0 (.holds x.taken v), []) := by
      simp only [Handoff.step, hpop, popOf, hv]
    have hexec : (Handoff.machine 1 T (cap.size - 1)).exec x [.take 0, .release 0, .give 0] =
        some ((({ x with taken := x.taken + 1 }.atPop 0 (.holds x.taken v)).atPop 0
          (.released v)).atPop 0 .idle, [] ++ ([] ++ [.given 0 v])) :=
      Machine.exec_step htake (Machine.exec_step rfl (Machine.exec_single rfl))
    refine ⟨_, _, hexec, hrest, ?_, h.push, rfl⟩
    exact (List.getElem?_eq_some_iff.mp hv).1

/-- `SPSCQueue` shows its callers nothing that a queue with operations of one step
each would not show them. -/
theorem simulation [Inhabited T] :
    Simulation ((machine T cap).relabel shown) (Handoff.machine 1 T (cap.size - 1))
      (Shows cap) where
  init := initial_shows cap
  step := by
    intro s x a s' ds h hs
    obtain ⟨es, hstep, rfl⟩ := Machine.relabel_step hs
    have hpush := h.push
    have hpop := h.pop
    cases a with
    | producer => exact producer_answered h hstep
    | consumer => exact consumer_answered h hstep
    | tryEmplace arg =>
      simp only [machine, step] at hstep
      split at hstep
      · rename_i hp
        cases hstep
        rw [hp] at hpush
        have hoffered := h.at_producer (.loadTail arg) (h.holds.at_producer trivial)
        refine hoffered.one (b := .offer .tries arg) ?_
        simp only [Handoff.step, hpush, pushOf, shown]
      · cases hstep
    | tryPop =>
      simp only [machine, step] at hstep
      split at hstep
      · rename_i hc
        cases hstep
        rw [hc] at hpop
        refine (h.at_consumer .loadHead (h.holds.at_consumer (by simp [hc, Moved]) trivial)).one
          (b := .ask 0 .tries) ?_
        simp only [Handoff.step, hpop, popOf, shown]
      · cases hstep
    | move left =>
      simp only [machine, step] at hstep
      split at hstep
      · rename_i n hc
        cases hstep
        exact h.stutter (h.holds.take left hc) rfl (by rw [hc]; rfl)
      · cases hstep

end Toolbox.Proofs.SpscHandoff
