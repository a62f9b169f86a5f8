import Toolbox.Base.Keyed
import Toolbox.Proofs.SpmcClaims
import Toolbox.Proofs.SpmcEffort
import Toolbox.Proofs.SpmcSleepers
import Toolbox.Proofs.SpmcWakeups

namespace Toolbox.Proofs.SpmcRest
open Base Keyed Spmc SpmcMoves SpmcSlots SpmcClaims SpmcSleepers SpmcWakeups SpmcEffort

variable {n : Nat} {T : Type*} {cap : RingCapacity} {s s' : State n T}
  {tr : List (Event n T)}

/-- Nobody has a step of its own: there is nothing to come but new calls and spurious
wakeups. -/
def Resting (cap : Capacity) (s : State n T) : Prop :=
  ∀ a, brings n a = 0 → step none cap s a = none

/-- What is left when nobody moves: every call has returned or sleeps, a consumer that
sleeps has no item to wait for, and the producer that sleeps has no slot, unless the
notification of a free one went to somebody else. -/
structure AtRest (cap : Capacity) (tr : List (Event n T)) (s : State n T) : Prop where
  producer : s.producer = .idle ∨ ∃ arg t old, s.producer = .parked arg t old
  consumers : ∀ i, s.consumers i = .idle ∨ ∃ h old, s.consumers i = .parked h old
  accepted : accepted tr = produced tr
  returned : ((pops tr).map (fun p => p.2.2)).Perm ((produced tr).take s.head)
  empty : ∀ i h old, s.consumers i = .parked h old → h = s.head ∧ (produced tr).length = s.head
  full : ∀ arg t old, s.producer = .parked arg t old →
    (produced tr).length = s.head + cap.size ∨ Stranded cap s

theorem Resting.contra {P : Prop} {cap : Capacity} (h : Resting cap s) {a : Act n T}
    (hin : brings n a = 0) (hs : step none cap s a ≠ none) : P :=
  absurd (h a hin) hs

theorem Resting.producer {cap : Capacity} (h : Resting cap s) :
    s.producer = .idle ∨ ∃ arg t old, s.producer = .parked arg t old := by
  cases hp : s.producer with
  | idle => exact .inl rfl
  | parked arg t old => exact .inr ⟨arg, t, old, rfl⟩
  | loadSeq call arg t =>
    refine h.contra (a := .producer) rfl ?_
    simp only [step, stepProducer, hp]
    split
    · exact Option.some_ne_none _
    · cases call <;> exact Option.some_ne_none _
  | wait arg t old =>
    refine h.contra (a := .producer) rfl ?_
    simp only [step, stepProducer, hp]
    split <;> exact Option.some_ne_none _
  | construct arg t => exact h.contra (a := .producer) rfl (by cases arg <;> simp [step, stepProducer, hp])
  | loadTail | storeSeq | storeTail | notifyAll =>
    exact h.contra (a := .producer) rfl (by simp [step, stepProducer, hp])

theorem Resting.consumer {cap : Capacity} (h : Resting cap s) (i : Fin n) :
    s.consumers i = .idle ∨ ∃ p old, s.consumers i = .parked p old := by
  cases hc : s.consumers i with
  | idle => exact .inl rfl
  | parked p old => exact .inr ⟨p, old, rfl⟩
  | loadSeq call p =>
    refine h.contra (a := .consumer i) rfl ?_
    simp only [step, stepConsumer, hc]
    split
    · exact Option.some_ne_none _
    · cases call <;> exact Option.some_ne_none _
    · exact Option.some_ne_none _
  | wait p old =>
    refine h.contra (a := .consumer i) rfl ?_
    simp only [step, stepConsumer, hc]
    split <;> exact Option.some_ne_none _
  | cas call p =>
    refine h.contra (a := .consumer i) rfl ?_
    simp only [step, stepConsumer, hc]
    split <;> exact Option.some_ne_none _
  | moveOut p =>
    refine h.contra (a := .consumer i) rfl ?_
    simp only [step, stepConsumer, hc]
    split <;> exact Option.some_ne_none _
  | loadHead | reload | storeSeq =>
    exact h.contra (a := .consumer i) rfl (by simp [step, stepConsumer, hc])
  | notifyOne p v =>
    by_cases hsome : ∃ x, s.ParkedOn cap p x
    · obtain ⟨x, hx⟩ := hsome
      exact h.contra (a := .notifyOne i (some x)) rfl (by simp [step, stepNotifyOne, hc, hx])
    · refine h.contra (a := .notifyOne i none) rfl ?_
      have hnone : ¬ (s.ParkedOn cap p .producer ∨ ∃ j, s.ParkedOn cap p (.consumer j)) := by
        rintro (hx | ⟨j, hx⟩)
        · exact hsome ⟨_, hx⟩
        · exact hsome ⟨_, hx⟩
      simp [step, stepNotifyOne, hc, hnone]

theorem AtRest.resting {cap : Capacity} (h : AtRest cap tr s) : Resting cap s := by
  intro a hin
  cases a with
  | producer =>
    rcases h.producer with hp | ⟨arg, t, old, hp⟩ <;> simp [step, stepProducer, hp]
  | consumer i =>
    rcases h.consumers i with hc | ⟨p, old, hc⟩ <;> simp [step, stepConsumer, hc]
  | notifyOne i woken =>
    rcases h.consumers i with hc | ⟨p, old, hc⟩ <;> simp [step, stepNotifyOne, hc]
  | emplace | pop | casFails | spurious => simp [brings] at hin

section Runs

/-- With no pop under way, the items claimed are the items returned. -/
theorem returned_of_idle (h : History tr s) (hle : s.head ≤ (produced tr).length)
    (hidle : ∀ i, carried (s.consumers i) = []) :
    ((pops tr).map (fun p => p.2.2)).Perm ((produced tr).take s.head) := by
  have hclaims : ((pops tr).map (fun p => (p.1, p.2.1))).Perm (claims tr) := by
    apply perm_of_entries
    intro i
    apply entries_of_values
    have hmine := h.mine i
    rw [hidle i, List.append_nil] at hmine
    refine Eq.trans ?_ hmine.symm
    rw [entries, List.filter_map, List.map_map]
    rfl
  have hplaces : ((pops tr).map (fun p => p.2.1)).Perm (List.range s.head) := by
    have hsnd := hclaims.map Prod.snd
    rwa [List.map_map, h.order] at hsnd
  apply (List.map_perm_map_iff (Option.some_injective T)).mp
  have hvalues : ((pops tr).map (fun p => p.2.2)).map some =
      ((pops tr).map (fun p => p.2.1)).map (fun p => (produced tr)[p]?) := by
    rw [List.map_map, List.map_map]
    exact List.map_congr_left (fun p hp => (h.value p hp).symm)
  have htaken : ((produced tr).take s.head).map some =
      (List.range s.head).map (fun p => (produced tr)[p]?) := by
    apply List.ext_getElem
    · simp [hle]
    · intro p hp _
      simp at hp
      simp [hp.2]
  rw [hvalues, htaken]
  exact hplaces.map _

/-- The queue stands still only where every call has returned, or waits for an item or
a slot that is not there; but a producer may have been passed over. -/
theorem queue_rest_exact (hr : (machine n T none cap.toCapacity).Run tr s) :
    Resting cap.toCapacity s ↔ AtRest cap.toCapacity tr s := by
  refine ⟨?_, AtRest.resting⟩
  intro h
  have hi := run_inv hr
  have hhistory := run_history hr
  have hproducer := h.producer
  have hconsumers := h.consumer
  refine ⟨hproducer, hconsumers, ?_, ?_, ?_, ?_⟩
  · rw [hhistory.answered]
    rcases hproducer with hp | ⟨arg, t, old, hp⟩ <;> simp [hp, answering]
  · apply returned_of_idle hhistory hi.head_le
    intro i
    rcases hconsumers i with hc | ⟨p, old, hc⟩ <;> rw [hc] <;> rfl
  · intro i p old hc
    have hok := hi.consumer i
    have hpatient := run_patient hr i
    rw [hc] at hok hpatient
    have hlength : (produced tr).length ≤ p := by
      refine hpatient.2.resolve_right ?_
      rcases hproducer with hp | ⟨arg, t, old, hp⟩ <;> rw [hp] <;> exact id
    have hle : p ≤ s.head := hok
    have hhead := hi.head_le
    omega
  · intro arg t old hp
    have hok := hi.producer
    rw [hp] at hok
    obtain ⟨rfl, _⟩ := hok
    have hsize := cap.two_le
    have hroom := hi.len_le
    cases hi.slot _ (Nat.le_refl _) (by omega) with
    | free hseq _ _ =>
      refine .inr ⟨arg, _, old, hp, hseq, ?_⟩
      intro i
      rcases hconsumers i with hc | ⟨p, old, hc⟩ <;> rw [hc] <;> exact id
    | full p hq _ hle _ => exact .inl (by omega)
    | taken p i _ _ _ hheld =>
      rcases hconsumers i with hc | ⟨p, old, hc⟩ <;> rw [hc] at hheld <;> cases hheld

/-- One consumer asleep on the empty queue. -/
def sleepOnEmpty (i : Fin 1) : List (Act 1 Nat) :=
  [.pop i .popWait, .consumer i, .consumer i, .consumer i]

theorem queue_rest_exact_empty : ∃ tr s, (machine 1 Nat none twoSlots.toCapacity).Run tr s ∧
    s.consumers 0 = .parked 0 0 ∧
    (Resting twoSlots.toCapacity s ↔ AtRest twoSlots.toCapacity tr s) := by
  have hr : (machine 1 Nat none twoSlots.toCapacity).Run _ _ :=
    Machine.run_of_exec (sleepOnEmpty 0) rfl
  exact ⟨_, _, hr, rfl, queue_rest_exact hr⟩

/-- From every reachable state, the threads go on for no more steps than `effort` says
before they are at rest, unless somebody calls, however the races for items and the
wakeups turn out. -/
theorem queue_comes_to_rest (hr : (machine n T none cap.toCapacity).Run tr s) :
    (∀ as s' fs, (machine n T none cap.toCapacity).exec s as = some (s', fs) →
      as.length + effort cap.toCapacity s' ≤ effort cap.toCapacity s + (as.map (brings n)).sum) ∧
    ∃ as s' fs, (machine n T none cap.toCapacity).exec s as = some (s', fs) ∧
      (∀ a ∈ as, brings n a = 0) ∧ AtRest cap.toCapacity (tr ++ fs) s' := by
  refine ⟨fun as s' fs hs => (funded n T cap).length ⟨tr, hr⟩ as hs, ?_⟩
  obtain ⟨as, s', fs, hs, hin, hstop⟩ := (funded n T cap).rests
    (fun a => brings n a = 0) (fun _ hin => hin ▸ Nat.one_pos) ⟨tr, hr⟩
  have hrun : (machine n T none cap.toCapacity).Run (tr ++ fs) s' :=
    Machine.Steps.trans hr (Machine.steps_of_exec as hs)
  exact ⟨as, s', fs, hs, hin, (queue_rest_exact hrun).mp hstop⟩

theorem queue_comes_to_rest_waiting : ∃ tr s as s' fs, (machine 1 Nat none twoSlots.toCapacity).Run tr s ∧
    s.consumers 0 = .loadHead .popWait ∧
    (machine 1 Nat none twoSlots.toCapacity).exec s as = some (s', fs) ∧
    (∀ a ∈ as, brings 1 a = 0) ∧ AtRest twoSlots.toCapacity (tr ++ fs) s' := by
  have hr : (machine 1 Nat none twoSlots.toCapacity).Run _ _ :=
    Machine.run_of_exec ([.emplace .emplaceWait (some 7), .pop (0 : Fin 1) .popWait] : List (Act 1 Nat))
      rfl
  obtain ⟨as, s', fs, hrest⟩ := (queue_comes_to_rest hr).2
  exact ⟨_, _, as, s', fs, hr, rfl, hrest⟩

end Runs

end Toolbox.Proofs.SpmcRest
