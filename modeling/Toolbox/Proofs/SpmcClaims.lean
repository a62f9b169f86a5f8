import Mathlib.Data.List.Range
import Toolbox.Proofs.SpmcSlots

namespace Toolbox.Proofs.SpmcClaims
open Base Spmc SpmcMoves SpmcSlots

variable {n : Nat} {T : Type*} {cap : RingCapacity} {s s' : State n T} {a : Act n T}
  {tr es : List (Event n T)}

/-- The positions one consumer claimed, in order. -/
def claimsOf (i : Fin n) (tr : List (Event n T)) : List Nat :=
  ((claims tr).filter (fun c => c.1 = i)).map Prod.snd

/-- The positions whose items one consumer was given, in order. -/
def popsOf (i : Fin n) (tr : List (Event n T)) : List Nat :=
  ((pops tr).filter (fun p => p.1 = i)).map (fun p => p.2.1)

/-- The position a consumer has claimed but not yet returned with. -/
def carried : ConsumerPc T → List Nat
  | .moveOut h | .storeSeq h _ | .notifyOne h _ => [h]
  | _ => []

/-- The value a successful emplace has published but not yet answered for. -/
def answering : ProducerPc T → List T
  | .storeTail v _ | .notifyAll v _ => [v]
  | _ => []

theorem claims_append : claims (tr ++ es) = claims tr ++ claims es := List.filterMap_append
theorem pops_append : pops (tr ++ es) = pops tr ++ pops es := List.filterMap_append
theorem produced_append : produced (tr ++ es) = produced tr ++ produced es :=
  List.filterMap_append
theorem accepted_append : accepted (tr ++ es) = accepted tr ++ accepted es :=
  List.filterMap_append

theorem claims_of_append (i : Fin n) : claimsOf i (tr ++ es) = claimsOf i tr ++ claimsOf i es := by
  simp [claimsOf, claims_append]

theorem pops_of_append (i : Fin n) : popsOf i (tr ++ es) = popsOf i tr ++ popsOf i es := by
  simp [popsOf, pops_append]

/-- How the trace and the state account for each other. -/
structure History (tr : List (Event n T)) (s : State n T) : Prop where
  order : (claims tr).map Prod.snd = List.range s.head
  mine : ∀ i, claimsOf i tr = popsOf i tr ++ carried (s.consumers i)
  value : ∀ p ∈ pops tr, (produced tr)[p.2.1]? = some p.2.2
  answered : produced tr = accepted tr ++ answering s.producer

theorem initial_history : History [] (machine n T none cap.toCapacity).init :=
  ⟨rfl, fun _ => rfl, by simp [pops], rfl⟩

/-- Steps that neither claim, return, publish nor answer keep the accounts. -/
theorem History.silent (h : History tr s) (hclaims : claims es = []) (hpops : pops es = [])
    (hproduced : produced es = []) (haccepted : accepted es = []) (hhead : s'.head = s.head)
    (hcarried : ∀ i, carried (s'.consumers i) = carried (s.consumers i))
    (hanswering : answering s'.producer = answering s.producer) : History (tr ++ es) s' := by
  refine ⟨?_, ?_, ?_, ?_⟩
  · rw [claims_append, hclaims, List.append_nil, hhead]
    exact h.order
  · intro i
    rw [claims_of_append, pops_of_append, hcarried]
    simpa [claimsOf, popsOf, hclaims, hpops] using h.mine i
  · rw [pops_append, hpops, produced_append, hproduced, List.append_nil, List.append_nil]
    exact h.value
  · rw [produced_append, accepted_append, hproduced, haccepted, hanswering]
    simpa using h.answered

theorem History.producer_move (h : History tr s) {pc : ProducerPc T}
    (hm : ProducerMove cap.toCapacity s pc es) : History (tr ++ es) (s.atProducer pc) := by
  cases hm with
  | call hp | loadTail hp | free hp _ | full hp _ | block hp _ | park hp _ | changed hp _
  | threw hp =>
    exact h.silent rfl rfl rfl rfl rfl (fun _ => rfl) (by simp [hp, answering])

theorem History.consumer_move (h : History tr s) {i : Fin n} {pc : ConsumerPc T}
    (hm : ConsumerMove cap.toCapacity s i pc es) : History (tr ++ es) (s.atConsumer i pc) := by
  have hquiet : carried pc = carried (s.consumers i) ∧ claims es = [] ∧ pops es = [] ∧
      produced es = [] ∧ accepted es = [] := by
    cases hm with
    | call hc | loadHead hc | ready hc _ | empty hc _ | block hc _ | stale hc _ | reload hc
    | park hc _ | changed hc _ | lost hc _ | spurious hc _ =>
      rw [hc]
      exact ⟨rfl, rfl, rfl, rfl, rfl⟩
  obtain ⟨hcarried, hclaims, hpops, hproduced, haccepted⟩ := hquiet
  refine h.silent hclaims hpops hproduced haccepted rfl ?_ rfl
  intro j
  by_cases he : j = i
  · simp [he, hcarried]
  · simp [he]

@[simp] theorem carried_woken (pc : ConsumerPc T) : carried pc.woken = carried pc := by
  cases pc <;> rfl

@[simp] theorem answering_woken (pc : ProducerPc T) : answering pc.woken = answering pc := by
  cases pc <;> rfl

@[simp] theorem head_wake (s : State n T) (x : Waiter n) : (s.wake x).head = s.head := by
  cases x <;> rfl

theorem carried_wake (s : State n T) (x : Waiter n) (i : Fin n) :
    carried ((s.wake x).consumers i) = carried (s.consumers i) := by
  cases x with
  | producer => rfl
  | consumer j =>
    by_cases he : i = j
    · simp [State.wake, he]
    · simp [State.wake, he]

theorem answering_wake (s : State n T) (x : Waiter n) :
    answering (s.wake x).producer = answering s.producer := by
  cases x <;> simp [State.wake]

theorem History.wake (h : History tr s) (x : Waiter n) : History tr (s.wake x) := by
  have hw : History (tr ++ []) (s.wake x) :=
    h.silent rfl rfl rfl rfl (head_wake s x) (carried_wake s x) (answering_wake s x)
  simpa using hw

theorem History.wake_all (h : History tr s) (pos : Nat) :
    History tr (s.wakeAll cap.toCapacity pos) := by
  have hcarried : ∀ i, carried ((s.wakeAll cap.toCapacity pos).consumers i) =
      carried (s.consumers i) := by
    intro i
    unfold State.wakeAll
    dsimp only
    split
    · exact carried_woken _
    · rfl
  have hanswering : answering (s.wakeAll cap.toCapacity pos).producer =
      answering s.producer := by
    unfold State.wakeAll
    dsimp only
    split
    · exact answering_woken _
    · rfl
  have hw : History (tr ++ []) (s.wakeAll cap.toCapacity pos) :=
    h.silent rfl rfl rfl rfl rfl hcarried hanswering
  simpa using hw

/-- A claim appends the next position to the claimer's account. -/
theorem History.claim (h : History tr s) {i : Fin n} {call : PopCall} {p : Nat}
    (hc : s.consumers i = .cas call p) (hhead : s.head = p) :
    History (tr ++ [.claimed i p]) ({ s with head := p + 1 }.atConsumer i (.moveOut p)) := by
  subst p
  refine ⟨?_, ?_, ?_, ?_⟩
  · rw [claims_append, List.map_append, h.order, head_at_consumer, List.range_succ]
    rfl
  · intro j
    rw [claims_of_append, pops_of_append, h.mine j]
    by_cases he : j = i
    · subst j
      simp [claimsOf, popsOf, claims, pops, carried, hc]
    · simp [claimsOf, popsOf, claims, pops, he, Ne.symm he]
  · simpa [pops_append, produced_append, pops, produced] using h.value
  · simpa [produced_append, accepted_append, produced, accepted] using h.answered

/-- A return moves the carried position to the returned ones, with its value. -/
theorem History.finish (h : History tr s) {i : Fin n} {p : Nat} {v : T}
    (hc : s.consumers i = .notifyOne p v) (hv : (produced tr)[p]? = some v) :
    History (tr ++ [.popped i p v]) (s.atConsumer i .idle) := by
  refine ⟨?_, ?_, ?_, ?_⟩
  · simpa [claims_append, claims] using h.order
  · intro j
    rw [claims_of_append, pops_of_append, h.mine j]
    by_cases he : j = i
    · subst j
      simp [claimsOf, popsOf, claims, pops, carried, hc]
    · simp [claimsOf, popsOf, claims, pops, he, Ne.symm he]
  · intro q hq
    rw [pops_append] at hq
    rw [produced_append, show produced [(.popped i p v : Event n T)] = [] from rfl,
      List.append_nil]
    rcases List.mem_append.mp hq with hq | hq
    · exact h.value q hq
    · obtain rfl : q = (i, p, v) := by simpa [pops] using hq
      exact hv
  · simpa [produced_append, accepted_append, produced, accepted] using h.answered

theorem History.produce (h : History tr s) {v : T} {t : Nat} (hp : s.producer = .storeSeq v t) :
    History (tr ++ [.produced v])
      ((s.storeSeq cap.toCapacity t (t + 1)).atProducer (.storeTail v t)) := by
  refine ⟨?_, ?_, ?_, ?_⟩
  · simpa [claims_append, claims] using h.order
  · intro j
    rw [claims_of_append, pops_of_append]
    simpa [claimsOf, popsOf, claims, pops] using h.mine j
  · intro q hq
    have hold : q ∈ pops tr := by simpa [pops_append, pops] using hq
    have hv := h.value q hold
    have hlt := (List.getElem?_eq_some_iff.mp hv).1
    rw [produced_append, List.getElem?_append_left hlt]
    exact hv
  · have hans := h.answered
    simp only [hp, answering, List.append_nil] at hans
    simpa [produced, accepted, answering] using hans

theorem History.answer (h : History tr s) {v : T} {t : Nat} (hp : s.producer = .notifyAll v t) :
    History (tr ++ [.accepted v]) (s.atProducer .idle) := by
  refine ⟨?_, ?_, ?_, ?_⟩
  · simpa [claims_append, claims] using h.order
  · intro j
    rw [claims_of_append, pops_of_append]
    simpa [claimsOf, popsOf, claims, pops] using h.mine j
  · simpa [pops_append, produced_append, pops, produced] using h.value
  · rw [produced_append, accepted_append, h.answered, hp]
    simp [produced, accepted, answering]

theorem move_history (hi : Inv cap.toCapacity (produced tr) s) (h : History tr s)
    (hm : Move cap.toCapacity s a s' es) : History (tr ++ es) s' := by
  cases hm with
  | producer hm => exact h.producer_move hm
  | consumer hm => exact h.consumer_move hm
  | claim hc hhead => exact h.claim hc hhead
  | produce hp => exact h.produce hp
  | construct hp =>
    exact h.silent rfl rfl rfl rfl rfl (fun _ => rfl) (by simp [hp, answering])
  | storeTail hp =>
    exact h.silent rfl rfl rfl rfl rfl (fun _ => rfl) (by simp [hp, answering])
  | @notifyAll v t hp =>
    have hp' : (s.wakeAll cap.toCapacity t).producer = .notifyAll v t := by
      simp [State.wakeAll, hp, ProducerPc.woken]
    have hall : History tr (s.wakeAll cap.toCapacity t) := h.wake_all t
    exact hall.answer hp'
  | @moveOut i p v hc _ | @release i p v hc =>
    refine h.silent rfl rfl rfl rfl rfl ?_ rfl
    intro j
    by_cases he : j = i
    · simp [he, hc, carried]
    · simp [he]
  | undefined hc hstore =>
    obtain ⟨v, hv, _⟩ := hi.move_out_live hc
    rw [hstore] at hv
    cases hv
  | @notifyNobody i p v hc _ =>
    have hok := hi.consumer i
    rw [hc] at hok
    exact h.finish hc hok.2
  | @notify i p v x hc _ =>
    have hok := hi.consumer i
    rw [hc] at hok
    exact (h.wake x).finish (wake_notify_one hc) hok.2
  | wake => simpa using h.wake _

theorem run_history (hr : (machine n T none cap.toCapacity).Run tr s) : History tr s := by
  refine Machine.Run.invariant initial_history ?_ hr
  intro tr s a s' es hr h hs
  exact move_history (run_inv hr) h (step_moves hs)

theorem mem_pops_of {i : Fin n} {p : Nat} : p ∈ popsOf i tr ↔ ∃ v, (i, p, v) ∈ pops tr := by
  simp [popsOf]

theorem mem_claims_of {i : Fin n} {p : Nat} : p ∈ claimsOf i tr ↔ (i, p) ∈ claims tr := by
  simp [claimsOf]

/-- One consumer's claims are in increasing order: they are some of `0..head_-1`. -/
theorem History.claims_increase (h : History tr s) (i : Fin n) :
    (claimsOf i tr).Pairwise (· < ·) := by
  have hsub : (claimsOf i tr).Sublist (List.range s.head) := by
    rw [← h.order]
    exact (List.filter_sublist).map Prod.snd
  exact List.pairwise_lt_range.sublist hsub

theorem History.pops_prefix (h : History tr s) (i : Fin n) : popsOf i tr <+: claimsOf i tr :=
  ⟨carried (s.consumers i), (h.mine i).symm⟩

/-- Exactly-once FIFO delivery under every interleaving. -/
theorem exactly_once (hr : (machine n T none cap.toCapacity).Run tr s) :
    (claims tr).map Prod.snd = List.range s.head ∧
    s.head ≤ (produced tr).length ∧
    accepted tr <+: produced tr ∧
    (∀ i p v, (i, p, v) ∈ pops tr → (i, p) ∈ claims tr ∧ (produced tr)[p]? = some v) ∧
    (∀ i p, (i, p) ∈ claims tr → (∃ v, (i, p, v) ∈ pops tr) ∨ p ∈ carried (s.consumers i)) ∧
    (∀ i, (popsOf i tr).Pairwise (· < ·)) := by
  have hi := run_inv hr
  have h := run_history hr
  refine ⟨h.order, hi.head_le, ⟨_, h.answered.symm⟩, ?_, ?_, ?_⟩
  · intro i p v hpop
    refine ⟨?_, h.value _ hpop⟩
    apply mem_claims_of.mp
    apply (h.pops_prefix i).subset
    exact mem_pops_of.mpr ⟨v, hpop⟩
  · intro i p hclaim
    have hmem := mem_claims_of.mpr hclaim
    rw [h.mine i] at hmem
    rcases List.mem_append.mp hmem with hmem | hmem
    · exact .inl (mem_pops_of.mp hmem)
    · exact .inr hmem
  · intro i
    exact (h.claims_increase i).sublist (h.pops_prefix i).sublist

/-- Two items in, each consumer claims one, the second claimer returns first. -/
def crossedPops (i j : Fin 2) : List (Act 2 Nat) :=
  [.emplace .tryEmplace (some 7), .producer, .producer, .producer, .producer, .producer,
   .producer, .emplace .emplaceWait (some 8), .producer, .producer, .producer, .producer,
   .producer, .producer, .pop i .tryPop, .consumer i, .consumer i, .consumer i,
   .pop j .popWait, .consumer j, .consumer j, .consumer j, .consumer j, .consumer j,
   .notifyOne j none, .consumer i, .consumer i, .notifyOne i none]

theorem exactly_once_crossed : ∃ tr s, (machine 2 Nat none twoSlots.toCapacity).Run tr s ∧
    pops tr = [(1, 1, 8), (0, 0, 7)] ∧ (claims tr).map Prod.snd = List.range s.head := by
  have hr : (machine 2 Nat none twoSlots.toCapacity).Run _ _ :=
    Machine.run_of_exec (crossedPops 0 1) rfl
  exact ⟨_, _, hr, rfl, (exactly_once hr).1⟩

end Toolbox.Proofs.SpmcClaims
