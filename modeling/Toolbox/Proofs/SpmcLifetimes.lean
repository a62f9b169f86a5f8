import Mathlib.Data.Fintype.Basic
import Mathlib.Tactic.FinCases
import Toolbox.Base.Keyed
import Toolbox.Proofs.SpmcClaims

namespace Toolbox.Proofs.SpmcLifetimes
open Base Keyed Spmc SpmcMoves SpmcSlots SpmcClaims

variable {n : Nat} {T : Type*} {cap : RingCapacity} {s s' : State n T} {a : Act n T}
  {tr es : List (Event n T)}

/-- The object constructed in a slot whose sequence store is still to come. -/
def building : ProducerPc T → List T
  | .storeSeq v _ => [v]
  | _ => []

/-- The position claimed whose object is still in its slot. -/
def moving (i : Fin n) : ConsumerPc T → List (Fin n × Nat)
  | .moveOut h => [(i, h)]
  | _ => []

/-- How the constructions and destructions shown so far account for the state. -/
structure Lifetimes (tr : List (Event n T)) (s : State n T) : Prop where
  built : constructed tr = produced tr ++ building s.producer
  moved : ∀ i, entries i (claims tr) = entries i (destroyed tr) ++ moving i (s.consumers i)
  defined : ∀ i, .undefined i ∉ tr

theorem constructed_append : constructed (tr ++ es) = constructed tr ++ constructed es :=
  List.filterMap_append
theorem destroyed_append : destroyed (tr ++ es) = destroyed tr ++ destroyed es :=
  List.filterMap_append

theorem initial_lifetimes : Lifetimes [] (machine n T none cap.toCapacity).init :=
  ⟨rfl, fun _ => rfl, by simp⟩

/-- Steps that neither construct, publish, claim nor destroy keep the accounts. -/
theorem Lifetimes.silent (h : Lifetimes tr s) (hconstructed : constructed es = [])
    (hproduced : produced es = []) (hclaims : claims es = []) (hdestroyed : destroyed es = [])
    (hdefined : ∀ i, .undefined i ∉ es)
    (hbuilding : building s'.producer = building s.producer)
    (hmoving : ∀ i, moving i (s'.consumers i) = moving i (s.consumers i)) :
    Lifetimes (tr ++ es) s' := by
  refine ⟨?_, ?_, ?_⟩
  · rw [constructed_append, produced_append, hconstructed, hproduced, hbuilding]
    simpa using h.built
  · intro i
    rw [claims_append, destroyed_append, hclaims, hdestroyed, hmoving]
    simpa using h.moved i
  · intro i hmem
    rcases List.mem_append.mp hmem with hmem | hmem
    · exact h.defined i hmem
    · exact hdefined i hmem

theorem moving_at_consumer {i : Fin n} {pc : ConsumerPc T}
    (hpc : moving i pc = moving i (s.consumers i)) (j : Fin n) :
    moving j ((s.atConsumer i pc).consumers j) = moving j (s.consumers j) := by
  by_cases he : j = i
  · subst he
    simpa using hpc
  · simp [he]

theorem Lifetimes.producer_move (h : Lifetimes tr s) {pc : ProducerPc T}
    (hm : ProducerMove cap.toCapacity s pc es) : Lifetimes (tr ++ es) (s.atProducer pc) := by
  cases hm with
  | call hp | loadTail hp | free hp _ | full hp _ | block hp _ | park hp _ | changed hp _
  | threw hp =>
    exact h.silent rfl rfl rfl rfl (by simp) (by simp [hp, building]) (fun _ => rfl)

theorem Lifetimes.consumer_move (h : Lifetimes tr s) {i : Fin n} {pc : ConsumerPc T}
    (hm : ConsumerMove cap.toCapacity s i pc es) : Lifetimes (tr ++ es) (s.atConsumer i pc) := by
  cases hm with
  | call hc | loadHead hc | ready hc _ | empty hc _ | block hc _ | stale hc _ | reload hc
  | park hc _ | changed hc _ | lost hc _ | spurious hc _ =>
    refine h.silent rfl rfl rfl rfl (by simp) rfl ?_
    apply moving_at_consumer
    rw [hc]
    rfl

theorem moving_woken (i : Fin n) (pc : ConsumerPc T) : moving i pc.woken = moving i pc := by
  cases pc <;> rfl

theorem building_woken (pc : ProducerPc T) : building pc.woken = building pc := by
  cases pc <;> rfl

theorem building_wake (x : Waiter n) : building (s.wake x).producer = building s.producer := by
  cases x with
  | producer => exact building_woken _
  | consumer j => rfl

theorem moving_wake (x : Waiter n) (i : Fin n) :
    moving i ((s.wake x).consumers i) = moving i (s.consumers i) := by
  cases x with
  | producer => rfl
  | consumer j => exact moving_at_consumer (moving_woken j _) i

theorem moving_wake_all (pos : Nat) (i : Fin n) :
    moving i ((s.wakeAll cap.toCapacity pos).consumers i) = moving i (s.consumers i) := by
  unfold State.wakeAll
  dsimp only
  split
  · exact moving_woken i _
  · rfl

theorem Lifetimes.construct (h : Lifetimes tr s) {v : T} {t : Nat}
    (hp : s.producer = .construct (some v) t) :
    Lifetimes (tr ++ [.constructed v])
      ((s.setStorage cap.toCapacity t (some v)).atProducer (.storeSeq v t)) := by
  refine ⟨?_, ?_, ?_⟩
  · have hbuilt : constructed tr = produced tr := by simpa [hp, building] using h.built
    rw [constructed_append, produced_append, hbuilt]
    simp [constructed, produced, building]
  · intro i
    simpa [claims_append, destroyed_append, claims, destroyed] using h.moved i
  · simpa using h.defined

theorem Lifetimes.produce (h : Lifetimes tr s) {v : T} {t : Nat}
    (hp : s.producer = .storeSeq v t) :
    Lifetimes (tr ++ [.produced v])
      ((s.storeSeq cap.toCapacity t (t + 1)).atProducer (.storeTail v t)) := by
  refine ⟨?_, ?_, ?_⟩
  · rw [constructed_append, produced_append, h.built, hp]
    simp [constructed, produced, building]
  · intro i
    simpa [claims_append, destroyed_append, claims, destroyed] using h.moved i
  · simpa using h.defined

theorem Lifetimes.claim (h : Lifetimes tr s) {i : Fin n} {call : PopCall} {p : Nat}
    (hc : s.consumers i = .cas call p) :
    Lifetimes (tr ++ [.claimed i p]) ({ s with head := p + 1 }.atConsumer i (.moveOut p)) := by
  refine ⟨?_, ?_, ?_⟩
  · simpa [constructed_append, produced_append, constructed, produced] using h.built
  · intro j
    rw [claims_append, destroyed_append, entries_append, entries_append, h.moved j]
    by_cases he : j = i
    · subst he
      simp [entries, claims, destroyed, moving, hc]
    · simp [entries, claims, destroyed, he, Ne.symm he]
  · simpa using h.defined

/-- A move-out ends the life of the object at the position this consumer claimed. -/
theorem Lifetimes.move_out (h : Lifetimes tr s) {i : Fin n} {p : Nat} {v : T}
    (hc : s.consumers i = .moveOut p) :
    Lifetimes (tr ++ [.destroyed i p])
      ((s.setStorage cap.toCapacity p none).atConsumer i (.storeSeq p v)) := by
  refine ⟨?_, ?_, ?_⟩
  · simpa [constructed_append, produced_append, constructed, produced] using h.built
  · intro j
    rw [claims_append, destroyed_append, entries_append, entries_append, h.moved j]
    by_cases he : j = i
    · subst he
      simp [entries, claims, destroyed, moving, hc]
    · simp [entries, claims, destroyed, he, Ne.symm he]
  · simpa using h.defined

theorem move_lifetimes (hi : Inv cap.toCapacity (produced tr) s) (h : Lifetimes tr s)
    (hm : Move cap.toCapacity s a s' es) : Lifetimes (tr ++ es) s' := by
  cases hm with
  | producer hm => exact h.producer_move hm
  | consumer hm => exact h.consumer_move hm
  | construct hp => exact h.construct hp
  | produce hp => exact h.produce hp
  | claim hc _ => exact h.claim hc
  | moveOut hc _ => exact h.move_out hc
  | undefined hc hstore =>
    obtain ⟨v, hv, _⟩ := hi.move_out_live hc
    rw [hstore] at hv
    cases hv
  | storeTail hp =>
    exact h.silent rfl rfl rfl rfl (by simp) (by simp [hp, building]) (fun _ => rfl)
  | notifyAll hp =>
    exact h.silent rfl rfl rfl rfl (by simp) (by simp [hp, building]) (moving_wake_all _)
  | release hc | notifyNobody hc _ =>
    refine h.silent rfl rfl rfl rfl (by simp) rfl ?_
    apply moving_at_consumer
    simp [hc, moving]
  | @notify i p v x hc _ =>
    refine h.silent rfl rfl rfl rfl (by simp) (building_wake x) ?_
    intro j
    have hquiet : moving i (.idle : ConsumerPc T) = moving i ((s.wake x).consumers i) := by
      rw [wake_notify_one hc]
      rfl
    exact (moving_at_consumer hquiet j).trans (moving_wake x j)
  | wake =>
    exact h.silent rfl rfl rfl rfl (by simp) (building_wake _) (moving_wake _)

theorem run_lifetimes (hr : (machine n T none cap.toCapacity).Run tr s) : Lifetimes tr s := by
  refine Machine.Run.invariant initial_lifetimes ?_ hr
  intro tr s a s' es hr h hs
  exact move_lifetimes (run_inv hr) h (step_moves hs)

/-- The destructor's walk over positions that are all full, no two in one slot. -/
theorem destroy_walk_full {t fuel pos : Nat} {slots : Nat → Slot T} (hle : pos ≤ t)
    (hfuel : t - pos ≤ fuel) (hlap : t ≤ pos + cap.size)
    (hfull : ∀ p, pos ≤ p → p < t → (cap.get slots p).sequence = p + 1) :
    ∃ slots', destroyWalk none cap.toCapacity t fuel slots pos =
        some (slots', (List.range' pos (t - pos)).map (fun p => (cap.get slots p).storage)) ∧
      (∀ p, pos ≤ p → p < t → (cap.get slots' p).storage = none) ∧
      (∀ q, (cap.get slots q).storage = none → (cap.get slots' q).storage = none) := by
  induction fuel generalizing pos slots with
  | zero =>
    obtain rfl : pos = t := by omega
    refine ⟨slots, ?_, ?_, ?_⟩
    · simp [destroyWalk]
    · intro p hp hpt
      omega
    · exact fun _ h => h
  | succ fuel ih =>
    by_cases hend : pos = t
    · subst hend
      refine ⟨slots, ?_, ?_, ?_⟩
      · simp [destroyWalk]
      · intro p hp hpt
        omega
      · exact fun _ h => h
    have hne : ∀ p, pos + 1 ≤ p → p < t → cap.index p ≠ cap.index pos :=
      fun p hp hpt => cap.index_ne (by omega) (by omega) (by omega)
    have hstep := @ih (pos + 1)
      (cap.set slots pos { cap.get slots pos with storage := none })
      (by omega) (by omega) (by omega) ?_
    · obtain ⟨slots', hwalk, hin, hout⟩ := hstep
      have hnone : (cap.get slots' pos).storage = none := hout pos (by simp)
      refine ⟨slots', ?_, ?_, ?_⟩
      · unfold destroyWalk
        rw [if_neg hend]
        dsimp only
        rw [Width.wrap_none, if_pos (hfull pos (Nat.le_refl _) (by omega)), hwalk,
          Option.map_some]
        have hlen : t - pos = (t - (pos + 1)) + 1 := by omega
        rw [hlen, List.range'_succ, List.map_cons]
        congr 3
        apply List.map_congr_left
        intro p hp
        obtain ⟨hp1, hp2⟩ := List.mem_range'_1.mp hp
        rw [cap.get_set_of_ne _ _ (hne p hp1 (by omega))]
      · intro p hp hpt
        by_cases he : p = pos
        · rw [he]
          exact hnone
        · exact hin p (by omega) hpt
      · intro q hq
        apply hout
        rw [cap.get_set]
        split
        · rfl
        · exact hq
    · intro p hp hpt
      rw [cap.get_set_of_ne _ _ (hne p hp hpt)]
      exact hfull p (by omega) hpt

/-- With no operation in progress the slots hold exactly the unclaimed items. -/
theorem quiescent_slots (hr : (machine n T none cap.toCapacity).Run tr s) (hq : Quiescent s) :
    s.tail = (produced tr).length ∧
    (∀ p, s.head ≤ p → p < s.tail → s.seq cap.toCapacity p = p + 1 ∧
      s.storage cap.toCapacity p = (produced tr)[p]?) ∧
    (∀ q, s.tail ≤ q → q < s.head + cap.size → s.storage cap.toCapacity q = none) := by
  have hi := run_inv hr
  have hlen := hi.len_le
  have htail : s.tail = (produced tr).length := by
    have hprod := hi.producer
    rw [hq.1] at hprod
    exact hprod
  refine ⟨htail, ?_, ?_⟩
  · intro p hle hlt
    exact hi.unclaimed hle (by omega)
  · intro q hle hlt
    have hhead := hi.head_le
    cases hi.slot q (by omega) (by omega) with
    | free _ _ hempty =>
      apply hempty.resolve_right
      rintro ⟨v, hv⟩
      rw [hq.1] at hv
      cases hv
    | full p hp _ hle' _ => omega
    | taken p i _ _ _ hheld =>
      rw [hq.2 i] at hheld
      cases hheld

theorem items_between {log : List T} {h : Nat} :
    (List.range' h (log.length - h)).map (fun p => log[p]?) = (log.drop h).map some := by
  apply List.ext_getElem?
  intro k
  simp only [List.getElem?_map, List.getElem?_drop]
  by_cases hk : k < log.length - h
  · simp [hk, List.getElem?_eq_getElem (show h + k < log.length by omega)]
  · have hout : log[h + k]? = none := List.getElem?_eq_none (by omega)
    simp [hk, hout]

/-- The destructor finds a live object at each `destroy` and leaves none behind. -/
theorem destructor_drains (hr : (machine n T none cap.toCapacity).Run tr s) (hq : Quiescent s)
    {fuel : Nat} (hfuel : s.tail - s.head ≤ fuel) :
    ∃ slots', destructor none cap.toCapacity fuel s =
        some (slots', ((produced tr).drop s.head).map some) ∧
      ∀ q, (cap.get slots' q).storage = none := by
  obtain ⟨htail, hfull, hfree⟩ := quiescent_slots hr hq
  have hi := run_inv hr
  have hhead := hi.head_le
  have hlen := hi.len_le
  have hseq : ∀ p, s.head ≤ p → p < s.tail → (cap.get s.slots p).sequence = p + 1 :=
    fun p hle hlt => (hfull p hle hlt).1
  obtain ⟨slots', hwalk, hin, hout⟩ := destroy_walk_full (by omega) hfuel (by omega) hseq
  refine ⟨slots', ?_, ?_⟩
  · rw [destructor, hwalk, ← items_between, ← htail]
    congr 2
    apply List.map_congr_left
    intro p hp
    obtain ⟨hp1, hp2⟩ := List.mem_range'_1.mp hp
    exact (hfull p hp1 (by omega)).2
  · intro q
    obtain ⟨p, hle, hlt, he⟩ := cap.exists_in_lap s.head q
    rw [← cap.get_congr slots' he]
    by_cases hp : p < s.tail
    · exact hin p hle hp
    · exact hout p (hfree p (by omega) hlt)

/-- With no operation in progress every claimed object was destroyed once. -/
theorem destroyed_perm (hr : (machine n T none cap.toCapacity).Run tr s) (hq : Quiescent s) :
    ((destroyed tr).map Prod.snd).Perm (List.range s.head) := by
  rw [← (run_history hr).order]
  apply List.Perm.map
  apply (perm_of_entries ?_).symm
  intro i
  simpa [hq.2 i, moving] using (run_lifetimes hr).moved i

/-- Objects live and die once: in slots, in the hands of their claimer, under a
throwing constructor and in the destructor. -/
theorem lifetimes (hr : (machine n T none cap.toCapacity).Run tr s) :
    (∀ arg t, s.producer = .construct arg t → s.storage cap.toCapacity t = none) ∧
    (∀ i h, s.consumers i = .moveOut h → (i, h) ∈ claims tr ∧
      (∃ v, s.storage cap.toCapacity h = some v ∧ (produced tr)[h]? = some v) ∧
      ∀ j q, j ≠ i → held (s.consumers j) = some q → cap.index q ≠ cap.index h) ∧
    (∀ i, .undefined i ∉ tr) ∧
    (∀ a s' es, (machine n T none cap.toCapacity).step s a = some (s', es) → .threw ∈ es →
      s'.head = s.head ∧ s'.tail = s.tail ∧ s'.slots = s.slots) ∧
    (Quiescent s → constructed tr = produced tr ∧
      ((destroyed tr).map Prod.snd).Perm (List.range s.head) ∧
      ∀ fuel, s.tail - s.head ≤ fuel → ∃ slots' ds,
        destructor none cap.toCapacity fuel s = some (slots', ds) ∧
        ds = ((produced tr).drop s.head).map some ∧
        (∀ q, (cap.get slots' q).storage = none) ∧
        (constructed tr).length = (destroyed tr).length + ds.length) := by
  have hi := run_inv hr
  have hlife := run_lifetimes hr
  refine ⟨?_, ?_, hlife.defined, ?_, ?_⟩
  · intro arg t hp
    exact (hi.construct_free hp).2
  · intro i h hc
    refine ⟨?_, hi.move_out_live hc, ?_⟩
    · apply mem_entries.mp
      rw [hlife.moved i, hc]
      simp [moving]
    · intro j q hj hheld
      exact hi.held_ne hj hheld (by simp [hc, held])
  · intro a s' es hs hthrew
    cases step_moves hs with
    | producer hm => exact ⟨rfl, rfl, rfl⟩
    | consumer hm => exact ⟨rfl, rfl, rfl⟩
    | construct | produce | storeTail | notifyAll | claim | moveOut | undefined | release
    | notifyNobody | notify | wake => simp at hthrew
  · intro hq
    have hbuilt : constructed tr = produced tr := by
      simpa [hq.1, building] using hlife.built
    have hperm := destroyed_perm hr hq
    refine ⟨hbuilt, hperm, ?_⟩
    intro fuel hfuel
    obtain ⟨slots', hdestructor, hempty⟩ := destructor_drains hr hq hfuel
    refine ⟨slots', _, hdestructor, rfl, hempty, ?_⟩
    have hgone : (destroyed tr).length = s.head := by
      have hlen := hperm.length_eq
      rwa [List.length_map, List.length_range] at hlen
    have hhead := hi.head_le
    rw [hbuilt, hgone, List.length_map, List.length_drop]
    omega

/-- A throwing emplace, two items in, the first one popped. -/
def throwFillPop (i : Fin 1) : List (Act 1 Nat) :=
  [.emplace .tryEmplace none, .producer, .producer, .producer,
   .emplace .tryEmplace (some 7), .producer, .producer, .producer, .producer, .producer,
   .producer, .emplace .tryEmplace (some 8), .producer, .producer, .producer, .producer,
   .producer, .producer,
   .pop i .tryPop, .consumer i, .consumer i, .consumer i, .consumer i, .consumer i,
   .notifyOne i none]

theorem lifetimes_one_left : ∃ tr s, (machine 1 Nat none twoSlots.toCapacity).Run tr s ∧
    ∃ slots', destructor none twoSlots.toCapacity 2 s = some (slots', [some 8]) ∧
      ∀ q, (twoSlots.get slots' q).storage = none := by
  have hr : (machine 1 Nat none twoSlots.toCapacity).Run _ _ :=
    Machine.run_of_exec (throwFillPop 0) rfl
  obtain ⟨_, _, hdrain⟩ := (lifetimes hr).2.2.2.2 ⟨rfl, fun i => by fin_cases i; rfl⟩
  obtain ⟨slots', ds, hdestructor, hds, hempty, _⟩ := hdrain 2 (by decide)
  subst hds
  exact ⟨_, _, hr, slots', hdestructor, hempty⟩

end Toolbox.Proofs.SpmcLifetimes
