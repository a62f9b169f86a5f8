import Toolbox.Proofs.SpmcSlots
import Toolbox.SpmcSize

namespace Toolbox.Proofs.SpmcCounters
open Base Spmc SpmcMoves SpmcSlots

variable {n m w : Nat} {T : Type*} {cap : RingCapacity} {q q' : State n T} {a : Act n T}
  {es : List (Event n T)} {log : List T}

/-- `tail_` counts what was produced, but for the item whose `tail_` store is next. -/
theorem tail_counts (hi : Inv cap.toCapacity log q) :
    q.tail = log.length ∨ ∃ v t, q.producer = .storeTail v t ∧ q.tail = t ∧ t + 1 = log.length := by
  have hprod := hi.producer
  cases hp : q.producer <;> rw [hp] at hprod
  case idle | loadTail => exact .inl hprod
  case loadSeq | wait | parked => exact .inl hprod.2
  case construct | storeSeq | notifyAll => exact .inl hprod.2.1
  case storeTail => exact .inr ⟨_, _, rfl, hprod.2.1, hprod.1⟩

theorem counters_near (hi : Inv cap.toCapacity log q) :
    q.head ≤ q.tail + 1 ∧ q.tail ≤ q.head + cap.size := by
  have hhead := hi.head_le
  have hlen := hi.len_le
  rcases tail_counts hi with htail | ⟨v, t, _, htail, hnext⟩
  · omega
  · omega

/-- `head_` passes `tail_` exactly by a claim of the item not yet counted. -/
theorem head_past_tail (hi : Inv cap.toCapacity log q) :
    q.tail < q.head ↔ ∃ v t, q.producer = .storeTail v t ∧ q.head = t + 1 := by
  have hhead := hi.head_le
  constructor
  · intro hlt
    rcases tail_counts hi with htail | ⟨v, t, hp, htail, hnext⟩
    · omega
    · exact ⟨v, t, hp, by omega⟩
  · rintro ⟨v, t, hp, heq⟩
    have hprod := hi.producer
    rw [hp] at hprod
    have htail := hprod.2.1
    omega

/-- Neither counter goes back, and only a claim moves `head_`. -/
theorem move_counters (hi : Inv cap.toCapacity log q) (hm : Move cap.toCapacity q a q' es) :
    q.tail ≤ q'.tail ∧ (q'.head = q.head ∨ ∃ i call, a = .consumer i ∧
      q.consumers i = .cas call q.head ∧ q'.head = q.head + 1 ∧ q'.tail = q.tail) := by
  cases hm with
  | storeTail hp =>
    have hprod := hi.producer
    rw [hp] at hprod
    obtain ⟨_, htail, _⟩ := hprod
    refine ⟨?_, .inl rfl⟩
    simp only [tail_at_producer]
    omega
  | claim hc hhead =>
    subst hhead
    exact ⟨Nat.le_refl _, .inr ⟨_, _, rfl, hc, rfl, rfl⟩⟩
  | @notify i h v x hc hx =>
    cases x <;> exact ⟨Nat.le_refl _, .inl rfl⟩
  | @wake x => cases x <;> exact ⟨Nat.le_refl _, .inl rfl⟩
  | _ => exact ⟨Nat.le_refl _, .inl rfl⟩

section Sizes

variable {s s' : Observed n m T} {b : ObserveAct n m T} {fs tr : List (ObserveEvent n m T)}
  {h t N : Nat}

theorem size_approx_eq (w h t : Nat) :
    sizeApprox w h t = Width.sub (some w) (Width.wrap (some w) t) (Width.wrap (some w) h) :=
  (Width.sub_wrap w t h).symm

theorem size_approx_of_le (hle : h ≤ t) : sizeApprox w h t = (t - h) % 2 ^ w := by
  have hpos := Nat.two_pow_pos w
  have hsum : t + 2 ^ w - h = t - h + 2 ^ w := by omega
  rw [size_approx_eq, Width.sub_wrap_of_lt (by omega), hsum, Nat.add_mod_right]

theorem size_approx_past (w t : Nat) : sizeApprox w (t + 1) t = 2 ^ w - 1 := by
  have hpos := Nat.two_pow_pos w
  have hsum : t + 2 ^ w - (t + 1) = 2 ^ w - 1 := by omega
  rw [size_approx_eq, Width.sub_wrap_of_lt (by omega), hsum, Nat.mod_eq_of_lt (by omega)]

theorem size_lt_range (hcap : checkAndRoundCapacity w N = .ok cap) : cap.size + 1 < 2 ^ w := by
  obtain ⟨_, _, _, hmax⟩ := round_capacity_ok hcap
  have htwo := cap.two_le
  have hw : w ≠ 0 := by
    rintro rfl
    have hone : cap.size ≤ 1 := hmax
    omega
  have hpow := Width.two_pow_pred hw
  omega

/-- When the difference of two such loads is a size. -/
theorem size_le_iff (hcap : checkAndRoundCapacity w N = .ok cap) (hle : h ≤ t + 1) :
    sizeApprox w h t ≤ cap.size ↔ h ≤ t ∧ (t - h) % 2 ^ w ≤ cap.size := by
  have hrange := size_lt_range hcap
  rcases Nat.lt_or_eq_of_le hle with hlt | rfl
  · have hle' : h ≤ t := Nat.le_of_lt_succ hlt
    rw [size_approx_of_le hle', and_iff_right hle']
  · rw [size_approx_past]
    omega

/-- Everything that can happen to a watched queue. -/
inductive Watch (w : Nat) (cap : Capacity) (s : Observed n m T) :
    ObserveAct n m T → Observed n m T → List (ObserveEvent n m T) → Prop
  | queue {act next shown} (hs : step none cap s.queue act = some (next, shown)) :
      Watch w cap s (.queue act) { s with queue := next } (shown.map .queue)
  | call {k call} (hk : s.observers k = .idle) :
      Watch w cap s (.call k call) (s.atObserver k (.loadHead call)) []
  | head {k call} (hk : s.observers k = .loadHead call) :
      Watch w cap s (.observer k) (s.atObserver k (.loadTail call s.queue.head)) []
  | tail {k call p} (hk : s.observers k = .loadTail call p) :
      Watch w cap s (.observer k) (s.atObserver k .idle)
        (answers k (sizeApprox w p s.queue.tail) call)

theorem observed_watch (hs : observedStep w cap.toCapacity s b = some (s', fs)) :
    Watch w cap.toCapacity s b s' fs := by
  cases b with
  | queue a =>
    obtain ⟨⟨q, es⟩, hq, he⟩ := Option.map_eq_some_iff.mp hs
    obtain ⟨rfl, rfl⟩ := Prod.mk.inj he
    exact .queue hq
  | call k call =>
    simp only [observedStep] at hs
    split at hs
    · rename_i hk
      cases hs
      exact .call hk
    · cases hs
  | observer k =>
    simp only [observedStep, stepObserver] at hs
    split at hs
    · cases hs
    · rename_i hk
      cases hs
      exact .head hk
    · rename_i hk
      cases hs
      exact .tail hk

theorem run_queue (hr : (observed n m T w cap.toCapacity).Run tr s) :
    ∃ qs, (machine n T none cap.toCapacity).Run qs s.queue := by
  refine Machine.Run.invariant (I := fun _ s => ∃ qs, (machine n T none cap.toCapacity).Run qs s.queue)
    ⟨[], .init⟩ ?_ hr
  rintro tr s b s' fs _ ⟨qs, hqs⟩ hs
  cases observed_watch hs with
  | queue hq => exact ⟨_, hqs.next hq⟩
  | call | head | tail => exact ⟨qs, hqs⟩

theorem at_observer_eq {k j : Fin m} {pc : ObserverPc} {call : SizeCall}
    (hj : (s.atObserver k pc).observers j = .loadTail call h) :
    j = k ∧ pc = .loadTail call h ∨ s.observers j = .loadTail call h := by
  simp only [Observed.atObserver, Function.update_apply] at hj
  split at hj
  · rename_i hjk
    exact .inl ⟨hjk, hj⟩
  · exact .inr hj

/-- What an observer has loaded from `head_` was met by `tail_` then, up to one, and
`tail_` does not go back. -/
theorem run_loaded (hr : (observed n m T w cap.toCapacity).Run tr s) :
    ∀ k call h, s.observers k = .loadTail call h → h ≤ s.queue.tail + 1 := by
  refine Machine.Run.invariant (I := fun _ s =>
    ∀ k call h, s.observers k = .loadTail call h → h ≤ s.queue.tail + 1) ?_ ?_ hr
  · intro k call h hk
    cases hk
  · intro tr s b s' fs hr h hs k call p hk
    obtain ⟨qs, hqs⟩ := run_queue hr
    cases observed_watch hs with
    | queue hq =>
      have hmono := (move_counters (run_inv hqs) (step_moves hq)).1
      have hbefore := h k call p hk
      simp only
      omega
    | call | tail =>
      rcases at_observer_eq hk with ⟨_, hpc⟩ | hold
      · cases hpc
      · exact h k call p hold
    | head =>
      rcases at_observer_eq hk with ⟨_, hpc⟩ | hold
      · cases hpc
        exact (counters_near (run_inv hqs)).1
      · exact h k call p hold

/-- The position whose `tail_` store comes next: its sequence is stored. -/
def uncounted : ProducerPc T → Option Nat
  | .storeTail _ t => some t
  | _ => none

/-- Of an observer that has loaded `head_`: how many slots were free then, and how often
`tail_` has been stored since. -/
structure Since where
  free : Nat
  stores : Nat

/-- How often a step stores `tail_`. -/
def tailStores (s : State n T) : Act n T → Nat
  | .producer =>
    match s.producer with
    | .storeTail _ _ => 1
    | _ => 0
  | _ => 0

/-- What a step makes of the observers' notes. -/
def noteStep (cap : Capacity) (since : Fin m → Since) (s : Observed n m T) :
    ObserveAct n m T → Fin m → Since
  | .queue a => fun k => ⟨(since k).free, (since k).stores + tailStores s.queue a⟩
  | .observer k =>
    match s.observers k with
    | .loadHead _ => Function.update since k ⟨s.queue.head + cap.size - s.queue.tail, 0⟩
    | _ => since
  | .call _ _ => since

/-- The watched queue, the observers counting the `tail_` stores between their loads. -/
def timed (n m : Nat) (T : Type*) (w : Nat) (cap : Capacity) :
    Machine ((Fin m → Since) × Observed n m T) (ObserveAct n m T) (ObserveEvent n m T) :=
  (observed n m T w cap).noting (fun _ => ⟨0, 0⟩) (noteStep cap)

/-- No claim falls between the sequence store and the `tail_` store of its item. -/
def Counted (s : State n T) : ConsumerPc T → Prop
  | .cas _ h => s.head = h → uncounted s.producer ≠ some h
  | _ => True

/-- Between its two loads there were no more `tail_` stores than free slots at the first. -/
def Brief (since : Since) : ObserverPc → Prop
  | .loadTail _ _ => since.stores ≤ since.free
  | _ => True

def Timely (x : (Fin m → Since) × Observed n m T) : ObserveAct n m T → Prop
  | .queue (.consumer i) => Counted x.2.queue (x.2.queue.consumers i)
  | .observer k => Brief (x.1 k) (x.2.observers k)
  | _ => True

instance (s : State n T) (pc : ConsumerPc T) : Decidable (Counted s pc) :=
  match pc with
  | .cas _ h => inferInstanceAs (Decidable (s.head = h → uncounted s.producer ≠ some h))
  | .idle | .loadHead _ | .loadSeq _ _ | .reload _ _ | .wait _ _ | .parked _ _ | .moveOut _
  | .storeSeq _ _ | .notifyOne _ _ => isTrue trivial

instance (since : Since) (pc : ObserverPc) : Decidable (Brief since pc) :=
  match pc with
  | .loadTail _ _ => inferInstanceAs (Decidable (since.stores ≤ since.free))
  | .idle | .loadHead _ => isTrue trivial

instance (x : (Fin m → Since) × Observed n m T) (b : ObserveAct n m T) : Decidable (Timely x b) :=
  match b with
  | .queue (.consumer i) => inferInstanceAs (Decidable (Counted _ (x.2.queue.consumers i)))
  | .observer k => inferInstanceAs (Decidable (Brief _ (x.2.observers k)))
  | .queue (.emplace _ _) | .queue .producer | .queue (.pop _ _) | .queue (.casFails _)
  | .queue (.notifyOne _ _) | .queue (.spurious _) | .call _ _ => isTrue trivial

/-- A claim in time is of an item that `tail_` counts. -/
theorem Counted.lt_tail (hi : Inv cap.toCapacity log q) {i : Fin n} {call : PopCall} {h : Nat}
    (hc : q.consumers i = .cas call h) (hhead : q.head = h) (hok : Counted q (q.consumers i)) :
    h < q.tail := by
  have hcons := hi.consumer i
  rw [hc] at hcons hok
  obtain ⟨_, hlt⟩ := hcons
  rcases tail_counts hi with htail | ⟨v, t, hp, htail, hnext⟩
  · omega
  · have hne : t ≠ h := by
      rintro rfl
      exact hok hhead (by rw [hp]; rfl)
    omega

@[simp] theorem tail_wake (q : State n T) (x : Waiter n) : (q.wake x).tail = q.tail := by
  cases x <;> rfl

theorem tail_step (hi : Inv cap.toCapacity log q)
    (hs : step none cap.toCapacity q a = some (q', es)) : q'.tail = q.tail + tailStores q a := by
  cases a with
  | producer =>
    have hprod := hi.producer
    simp only [step] at hs
    cases hp : q.producer with
    | storeTail v t =>
      rw [hp] at hprod
      simp only [stepProducer, hp, Option.some.injEq, Prod.mk.injEq] at hs
      obtain ⟨rfl, rfl⟩ := hs
      simp only [tail_at_producer, tailStores, hp, hprod.2.1, Width.wrap_none]
    | construct arg t =>
      cases arg
      all_goals
        simp only [stepProducer, hp] at hs
        cases hs
        simp only [tailStores, hp]
        rfl
    | _ =>
      simp only [stepProducer, hp] at hs
      repeat' split at hs
      all_goals cases hs
      all_goals simp only [tailStores, hp]
      all_goals rfl
  | emplace | pop | casFails =>
    simp only [step] at hs
    repeat' split at hs
    all_goals cases hs
    all_goals rfl
  | consumer i =>
    simp only [step, stepConsumer] at hs
    repeat' split at hs
    all_goals cases hs
    all_goals rfl
  | notifyOne i woken =>
    simp only [step, stepNotifyOne] at hs
    repeat' split at hs
    all_goals cases hs
    · simp [tailStores]
    · rfl
  | spurious x =>
    simp only [step] at hs
    split at hs <;> cases hs
    simp [tailStores]

variable {x : (Fin m → Since) × Observed n m T}

/-- The notes account for how far `tail_` has moved past the `head_` that was loaded. -/
theorem run_noted (hr : (timed n m T w cap.toCapacity).Run tr x) :
    ∀ k call h, x.2.observers k = .loadTail call h →
      h + cap.size + (x.1 k).stores = x.2.queue.tail + (x.1 k).free := by
  refine Machine.Run.invariant (I := fun _ x => ∀ k call h, x.2.observers k = .loadTail call h →
    h + cap.size + (x.1 k).stores = x.2.queue.tail + (x.1 k).free) ?_ ?_ hr
  · intro k call h hk
    cases hk
  · rintro tr ⟨since, s⟩ b ⟨since', s'⟩ es hr h hs
    obtain ⟨qs, hqs⟩ := run_queue (Machine.run_of_noting hr)
    obtain ⟨rfl, hstep⟩ := Machine.noting_step hs
    simp only at h hqs hstep ⊢
    intro k call p hk
    cases observed_watch hstep with
    | queue hq =>
      have hold := h k call p hk
      have htail := tail_step (run_inv hqs) hq
      simp only [noteStep]
      omega
    | call =>
      rcases at_observer_eq hk with ⟨_, hpc⟩ | hold
      · cases hpc
      · exact h k call p hold
    | @head j _ hj =>
      have hnear := (counters_near (run_inv hqs)).2
      simp only [noteStep, hj]
      rcases at_observer_eq hk with ⟨rfl, hpc⟩ | hold
      · cases hpc
        rw [Function.update_self]
        simp only [Observed.atObserver]
        omega
      · have hne : k ≠ j := by
          rintro rfl
          rw [hj] at hold
          cases hold
        rw [Function.update_of_ne hne]
        exact h k call p hold
    | @tail j _ _ hj =>
      simp only [noteStep, hj]
      rcases at_observer_eq hk with ⟨_, hpc⟩ | hold
      · cases hpc
      · exact h k call p hold

/-- With timely steps: `head_` stays behind `tail_`, what is loaded stays so too, and
every size is one. -/
structure Sized (cap : Capacity) (tr : List (ObserveEvent n m T)) (s : Observed n m T) : Prop where
  ordered : s.queue.head ≤ s.queue.tail
  loaded : ∀ k call h, s.observers k = .loadTail call h → h ≤ s.queue.tail
  sizes : ∀ p ∈ sizes tr, p.2 ≤ cap.size

theorem sizes_append : sizes (tr ++ fs) = sizes tr ++ sizes fs := List.filterMap_append

theorem sizes_queue (shown : List (Event n T)) :
    sizes (shown.map (ObserveEvent.queue : Event n T → ObserveEvent n m T)) = [] := by
  simp [sizes]

theorem sizes_answers (k : Fin m) (v : Nat) (call : SizeCall) :
    sizes (answers k v call : List (ObserveEvent n m T)) = [(k, v)] := by
  cases call <;> rfl

theorem run_sized (hcap : checkAndRoundCapacity w N = .ok cap)
    (hr : (timed n m T w cap.toCapacity).RunWhere Timely tr x) : Sized cap.toCapacity tr x.2 := by
  refine Machine.Steps.invariant (I := fun tr x => Sized cap.toCapacity tr x.2) ?_ ?_ hr
  · refine ⟨Nat.le_refl _, ?_, ?_⟩
    · intro k call h hk
      cases hk
    · intro p hp
      cases hp
  · rintro tr ⟨since, s⟩ b ⟨since', s'⟩ es hr h hok hs
    obtain ⟨qs, hqs⟩ := run_queue (Machine.run_of_noting (Machine.RunWhere.run hr))
    have hnoted := run_noted (Machine.RunWhere.run hr)
    obtain ⟨_, hstep⟩ := Machine.noting_step hs
    simp only at h hqs hstep hnoted ⊢
    cases observed_watch hstep with
    | @queue act next shown hq =>
      have hsizes : ∀ p ∈ sizes (tr ++ shown.map ObserveEvent.queue), p.2 ≤ cap.size := by
        rw [sizes_append, sizes_queue, List.append_nil]
        exact h.sizes
      obtain ⟨htail, hhead⟩ := move_counters (run_inv hqs) (step_moves hq)
      refine ⟨?_, ?_, hsizes⟩
      · have hordered := h.ordered
        rcases hhead with hsame | ⟨i, call, rfl, hc, hnext, hsame⟩
        · simp only
          omega
        · have hcounted := Counted.lt_tail (run_inv hqs) hc rfl hok
          simp only
          omega
      · intro k call p hk
        exact Nat.le_trans (h.loaded k call p hk) htail
    | call =>
      rw [List.append_nil]
      refine ⟨h.ordered, ?_, h.sizes⟩
      intro k call p hk
      rcases at_observer_eq hk with ⟨_, hpc⟩ | hold
      · cases hpc
      · exact h.loaded k call p hold
    | head =>
      rw [List.append_nil]
      refine ⟨h.ordered, ?_, h.sizes⟩
      intro k call p hk
      rcases at_observer_eq hk with ⟨_, hpc⟩ | hold
      · cases hpc
        exact h.ordered
      · exact h.loaded k call p hold
    | @tail k call p hk =>
      have hle := h.loaded k call p hk
      have hbrief : (since k).stores ≤ (since k).free := by
        have htimely : Brief (since k) (s.observers k) := hok
        rwa [hk] at htimely
      have hmoved := hnoted k call p hk
      have hvalue : sizeApprox w p s.queue.tail ≤ cap.size := by
        rw [size_le_iff hcap (Nat.le_succ_of_le hle)]
        exact ⟨hle, Nat.le_trans (Nat.mod_le _ _) (by omega)⟩
      refine ⟨h.ordered, ?_, ?_⟩
      · intro j call' p' hj
        rcases at_observer_eq hj with ⟨_, hpc⟩ | hold
        · cases hpc
        · exact h.loaded j call' p' hold
      · rw [sizes_append, sizes_answers]
        intro x hx
        rcases List.mem_append.mp hx with hold | hnew
        · exact h.sizes x hold
        · rw [List.mem_singleton.mp hnew]
          exact hvalue

/-- The order of the counters and the sizes shown: what holds in every run, what a size is
after so many `tail_` stores between the two loads, and the runs in which all is well. -/
theorem counters_ordered (hcap : checkAndRoundCapacity w N = .ok cap) :
    (∀ tr (s : Observed n m T), (observed n m T w cap.toCapacity).Run tr s →
      (∃ since, (timed n m T w cap.toCapacity).Run tr (since, s)) ∧
      s.queue.tail ≤ s.queue.head + cap.size ∧
      (s.queue.head ≤ s.queue.tail ↔
        ¬ ∃ v t, s.queue.producer = .storeTail v t ∧ s.queue.head = t + 1)) ∧
    (∀ tr since (s : Observed n m T), (timed n m T w cap.toCapacity).Run tr (since, s) →
      ∀ k call h, s.observers k = .loadTail call h →
        (sizeApprox w h s.queue.tail ≤ cap.size ↔
          (since k).free ≤ cap.size + (since k).stores ∧
          (cap.size + (since k).stores - (since k).free) % 2 ^ w ≤ cap.size)) ∧
    (∀ tr since (s : Observed n m T),
      (timed n m T w cap.toCapacity).RunWhere Timely tr (since, s) →
      s.queue.head ≤ s.queue.tail ∧ s.queue.tail ≤ s.queue.head + cap.size ∧
      ∀ p ∈ sizes tr, p.2 ≤ cap.size) := by
  refine ⟨?_, ?_, ?_⟩
  · intro tr s hr
    obtain ⟨qs, hqs⟩ := run_queue hr
    refine ⟨hr.noted, (counters_near (run_inv hqs)).2, ?_⟩
    rw [← head_past_tail (run_inv hqs), Nat.not_lt]
  · intro tr since s hr k call h hk
    have hmoved := run_noted hr k call h hk
    have hloaded := run_loaded (Machine.run_of_noting hr) k call h hk
    simp only at hmoved hloaded
    rw [size_le_iff hcap hloaded]
    have hgap : s.queue.tail - h = cap.size + (since k).stores - (since k).free := by omega
    have hle : h ≤ s.queue.tail ↔ (since k).free ≤ cap.size + (since k).stores := by omega
    rw [hgap, hle]
  · intro tr since s hr
    obtain ⟨qs, hqs⟩ := run_queue (Machine.run_of_noting (Machine.RunWhere.run hr))
    have hsized := run_sized hcap hr
    exact ⟨hsized.ordered, (counters_near (run_inv hqs)).2, hsized.sizes⟩

/-- An item is put in, and its size asked for. -/
def oneInside (k : Fin 1) : List (ObserveAct 1 1 Nat) :=
  [.queue (.emplace .tryEmplace (some 7)), .queue .producer, .queue .producer, .queue .producer,
   .queue .producer, .queue .producer, .queue .producer,
   .call k .empty, .observer k, .observer k]

theorem counters_ordered_one_inside : ∃ tr since s,
    (timed 1 1 Nat 64 twoSlots.toCapacity).RunWhere Timely tr (since, s) ∧
    sizes tr = [(0, 1)] ∧ s.queue.head ≤ s.queue.tail := by
  have hr : (timed 1 1 Nat 64 twoSlots.toCapacity).RunWhere Timely _ (_, _) :=
    Machine.run_where_of_exec (oneInside 0) rfl
  have hcap : checkAndRoundCapacity 64 2 = .ok twoSlots := rfl
  exact ⟨_, _, _, hr, rfl, ((counters_ordered hcap).2.2 _ _ _ hr).1⟩

/-- The item is claimed, and the size asked for, before `tail_` is stored. -/
def claimedEarly (i k : Fin 1) : List (ObserveAct 1 1 Nat) :=
  [.queue (.emplace .tryEmplace (some 7)), .queue .producer, .queue .producer, .queue .producer,
   .queue .producer, .queue (.pop i .tryPop), .queue (.consumer i), .queue (.consumer i),
   .queue (.consumer i), .call k .sizeApprox, .observer k, .observer k]

theorem size_of_claimed_early : ∃ tr s, (observed 1 1 Nat 64 twoSlots.toCapacity).Run tr s ∧
    s.queue.tail < s.queue.head ∧ sizes tr = [(0, 2 ^ 64 - 1)] := by
  have hr : (observed 1 1 Nat 64 twoSlots.toCapacity).Run _ _ :=
    Machine.run_of_exec (claimedEarly 0 0) rfl
  exact ⟨_, _, hr, by decide, rfl⟩

end Sizes

end Toolbox.Proofs.SpmcCounters
