import Toolbox.BroadcastCalls
import Toolbox.Proofs.BroadcastCursors

namespace Toolbox.Proofs.BroadcastSerial
open Base Broadcast BroadcastMoves BroadcastCursors

variable {n : Nat} {T : Type*} {w : Width} {cap : Capacity} {s x : State n T}

/-- No call is in progress. -/
structure Quiet (s : State n T) : Prop where
  producer : s.producer = .idle
  consumers : ∀ i, s.consumers i = []

theorem Quiet.keep (h : Quiet s) (hp : x.producer = s.producer)
    (hc : x.consumers = s.consumers) : Quiet x :=
  ⟨hp.trans h.producer, fun i => (congrFun hc i).trans (h.consumers i)⟩

theorem at_producer_idle (hp : s.producer = .idle) : s.atProducer .idle = s := by
  rw [State.atProducer, ← hp]

theorem Quiet.at_consumer (h : Quiet s) (i : Fin (n + 1)) : s.atConsumer i [] = s := by
  rw [State.atConsumer, ← h.consumers i, Function.update_eq_self]

theorem at_consumer_twice (i : Fin (n + 1)) (stack stack' : List (Frame T)) :
    (s.atConsumer i stack).atConsumer i stack' = s.atConsumer i stack' := by
  simp [State.atConsumer]

theorem scan_up_to_le (cursors : Fin (n + 1) → Nat) {k : Nat} (hk : k ≤ n + 1)
    {i : Fin (n + 1)} (hi : i.val < k) : scanUpTo cursors k hk ≤ cursors i := by
  induction k with
  | zero => omega
  | succ k ih =>
    rw [scanUpTo]
    by_cases hlast : i.val = k
    · have hsame : i = ⟨k, hk⟩ := Fin.ext hlast
      rw [hsame]
      exact scan_least_le _ _ _
    · have hne : (⟨k, hk⟩ : Fin (n + 1)) ≠ 0 := by
        intro h
        have := congrArg Fin.val h
        simp only [Fin.val_zero] at this
        omega
      exact Nat.le_trans (scan_least_keeps hne _ _) (ih (Nat.le_of_succ_le hk) (by omega))

theorem scan_up_to_attained (cursors : Fin (n + 1) → Nat) {k : Nat} (hk : k + 1 ≤ n + 1) :
    ∃ i, scanUpTo cursors (k + 1) hk = cursors i := by
  induction k with
  | zero => exact ⟨0, rfl⟩
  | succ k ih =>
    rw [scanUpTo]
    rcases scan_least_cases ⟨k + 1, hk⟩ (scanUpTo cursors (k + 1) (Nat.le_of_succ_le hk))
      (cursors ⟨k + 1, hk⟩) with hload | ⟨_, hkeep⟩
    · exact ⟨_, hload⟩
    · rw [hkeep]
      exact ih (Nat.le_of_succ_le hk)

theorem scan_up_to_last (cursors : Fin (n + 1) → Nat) {i : Fin (n + 1)} (hi : i.val = n) :
    scanLeast i (scanUpTo cursors i.val (Nat.le_of_lt i.isLt)) (cursors i) = scanMin cursors := by
  obtain ⟨i, hlt⟩ := i
  obtain rfl : i = n := hi
  rfl

theorem scan_min_le (cursors : Fin (n + 1) → Nat) (i : Fin (n + 1)) :
    scanMin cursors ≤ cursors i :=
  scan_up_to_le cursors _ i.isLt

theorem scan_min_attained (cursors : Fin (n + 1) → Nat) : ∃ i, scanMin cursors = cursors i :=
  scan_up_to_attained cursors _

/-- The calls of the producer leave both program counters as they are. -/
theorem put_rest (w : Width) (cap : Capacity) (s : State n T) (arg : Option T) :
    (put w cap s arg).1.producer = s.producer ∧ (put w cap s arg).1.consumers = s.consumers := by
  cases arg <;> exact ⟨rfl, rfl⟩

theorem publish_rest (w : Width) (cap : Capacity) (s : State n T) (arg : Option T) :
    (tryPublish w cap s arg).1.producer = s.producer ∧
      (tryPublish w cap s arg).1.consumers = s.consumers := by
  unfold tryPublish
  split
  · simp only
    split
    · exact ⟨rfl, rfl⟩
    · exact put_rest w cap { s with cachedMin := scanMin s.cursors } arg
  · exact put_rest w cap s arg

section Steps

variable [Inhabited T]

theorem put_alone (w : Width) (cap : Capacity) (hp : s.producer = .idle) (arg : Option T) :
    (machine n T w cap).Alone .producer (s.atProducer (.construct arg s.tail))
      (put w cap s arg).2 (put w cap s arg).1 := by
  have hend := at_producer_idle ((put_rest w cap s arg).1.trans hp)
  cases arg with
  | none =>
    refine .last ?_
    exact congrArg (fun t => some (t, [Event.threw])) hend
  | some v =>
    refine .silent rfl (.silent rfl (.last ?_))
    exact congrArg (fun t => some (t, [Event.published v])) hend

/-- `try_publish` once the cached minimum says full. -/
def rescan (w : Width) (cap : Capacity) (s : State n T) (arg : Option T) :
    State n T × List (Event n T) :=
  if looksFull w cap s.tail (scanMin s.cursors) then
    ({ s with cachedMin := scanMin s.cursors }, [.full])
  else put w cap { s with cachedMin := scanMin s.cursors } arg

theorem rescan_alone (w : Width) (cap : Capacity) (hp : s.producer = .idle) (arg : Option T)
    (k : Nat) {i : Fin (n + 1)} (hk : i.val + k = n) :
    (machine n T w cap).Alone .producer
      (s.atProducer (.scan arg s.tail i (scanUpTo s.cursors i.val (Nat.le_of_lt i.isLt))))
      (rescan w cap s arg).2 (rescan w cap s arg).1 := by
  induction k generalizing i with
  | zero =>
    have hlast : ¬ i.val + 1 < n + 1 := by omega
    have hmin := scan_up_to_last s.cursors (i := i) hk
    have hidle : ({ s with cachedMin := scanMin s.cursors } : State n T).producer = .idle := hp
    by_cases hfull : looksFull w cap s.tail (scanMin s.cursors) = true
    · rw [rescan, if_pos hfull]
      refine .last ?_
      simp only [machine, step, stepProducer, producer_at_producer, cursors_at_producer, hlast,
        ↓reduceDIte, hmin, hfull, ↓reduceIte]
      exact congrArg (fun t => some (t, [Event.full])) (at_producer_idle hidle)
    · rw [rescan, if_neg hfull]
      refine .silent ?_ (put_alone w cap hidle arg)
      simp only [machine, step, stepProducer, producer_at_producer, cursors_at_producer, hlast,
        ↓reduceDIte, hmin, hfull]
      rfl
  | succ k ih =>
    have hmore : i.val + 1 < n + 1 := by omega
    refine .silent ?_ (ih (i := ⟨i.val + 1, hmore⟩) (by simp only; omega))
    simp only [machine, step, stepProducer, producer_at_producer, hmore, ↓reduceDIte]
    rfl

/-- A call of `try_publish`, step by step, whatever the consumers are at. -/
theorem publish_alone (w : Width) (cap : Capacity) (hp : s.producer = .idle) (arg : Option T) :
    (machine n T w cap).Alone .producer (s.atProducer (.loadTail arg))
      (tryPublish w cap s arg).2 (tryPublish w cap s arg).1 := by
  by_cases hfull : looksFull w cap s.tail s.cachedMin = true
  · have hwhole : tryPublish w cap s arg = rescan w cap s arg := if_pos hfull
    rw [hwhole]
    refine .silent ?_ (rescan_alone w cap hp arg n (i := 0) (Nat.zero_add n))
    simp only [machine, step, stepProducer, producer_at_producer, tail_at_producer]
    exact if_pos hfull
  · have hwhole : tryPublish w cap s arg = put w cap s arg := if_neg hfull
    rw [hwhole]
    refine .silent ?_ (put_alone w cap hp arg)
    simp only [machine, step, stepProducer, producer_at_producer, tail_at_producer]
    exact if_neg hfull

theorem publish_steps (hq : Quiet s) (arg : Option T) :
    (machine n T w cap).Steps (fun _ _ => True) s (tryPublish w cap s arg).2
      (tryPublish w cap s arg).1 := by
  have hcall : (machine n T w cap).step s (.publish arg) =
      some (s.atProducer (.loadTail arg), []) := by
    simp only [machine, step, hq.producer]
  exact (Machine.Steps.single trivial hcall).trans
    ((publish_alone w cap hq.producer arg).steps (fun _ => trivial))

theorem consume_steps (hq : Quiet s) (i : Fin (n + 1)) (call : ConsumeCall) (throws : Bool) :
    (machine n T w cap).Steps (fun _ _ => True) s (tryConsume w cap s i throws).2
      (tryConsume w cap s i throws).1 := by
  have hback : s.atConsumer i [] = s := hq.at_consumer i
  have hcall : (machine n T w cap).step s (.consume i call) =
      some (s.atConsumer i [.loadCursor call], []) := by
    simp only [machine, step, hq.consumers]
  have hload : (machine n T w cap).step (s.atConsumer i [.loadCursor call]) (.consumer i) =
      some (s.atConsumer i [.loadTail call (s.cursors i)], []) := by
    simp [machine, step, stepConsumer, at_consumer_twice]
  by_cases hnothing : s.tail ≤ s.cursors i
  · have hlast : (machine n T w cap).step (s.atConsumer i [.loadTail call (s.cursors i)])
        (.consumer i) = some (s, [.nothing i]) := by
      simp [machine, step, stepConsumer, at_consumer_twice, hnothing, hback]
    rw [tryConsume, if_pos hnothing]
    exact Machine.steps_of_exec _ (Machine.exec_step hcall (Machine.exec_step hload
      (Machine.exec_step hlast Machine.exec_nil)))
  · have hfound : (machine n T w cap).step (s.atConsumer i [.loadTail call (s.cursors i)])
        (.consumer i) = some (s.atConsumer i [.enter call (s.cursors i)], []) := by
      simp [machine, step, stepConsumer, at_consumer_twice, hnothing]
    have henter : (machine n T w cap).step (s.atConsumer i [.enter call (s.cursors i)])
        (.consumer i) = some (s.atConsumer i [.callback call (s.cursors i)],
          [.entered i (s.cursors i) (s.item cap (s.cursors i))]) := by
      simp [machine, step, stepConsumer, at_consumer_twice]
    rw [tryConsume, if_neg hnothing]
    cases throws with
    | true =>
      have hthrow : (machine n T w cap).step (s.atConsumer i [.callback call (s.cursors i)])
          (.throws i) = some (s, [.callbackThrew i (s.cursors i)]) := by
        simp [machine, step, at_consumer_twice, hback]
      exact Machine.steps_of_exec _ (Machine.exec_step hcall (Machine.exec_step hload
        (Machine.exec_step hfound (Machine.exec_step henter (Machine.exec_step hthrow
          Machine.exec_nil)))))
    | false =>
      have hdeliver : (machine n T w cap).step (s.atConsumer i [.callback call (s.cursors i)])
          (.consumer i) = some (s.atConsumer i
            [.storeCursor call (s.cursors i) (s.item cap (s.cursors i))],
            [.delivered i (s.cursors i) (s.item cap (s.cursors i))]) := by
        simp [machine, step, stepConsumer, at_consumer_twice]
      have hstore : (machine n T w cap).step (s.atConsumer i
            [.storeCursor call (s.cursors i) (s.item cap (s.cursors i))]) (.consumer i) =
          some (s.setCursor i (w.wrap (s.cursors i + 1)),
            [.consumed i (s.cursors i) (s.item cap (s.cursors i))]) := by
        have hend : Quiet (s.setCursor i (w.wrap (s.cursors i + 1))) := hq.keep rfl rfl
        have hdone : ((s.atConsumer i [.storeCursor call (s.cursors i)
            (s.item cap (s.cursors i))]).setCursor i (w.wrap (s.cursors i + 1))).atConsumer i [] =
              s.setCursor i (w.wrap (s.cursors i + 1)) :=
          (at_consumer_twice (s := s.setCursor i _) i _ _).trans (hend.at_consumer i)
        simp only [machine, step, stepConsumer, consumers_at_consumer, ↓reduceIte, hdone]
      exact Machine.steps_of_exec _ (Machine.exec_step hcall (Machine.exec_step hload
        (Machine.exec_step hfound (Machine.exec_step henter (Machine.exec_step hdeliver
          (Machine.exec_step hstore Machine.exec_nil))))))

end Steps

theorem consume_quiet (hq : Quiet s) (i : Fin (n + 1)) (throws : Bool) :
    Quiet (tryConsume w cap s i throws).1 := by
  unfold tryConsume
  simp only
  split
  · exact hq
  · split
    · exact hq
    · exact hq.keep rfl rfl

/-- A sequence of complete calls is one of the machine's interleavings. -/
theorem calls_run [Inhabited T] (cs : List (Call n T)) :
    (machine n T w cap).Run (serial (call w cap) (machine n T w cap).init cs).2
      (serial (call w cap) (machine n T w cap).init cs).1 := by
  have hinit : Quiet (machine n T w cap).init := ⟨rfl, fun _ => rfl⟩
  refine (steps_of_serial (Q := Quiet) ?_ hinit cs).1
  intro s c hq
  cases c with
  | tryPublish arg =>
    obtain ⟨hproducer, hconsumers⟩ := publish_rest w cap s arg
    exact ⟨publish_steps hq arg, hq.keep hproducer hconsumers⟩
  | tryConsume i call throws => exact ⟨consume_steps hq i call throws, consume_quiet hq i throws⟩

end Toolbox.Proofs.BroadcastSerial
