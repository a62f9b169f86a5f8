import Toolbox.Proofs.BroadcastFanout

namespace Toolbox.Proofs.BroadcastReentry
open Base Broadcast BroadcastMoves BroadcastCursors BroadcastFanout

variable {n : Nat} {T : Type*} {cap : RingCapacity} {s s' : State n T} {a : Act n T}
  {tr es : List (Event n T)} {i : Fin (n + 1)}

instance (s : State n T) (a : Act n T) : Decidable (Steady s a) :=
  match a with
  | .consumer i =>
    match h : s.consumers i with
    | .callback call pos :: rest => decidable_of_iff (s.cursors i = pos) (by simp [Steady, h])
    | [] | .loadCursor _ :: _ | .loadTail _ _ :: _ | .enter _ _ :: _ | .storeCursor _ _ _ :: _ =>
      isTrue (by simp [Steady, h])
  | .publish _ | .producer | .consume _ _ | .throws _ => isTrue trivial

/-- What the successful calls of consumer `i` gave it: the position and the item. -/
def consumptions (i : Fin (n + 1)) (tr : List (Event n T)) : List (Nat × T) :=
  tr.filterMap (fun | .consumed j pos v => if j = i then some (pos, v) else none | _ => none)

theorem consumptions_append (i : Fin (n + 1)) :
    consumptions i (tr ++ es) = consumptions i tr ++ consumptions i es :=
  List.filterMap_append

/-- Every position before the cursor, once and in order, with the item published there. -/
structure Given (tr : List (Event n T)) (s : State n T) : Prop where
  order : ∀ i, (consumptions i tr).map Prod.fst = List.range (s.cursors i)
  items : ∀ i, ∀ p ∈ consumptions i tr, (published tr)[p.1]? = some p.2

theorem Given.silent (h : Given tr s) (hconsumed : ∀ i, consumptions i es = [])
    (hcursors : s'.cursors = s.cursors) : Given (tr ++ es) s' := by
  refine ⟨?_, ?_⟩
  · intro i
    rw [consumptions_append, hconsumed, List.append_nil, hcursors]
    exact h.order i
  · intro i p hp
    rw [consumptions_append, hconsumed, List.append_nil] at hp
    have hitem := h.items i p hp
    rw [published_append, List.getElem?_append_left (List.getElem?_eq_some_iff.mp hitem).1]
    exact hitem

theorem Given.consumed (hi : Inv cap.toCapacity (published tr) s) (h : Given tr s)
    {call : ConsumeCall} {pos : Nat} {v : T} {rest : List (Frame T)}
    (hc : s.consumers i = .storeCursor call pos v :: rest) :
    Given (tr ++ [.consumed i pos v]) ((s.setCursor i (pos + 1)).atConsumer i rest) := by
  have hok := hi.consumer i
  rw [hc] at hok
  obtain ⟨rfl, hitem⟩ := hok.1
  have hpublished : published (tr ++ [.consumed i (s.cursors i) v]) = published tr := by
    rw [published_append]
    exact List.append_nil _
  refine ⟨?_, ?_⟩
  · intro j
    rw [consumptions_append, List.map_append, h.order j, cursors_at_consumer, cursors_set_cursor]
    by_cases he : j = i
    · subst he
      rw [if_pos rfl, List.range_succ]
      simp [consumptions]
    · rw [if_neg he]
      simp [consumptions, Ne.symm he]
  · intro j p hp
    rw [hpublished]
    rw [consumptions_append] at hp
    rcases List.mem_append.mp hp with hold | hnew
    · exact h.items j p hold
    · by_cases he : i = j
      · have hpair : p = (s.cursors i, v) := by simpa [consumptions, he] using hnew
        rw [hpair]
        exact hitem
      · simp [consumptions, he] at hnew

theorem move_given (hi : Inv cap.toCapacity (published tr) s) (h : Given tr s)
    (hm : Move cap.toCapacity s a s' es) : Given (tr ++ es) s' := by
  cases hm with
  | producer hm =>
    refine h.silent ?_ rfl
    intro i
    cases hm <;> rfl
  | consumer hm =>
    refine h.silent ?_ rfl
    intro i
    cases hm <;> rfl
  | full | scanned | assign | publish | nested | deliver => exact h.silent (fun _ => rfl) rfl
  | consumed hc => exact h.consumed hi hc

/-- A cursor store takes the cursor on by one position. -/
theorem cursors_grow (hi : Inv cap.toCapacity (published tr) s)
    (hm : Move cap.toCapacity s a s' es) (i : Fin (n + 1)) : s.cursors i ≤ s'.cursors i := by
  cases hm with
  | producer | consumer | full | scanned | assign | publish | nested | deliver =>
    exact Nat.le_refl _
  | @consumed j call pos v rest hc =>
    have hok := hi.consumer j
    rw [hc] at hok
    rw [cursors_at_consumer, cursors_set_cursor]
    split
    · rename_i he
      rw [he, hok.1.1]
      exact Nat.le_succ _
    · exact Nat.le_refl _

section Runs

variable [Inhabited T]

theorem run_given (hr : (machine n T none cap.toCapacity).RunWhere Steady tr s) : Given tr s := by
  refine Machine.Steps.invariant (I := Given) ?_ ?_ hr
  · exact ⟨fun _ => rfl, fun _ _ hp => by cases hp⟩
  · intro tr s a s' es hr h _ hs
    exact move_given (run_inv hr) h (step_moves hs)

/-- The first callback that returns although its item has been consumed inside it
makes its own call the second one to be given that item. -/
theorem given_twice (hr : (machine n T none cap.toCapacity).RunWhere Steady tr s)
    (hnot : ¬ Steady s (.consumer i)) :
    ∃ pos v v' s₁ s₂, (pos, v) ∈ consumptions i tr ∧
      (machine n T none cap.toCapacity).step s (.consumer i) = some (s₁, [.delivered i pos v']) ∧
      (machine n T none cap.toCapacity).step s₁ (.consumer i) =
        some (s₂, [.consumed i pos v']) := by
  obtain ⟨call, pos, rest, hc, hne⟩ : ∃ call pos rest,
      s.consumers i = .callback call pos :: rest ∧ s.cursors i ≠ pos := by
    simpa [Steady] using hnot
  have hok := (run_inv hr).consumer i
  rw [hc] at hok
  have hlt : pos < s.cursors i := Nat.lt_of_le_of_ne hok.1.1 hne.symm
  have hmem : pos ∈ (consumptions i tr).map Prod.fst := by
    rw [(run_given hr).order i]
    exact List.mem_range.mpr hlt
  obtain ⟨⟨p, v⟩, hp, rfl⟩ := List.mem_map.mp hmem
  let s₁ := s.atConsumer i (.storeCursor call p (s.item cap.toCapacity p) :: rest)
  have hc₁ : s₁.consumers i = .storeCursor call p (s.item cap.toCapacity p) :: rest := by
    simp [s₁]
  refine ⟨p, v, s.item cap.toCapacity p, s₁, (s₁.setCursor i (p + 1)).atConsumer i rest, hp, ?_, ?_⟩
  · simp only [machine, step, stepConsumer, hc, s₁]
  · simp only [machine, step, stepConsumer, hc₁, Width.wrap_none]

/-- Callbacks that may consume on their own handle: as long as none returns normally
from an item that has been consumed inside it, cursors only move on, each item is given
by one successful call, and none is overwritten before; and the first that does is
about to give its item again. -/
theorem reentry_exact :
    (∀ tr s, (machine n T none cap.toCapacity).RunWhere Steady tr s →
      (∀ a s' es, (machine n T none cap.toCapacity).step s a = some (s', es) →
        ∀ i, s.cursors i ≤ s'.cursors i) ∧
      (∀ i, (consumptions i tr).map Prod.fst = List.range (s.cursors i) ∧
        ∀ p ∈ consumptions i tr, (published tr)[p.1]? = some p.2) ∧
      (∀ i p, s.cursors i ≤ p → p < (published tr).length →
        (published tr)[p]? = some (s.item cap.toCapacity p) ∧
        ∀ v t, s.producer = .assign v t → cap.index p ≠ cap.index t)) ∧
    (∀ tr s i, (machine n T none cap.toCapacity).RunWhere Steady tr s →
      ¬ Steady s (.consumer i) → ∃ pos v v' s₁ s₂, (pos, v) ∈ consumptions i tr ∧
        (machine n T none cap.toCapacity).step s (.consumer i) =
          some (s₁, [.delivered i pos v']) ∧
        (machine n T none cap.toCapacity).step s₁ (.consumer i) =
          some (s₂, [.consumed i pos v'])) := by
  refine ⟨?_, fun _ _ _ => given_twice⟩
  intro tr s hr
  have hi := run_inv hr
  have hgiven := run_given hr
  refine ⟨?_, fun i => ⟨hgiven.order i, hgiven.items i⟩, ?_⟩
  · intro a s' es hs
    exact cursors_grow hi (step_moves hs)
  · intro i p hle hlt
    refine ⟨hi.unread hle hlt, ?_⟩
    intro v t hp
    have hprod := hi.producer
    rw [hp] at hprod
    have hroom := hprod.2 i
    have htail := hi.tail
    have ht := hprod.1
    exact cap.index_ne (by omega) (by omega) (by omega)

end Runs

/-- Two items, the first consumed inside a callback that is given it, which then throws. -/
def consumeThenThrow (i : Fin 1) : List (Act 0 Nat) :=
  [.publish (some 7), .producer, .producer, .producer, .producer,
   .publish (some 8), .producer, .producer, .producer, .producer,
   .consume i .tryConsume, .consumer i, .consumer i, .consumer i,
   .consume i .tryCopy, .consumer i, .consumer i, .consumer i, .consumer i, .consumer i,
   .throws i]

theorem reentry_exact_throwing : ∃ tr s,
    (machine 0 Nat none twoSlots.toCapacity).RunWhere Steady tr s ∧ s.cursors 0 = 1 ∧
    (consumptions 0 tr).map Prod.fst = List.range (s.cursors 0) := by
  have hr : (machine 0 Nat none twoSlots.toCapacity).RunWhere Steady _ _ :=
    Machine.run_where_of_exec (consumeThenThrow 0) rfl
  exact ⟨_, _, hr, rfl, ((reentry_exact.1 _ _ hr).2.1 0).1⟩

/-- The callback for the first item consumes two on its own handle, and returns. -/
def consumeInside (i : Fin 1) : List (Act 0 Nat) :=
  [.publish (some 7), .producer, .producer, .producer, .producer,
   .publish (some 8), .producer, .producer, .producer, .producer,
   .consume i .tryConsume, .consumer i, .consumer i, .consumer i,
   .consume i .tryCopy, .consumer i, .consumer i, .consumer i, .consumer i, .consumer i,
   .consume i .tryCopy, .consumer i, .consumer i, .consumer i, .consumer i, .consumer i,
   .consumer i]

/-- Its cursor store takes the cursor back, and the first item has been given twice. -/
theorem cursor_goes_back : ∃ tr s s' es, (machine 0 Nat none twoSlots.toCapacity).Run tr s ∧
    (machine 0 Nat none twoSlots.toCapacity).step s (.consumer 0) = some (s', es) ∧
    s'.cursors 0 < s.cursors 0 ∧ consumptions 0 (tr ++ es) = [(0, 7), (1, 8), (0, 7)] := by
  have hr : (machine 0 Nat none twoSlots.toCapacity).Run _ _ :=
    Machine.run_of_exec (consumeInside 0) rfl
  exact ⟨_, _, _, _, hr, rfl, by decide, rfl⟩

end Toolbox.Proofs.BroadcastReentry
