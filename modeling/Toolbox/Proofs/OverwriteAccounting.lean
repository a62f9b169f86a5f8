import Toolbox.Proofs.OverwriteSeqlock

namespace Toolbox.Proofs.OverwriteAccounting
open Base Overwrite OverwriteMoves OverwriteSeqlock

variable {n m : Nat} {D : Type*} {cap : Capacity} {s s' : State n m D} {a : Act n m D}
  {tr es : List (Event n m D)}

theorem delivered_append (i : Fin n) :
    delivered i (tr ++ es) = delivered i tr ++ delivered i es :=
  List.filterMap_append

theorem starts_append (i : Fin n) : starts i (tr ++ es) = starts i tr ++ starts i es :=
  List.filterMap_append

/-- Where one handle stands: nowhere yet, or at its start plus what it was given
plus what it missed, with everything it was given behind it. -/
def Balanced (starts delivered : List Nat) : Option (Consumer m D) → Prop
  | none => starts = [] ∧ delivered = []
  | some c => (∃ start, starts = [start] ∧ c.pos = start + delivered.length + c.missed) ∧
      delivered.Pairwise (· < ·) ∧ ∀ p ∈ delivered, p < c.pos

theorem Balanced.advance {ss ds : List Nat} {c c' : Consumer m D} {k : Nat}
    (h : Balanced ss ds (some c)) (hpos : c'.pos = c.pos + k) (hmissed : c'.missed = c.missed + k) :
    Balanced ss ds (some c') := by
  obtain ⟨⟨start, hss, hsum⟩, hsorted, hbehind⟩ := h
  refine ⟨⟨start, hss, by omega⟩, hsorted, ?_⟩
  intro p hp
  have := hbehind p hp
  omega

theorem Balanced.deliver {ss ds : List Nat} {c c' : Consumer m D} (h : Balanced ss ds (some c))
    (hpos : c'.pos = c.pos + 1) (hmissed : c'.missed = c.missed) :
    Balanced ss (ds ++ [c.pos]) (some c') := by
  obtain ⟨⟨start, hss, hsum⟩, hsorted, hbehind⟩ := h
  refine ⟨⟨start, hss, ?_⟩, ?_, ?_⟩
  · simp only [List.length_append, List.length_singleton]
    omega
  · apply List.pairwise_append.mpr
    refine ⟨hsorted, List.pairwise_singleton _ _, ?_⟩
    intro p hp q hq
    rw [List.mem_singleton.mp hq]
    exact hbehind p hp
  · intro p hp
    rcases List.mem_append.mp hp with hp | hp
    · have := hbehind p hp
      omega
    · rw [List.mem_singleton.mp hp]
      omega

/-- What one reader step does to its handle's account. -/
theorem Balanced.reader_move {i : Fin n} {c c' : Consumer m D} (hm : ReaderMove cap s i c a c' es)
    (h : Balanced (starts i tr) (delivered i tr) (some c)) :
    Balanced (starts i (tr ++ es)) (delivered i (tr ++ es)) (some c') := by
  have hstarts : starts i es = [] := by cases hm <;> rfl
  rw [starts_append, delivered_append, hstarts, List.append_nil]
  cases hm with
  | call | busy | early | passed | matched | word | torn | stayed =>
    change Balanced _ (delivered i tr ++ []) _
    rw [List.append_nil]
    exact h.advance (k := 0) rfl rfl
  | @ok s1 done out =>
    have hgiven : delivered i [(.ok i c.pos out : Event n m D)] = [c.pos] := by simp [delivered]
    rw [hgiven]
    exact h.deliver rfl rfl
  | lapped hpc htarget hlt =>
    change Balanced _ (delivered i tr ++ []) _
    rw [List.append_nil]
    exact h.advance (by simp only; omega) rfl

theorem reader_events {i : Fin n} {c c' : Consumer m D} (hm : ReaderMove cap s i c a c' es)
    {j : Fin n} (hj : j ≠ i) : starts j es = [] ∧ delivered j es = [] := by
  cases hm <;> simp [starts, delivered, Ne.symm hj]

theorem move_balanced (h : ∀ i, Balanced (starts i tr) (delivered i tr) (s.consumers i))
    (hm : Move cap s a s' es) (i : Fin n) :
    Balanced (starts i (tr ++ es)) (delivered i (tr ++ es)) (s'.consumers i) := by
  cases hm with
  | call | advance | mark | threw | build | word | settle | announce =>
    rw [starts_append, delivered_append]
    change Balanced (starts i tr ++ []) (delivered i tr ++ []) (s.consumers i)
    rw [List.append_nil, List.append_nil]
    exact h i
  | @make j hc =>
    rw [starts_append, delivered_append]
    by_cases he : i = j
    · subst he
      have hold := h i
      rw [hc] at hold
      obtain ⟨hss, hds⟩ := hold
      have hnew : starts i [(.made i (s.published + 1) : Event n m D)] = [s.published + 1] := by
        simp [starts]
      rw [hss, hds, hnew, consumers_set_consumer, if_pos rfl]
      exact ⟨⟨_, rfl, rfl⟩, List.Pairwise.nil, by simp [delivered]⟩
    · simpa [starts, delivered, he, Ne.symm he] using h i
  | @reader a j c c' es hc hm =>
    by_cases he : i = j
    · subst he
      have hold := h i
      rw [hc] at hold
      simpa using hold.reader_move hm
    · obtain ⟨hss, hds⟩ := reader_events hm he
      rw [starts_append, delivered_append, hss, hds]
      simpa [he] using h i

theorem run_balanced [Inhabited D] (hr : (machine n m D none cap).Run tr s) :
    ∀ i, Balanced (starts i tr) (delivered i tr) (s.consumers i) := by
  refine Machine.Run.invariant
    (I := fun tr s => ∀ i, Balanced (starts i tr) (delivered i tr) (s.consumers i)) ?_ ?_ hr
  · intro i
    exact ⟨rfl, rfl⟩
  · intro tr s a s' es hr h hs
    exact move_balanced h (step_moves hs)

/-- What one result does to the position and the loss count of its consumer. -/
def Counts (c c' : Consumer m D) : Event n m D → Prop
  | .ok _ pos _ => c.pos = pos ∧ c'.pos = pos + 1 ∧ c'.missed = c.missed
  | .lapped _ pos target _ _ => c.pos = pos ∧ pos < target ∧ c'.pos = target ∧
      c'.missed = c.missed + (target - pos)
  | .empty _ _ => c'.pos = c.pos ∧ c'.missed = c.missed
  | _ => True

/-- The consumer whose call a result ends. -/
def returning : Event n m D → Option (Fin n)
  | .ok i _ _ | .lapped i _ _ _ _ | .empty i _ => some i
  | _ => none

/-- A step either leaves consumer `i` alone and answers none of its calls, or is
one of its own. -/
theorem move_consumer (hm : Move cap s a s' es) {i : Fin n} {c : Consumer m D}
    (hc : s.consumers i = some c) :
    (s'.consumers i = some c ∧ ∀ e ∈ es, returning e ≠ some i) ∨
      ∃ c', s'.consumers i = some c' ∧ ReaderMove cap s i c a c' es := by
  cases hm with
  | call | mark | build | word | settle => exact .inl ⟨hc, by simp⟩
  | advance | threw | announce => exact .inl ⟨hc, by simp [returning]⟩
  | @make j hj =>
    have hne : i ≠ j := by
      rintro rfl
      rw [hc] at hj
      cases hj
    refine .inl ⟨?_, by simp [returning]⟩
    rw [consumers_set_consumer, if_neg hne]
    exact hc
  | @reader a j d d' es hd hm =>
    by_cases hij : i = j
    · subst hij
      rw [hc] at hd
      obtain rfl := Option.some.inj hd
      exact .inr ⟨d', consumers_self _ _ _, hm⟩
    · refine .inl ⟨?_, ?_⟩
      · rw [consumers_set_consumer, if_neg hij]
        exact hc
      · intro e he hret
        cases hm with
        | call | passed | matched | word | torn => cases he
        | busy | early | ok | lapped | stayed =>
          obtain rfl := List.mem_singleton.mp he
          exact hij (Option.some.inj hret).symm

theorem move_counts (hi : Inv cap (calls tr) s) (hm : Move cap s a s' es) {e : Event n m D}
    (he : e ∈ es) {i : Fin n} (hret : returning e = some i) :
    ∃ c c', s.consumers i = some c ∧ s'.consumers i = some c' ∧ Counts c c' e := by
  cases hm with
  | call | mark | build | word | settle => cases he
  | advance | threw | announce | make =>
    rw [List.mem_singleton.mp he] at hret
    cases hret
  | @reader a j c c' es hc hm =>
    have hafter : (s.setConsumer j c').consumers j = some c' := by simp
    cases hm with
    | call | passed | matched | word | torn => cases he
    | busy | early =>
      obtain rfl := List.mem_singleton.mp he
      cases hret
      exact ⟨c, _, hc, hafter, rfl, rfl⟩
    | ok =>
      obtain rfl := List.mem_singleton.mp he
      cases hret
      exact ⟨c, _, hc, hafter, rfl, rfl, rfl⟩
    | lapped hpc htarget hlt =>
      obtain rfl := List.mem_singleton.mp he
      cases hret
      exact ⟨c, _, hc, hafter, rfl, hlt, rfl, rfl⟩
    | stayed hpc hle =>
      have := (hi.lapped_target hc hpc).1
      omega

/-- The accounts of every consumer balance in every reachable state. -/
theorem accounting [Inhabited D] (hr : (machine n m D none cap).Run tr s) :
    (∀ i c, s.consumers i = some c → c.pos ≤ s.writePos + 1 ∧
      ∃ start, starts i tr = [start] ∧ c.pos = start + (delivered i tr).length + c.missed) ∧
    (∀ i, (delivered i tr).Pairwise (· < ·)) ∧
    (∀ a s' es, (machine n m D none cap).step s a = some (s', es) →
      ∀ e ∈ es, ∀ i, returning e = some i →
        ∃ c c', s.consumers i = some c ∧ s'.consumers i = some c' ∧ Counts c c' e) := by
  have hi := run_inv hr
  have hbalanced := run_balanced hr
  refine ⟨?_, ?_, ?_⟩
  · intro i c hc
    have h := hbalanced i
    rw [hc] at h
    exact ⟨(hi.place i c hc).2, h.1⟩
  · intro i
    have h := hbalanced i
    cases hc : s.consumers i with
    | none =>
      rw [hc] at h
      rw [h.2]
      exact List.Pairwise.nil
    | some c =>
      rw [hc] at h
      exact h.2.1
  · intro a s' es hs e he i hret
    exact move_counts hi (step_moves hs) he hret

/-- The consumer subscribes before three one-word publishes on two slots and
reads twice: lapped, then the item it was moved to. -/
def lapThenRead (i j : Fin 1) : List (Act 1 1 Nat) :=
  [.makeConsumer i,
   .publish (some ![7]), .producer, .producer, .producer, .producerWord j, .producer, .producer,
   .publish (some ![8]), .producer, .producer, .producer, .producerWord j, .producer, .producer,
   .publish (some ![9]), .producer, .producer, .producer, .producerWord j, .producer, .producer,
   .tryRead i ![0], .reader i, .reader i,
   .tryRead i ![0], .reader i, .readerWord i j, .reader i]

theorem accounting_lapped_once : ∃ tr s, (machine 1 1 Nat none twoSlots.toCapacity).Run tr s ∧
    delivered 0 tr = [2] ∧ ∃ c, s.consumers 0 = some c ∧ c.missed = 1 ∧
      c.pos ≤ s.writePos + 1 := by
  have hr : (machine 1 1 Nat none twoSlots.toCapacity).Run _ _ :=
    Machine.run_of_exec (lapThenRead 0 0) rfl
  exact ⟨_, _, hr, rfl, _, rfl, rfl, ((accounting hr).1 0 _ rfl).1⟩

end Toolbox.Proofs.OverwriteAccounting
