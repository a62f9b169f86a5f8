import Mathlib.Data.Finset.Lattice.Fold
import Mathlib.Data.Fintype.Basic
import Mathlib.Order.Lattice.Nat
import Toolbox.Proofs.BroadcastFanout
import Toolbox.Proofs.BroadcastSerial

namespace Toolbox.Proofs.BroadcastGating
open Base Broadcast BroadcastMoves BroadcastCursors BroadcastFanout BroadcastSerial

variable {n : Nat} {T : Type*} {cap : RingCapacity} {s s' t u : State n T} {a : Act n T}
  {tr es : List (Event n T)}

/-- No cursor store moves its cursor back. -/
def Onward (s : State n T) : Act n T → Prop
  | .consumer i => ∀ call pos v rest, s.consumers i = .storeCursor call pos v :: rest →
      s.cursors i ≤ pos + 1
  | _ => True

/-- `min_i cursors_[i]`, as a scan on every call would find it. -/
def minCursor (s : State n T) : Nat := Finset.univ.inf' ⟨0, Finset.mem_univ 0⟩ s.cursors

/-- The stale minimum and whatever the producer has concluded from it are still
on the safe side. -/
structure Gated (cap : Capacity) (s : State n T) : Prop where
  cached : ∀ i, s.cachedMin ≤ s.cursors i
  room : ∀ i, limit s ≤ s.cursors i + cap.size
  producer : ProducerOk cap s s.producer

theorem Gated.at_consumer (h : Gated cap.toCapacity s) (i : Fin (n + 1))
    (stack : List (Frame T)) : Gated cap.toCapacity (s.atConsumer i stack) :=
  ⟨h.cached, h.room, h.producer⟩

/-- The end of a scan installs a minimum that bounds every cursor. -/
theorem Gated.rescanned (h : Gated cap.toCapacity s) {arg : Option T} {x least : Nat}
    {i : Fin (n + 1)} (hp : s.producer = .scan arg x i least) (hlast : i.val = n)
    {pc : ProducerPc n T} (hquiet : ∀ v y, pc ≠ .storeTail v y)
    (hok : (∀ j, scanLeast i least (s.cursors i) ≤ s.cursors j) → x = s.tail →
      ProducerOk cap.toCapacity s pc) :
    Gated cap.toCapacity
      ({ s with cachedMin := scanLeast i least (s.cursors i) }.atProducer pc) := by
  have hprod := h.producer
  rw [hp] at hprod
  have hleast : ∀ j, scanLeast i least (s.cursors i) ≤ s.cursors j :=
    fun j => scan_step hprod (by omega)
  have hbefore : limit s = s.tail := limit_quiet (by simp [hp])
  have hafter := limit_quiet
    (s := { s with cachedMin := scanLeast i least (s.cursors i) }.atProducer pc) hquiet
  refine ⟨hleast, ?_, ?_⟩
  · intro j
    rw [hafter]
    have hroom := h.room j
    rw [hbefore] at hroom
    exact hroom
  · exact (hok hleast hprod.1).grow rfl rfl (fun _ => Nat.le_refl _)

theorem Gated.consumed (h : Gated cap.toCapacity s) {i : Fin (n + 1)} {pos : Nat}
    (hle : s.cursors i ≤ pos + 1) (stack : List (Frame T)) :
    Gated cap.toCapacity ((s.setCursor i (pos + 1)).atConsumer i stack) := by
  have hgrow : ∀ j, s.cursors j ≤ (s.setCursor i (pos + 1)).cursors j := by
    intro j
    rw [cursors_set_cursor]
    split
    · rename_i hj
      rw [hj]
      exact hle
    · exact Nat.le_refl _
  refine ⟨?_, ?_, ?_⟩
  · exact fun j => Nat.le_trans (h.cached j) (hgrow j)
  · exact fun j => Nat.le_trans (h.room j) (Nat.add_le_add_right (hgrow j) _)
  · exact h.producer.grow rfl rfl hgrow

theorem move_gated (h : Gated cap.toCapacity s) (hok : Onward s a)
    (hm : Move cap.toCapacity s a s' es) : Gated cap.toCapacity s' := by
  have hprod := h.producer
  cases hm with
  | producer hm =>
    obtain ⟨hnew, hlimit⟩ := producer_move_ok h.cached h.producer hm
    refine ⟨h.cached, ?_, hnew⟩
    rw [hlimit]
    exact h.room
  | full hp hlast hfull => exact h.rescanned hp hlast (by simp) (fun _ _ => trivial)
  | scanned hp hlast hroom =>
    refine h.rescanned hp hlast (by simp) ?_
    intro hleast htail
    refine ⟨htail, ?_⟩
    intro j
    have hj := hleast j
    omega
  | assign hp =>
    rw [hp] at hprod
    exact ⟨h.cached, hprod.2, hprod.1, by simp [item_set_item]⟩
  | @publish v x hp =>
    refine ⟨h.cached, ?_, trivial⟩
    intro j
    have hroom := h.room j
    rw [limit, hp] at hroom
    exact hroom
  | consumer _ | nested _ | deliver _ => exact h.at_consumer _ _
  | consumed hc => exact h.consumed (hok _ _ _ _ hc) _

theorem min_cursor_le (s : State n T) (i : Fin (n + 1)) : minCursor s ≤ s.cursors i :=
  Finset.inf'_le _ (Finset.mem_univ i)

theorem min_cursor_attained (s : State n T) : ∃ i, minCursor s = s.cursors i := by
  obtain ⟨i, _, hi⟩ := Finset.exists_mem_eq_inf' ⟨0, Finset.mem_univ (0 : Fin (n + 1))⟩ s.cursors
  exact ⟨i, hi⟩

theorem min_cursor_eq {m : Nat} (hle : ∀ j, m ≤ s.cursors j) (hmem : ∃ j, m = s.cursors j) :
    minCursor s = m := by
  obtain ⟨j, hj⟩ := hmem
  apply Nat.le_antisymm
  · rw [hj]
    exact min_cursor_le s j
  · obtain ⟨i, hi⟩ := min_cursor_attained s
    rw [hi]
    exact hle i

theorem min_cursor_room {x : Nat} :
    x - minCursor s < cap.size ↔ ∀ j, x < s.cursors j + cap.size := by
  have hpos := cap.size_pos
  constructor
  · intro h j
    have hj := min_cursor_le s j
    omega
  · intro h
    obtain ⟨i, hi⟩ := min_cursor_attained s
    have := h i
    omega

/-- What a call of `try_publish` shows once it is past the gate. -/
def outcome : Option T → Event n T
  | some v => .published v
  | none => .threw

theorem scan_min_eq (s : State n T) : scanMin s.cursors = minCursor s :=
  (min_cursor_eq (scan_min_le s.cursors) (scan_min_attained s.cursors)).symm

theorem put_shows (w : Width) (cap : Capacity) (s : State n T) (arg : Option T) :
    (put w cap s arg).2 = [outcome arg] := by
  cases arg <;> rfl

/-- A call left alone answers as a scan of all cursors would. -/
theorem publish_shows (hcached : ∀ i, s.cachedMin ≤ s.cursors i) (arg : Option T) :
    (tryPublish none cap.toCapacity s arg).2 =
      [if s.tail - minCursor s < cap.size then outcome arg else .full] := by
  have hpos := cap.size_pos
  have hrescan : looksFull none cap.toCapacity s.tail (scanMin s.cursors) = true ↔
      ¬ s.tail - minCursor s < cap.size := by
    rw [looks_full_none, scan_min_eq, Nat.not_lt]
  unfold tryPublish
  by_cases hfull : looksFull none cap.toCapacity s.tail s.cachedMin = true
  · rw [if_pos hfull]
    by_cases hroom : s.tail - minCursor s < cap.size
    · have hagain : ¬ looksFull none cap.toCapacity s.tail (scanMin s.cursors) = true :=
        fun h => hrescan.mp h hroom
      simp only [if_neg hagain, if_pos hroom, put_shows]
    · simp only [if_pos (hrescan.mpr hroom), if_neg hroom]
  · have hroom : s.tail - minCursor s < cap.size := by
      rw [looks_full_none] at hfull
      obtain ⟨i, hi⟩ := min_cursor_attained s
      have hle := hcached i
      omega
    rw [if_neg hfull, if_pos hroom, put_shows]

section Runs

variable [Inhabited T]

theorem run_gated (hr : (machine n T none cap.toCapacity).RunWhere Onward tr s) :
    Gated cap.toCapacity s := by
  refine Machine.Steps.invariant (I := fun _ s => Gated cap.toCapacity s) ?_ ?_ hr
  · exact ⟨fun _ => Nat.le_refl _, fun _ => Nat.zero_le _, trivial⟩
  · intro tr s a s' es _ h hok hs
    exact move_gated h hok (step_moves hs)

/-- With callbacks that leave the cursor alone the cursors only move on. -/
theorem steady_onward (hr : (machine n T none cap.toCapacity).RunWhere Steady tr s) :
    (machine n T none cap.toCapacity).RunWhere Onward tr s := by
  refine Machine.RunWhere.imp ?_ hr
  intro tr s a s' es hrun _ _
  cases a with
  | consumer i =>
    intro call pos v rest hc
    have hok := (run_inv hrun).consumer i
    rw [hc] at hok
    have hpos : pos = s.cursors i := hok.1.1
    omega
  | _ => trivial

/-- A step that begins no further call of `try_publish`. -/
def DuringCall (s : State n T) (a : Act n T) : Prop := Onward s a ∧ ∀ arg, a ≠ .publish arg

/-- On the way from `s` to `t` some cursor was at `c` while `tail_` was at `x`. -/
def Seen (cap : Capacity) (s : State n T) (tr : List (Event n T)) (t : State n T)
    (c x : Nat) : Prop :=
  ∃ u tr₁ tr₂, (machine n T none cap).Steps DuringCall s tr₁ u ∧
    (machine n T none cap).Steps DuringCall u tr₂ t ∧ tr = tr₁ ++ tr₂ ∧
    ∃ j, u.cursors j = c ∧ u.tail = x

theorem Seen.later {c x : Nat} (h : Seen cap.toCapacity s tr t c x) (hok : DuringCall t a)
    (hs : (machine n T none cap.toCapacity).step t a = some (u, es)) :
    Seen cap.toCapacity s (tr ++ es) u c x := by
  obtain ⟨v, tr₁, tr₂, hbefore, hafter, rfl, hseen⟩ := h
  exact ⟨v, tr₁, tr₂ ++ es, hbefore, .step hafter hok hs, List.append_assoc _ _ _, hseen⟩

theorem Seen.of_eq {c c' x x' : Nat} (h : Seen cap.toCapacity s tr t c x) (hc : c = c')
    (hx : x = x') : Seen cap.toCapacity s tr t c' x' := by
  rw [← hc, ← hx]
  exact h

theorem seen_now (h : (machine n T none cap.toCapacity).Steps DuringCall s tr t)
    (hok : DuringCall t a)
    (hs : (machine n T none cap.toCapacity).step t a = some (u, es)) (j : Fin (n + 1)) :
    Seen cap.toCapacity s (tr ++ es) u (t.cursors j) t.tail :=
  ⟨t, tr, es, h, by simpa using Machine.Steps.step .refl hok hs, rfl, j, rfl, rfl⟩

/-- What a scan carries along was some cursor at some moment of the call. -/
theorem scan_seen {before : List (Event n T)} {arg : Option T}
    (hr : (machine n T none cap.toCapacity).RunWhere Onward before s)
    (hp : s.producer = .loadTail arg)
    (hsteps : (machine n T none cap.toCapacity).Steps DuringCall s tr t) :
    ∀ arg x i least, t.producer = .scan arg x i least → i ≠ 0 →
      Seen cap.toCapacity s tr t least x := by
  refine Machine.Steps.invariant (I := fun tr t => ∀ arg x i least,
    t.producer = .scan arg x i least → i ≠ 0 → Seen cap.toCapacity s tr t least x) ?_ ?_ hsteps
  · intro arg x i least hscan
    rw [hp] at hscan
    cases hscan
  · intro tr t a u es htr h hok hs
    have hreach : (machine n T none cap.toCapacity).RunWhere Onward (before ++ tr) t :=
      hr.trans (htr.weaken (fun _ _ => And.left))
    have hprod := (run_gated hreach).producer
    have hkeep : u.producer = t.producer → ∀ arg x i least,
        u.producer = .scan arg x i least → i ≠ 0 →
          Seen cap.toCapacity s (tr ++ es) u least x := by
      intro hsame arg x i least hscan hi
      rw [hsame] at hscan
      exact (h arg x i least hscan hi).later hok hs
    have hquiet : (∀ arg x i least, u.producer ≠ .scan arg x i least) → ∀ arg x i least,
        u.producer = .scan arg x i least → i ≠ 0 →
          Seen cap.toCapacity s (tr ++ es) u least x :=
      fun hne arg x i least hscan => absurd hscan (hne arg x i least)
    cases step_moves hs with
    | producer hm =>
      cases hm with
      | rescan hpt _ =>
        intro arg x i least hscan hi
        cases hscan
        exact absurd rfl hi
      | @next arg x i least hpt hmore =>
        intro arg' x' i' least' hscan hi
        cases hscan
        rw [hpt] at hprod
        rcases scan_least_cases i least (t.cursors i) with hload | ⟨hne, hold⟩
        · exact (seen_now htr hok hs i).of_eq hload.symm hprod.1.symm
        · exact ((h arg x i least hpt hne).later hok hs).of_eq hold.symm rfl
      | _ => exact hquiet (by simp)
    | full | scanned | assign | publish => exact hquiet (by simp)
    | consumer | nested | deliver | consumed => exact hkeep rfl

/-- `false` is only answered after some consumer was a whole lap behind. -/
theorem full_genuine {before : List (Event n T)} {arg : Option T}
    (hr : (machine n T none cap.toCapacity).RunWhere Onward before s)
    (hp : s.producer = .loadTail arg)
    (hsteps : (machine n T none cap.toCapacity).Steps DuringCall s tr t)
    (hs : (machine n T none cap.toCapacity).step t .producer = some (u, [.full])) :
    ∃ v tr₁ tr₂ i, (machine n T none cap.toCapacity).Steps DuringCall s tr₁ v ∧
      (machine n T none cap.toCapacity).Steps DuringCall v tr₂ t ∧ tr = tr₁ ++ tr₂ ∧
      v.tail = v.cursors i + cap.size := by
  have hexact : ∀ v tr₁ i, (machine n T none cap.toCapacity).Steps DuringCall s tr₁ v →
      cap.size ≤ v.tail - v.cursors i → v.tail = v.cursors i + cap.size := by
    intro v tr₁ i hv hge
    have hreach : (machine n T none cap.toCapacity).RunWhere Onward (before ++ tr₁) v :=
      hr.trans (hv.weaken (fun _ _ => And.left))
    have hroom := (run_gated hreach).room i
    have hlimit : v.tail ≤ limit v := by
      have hprod := (run_gated hreach).producer
      unfold limit
      split
      · rename_i w x hpv
        rw [hpv] at hprod
        have hx : x = v.tail := hprod.1
        omega
      · exact Nat.le_refl _
    have hpos := cap.size_pos
    omega
  have hreach : (machine n T none cap.toCapacity).RunWhere Onward (before ++ tr) t :=
    hr.trans (hsteps.weaken (fun _ _ => And.left))
  have hprod := (run_gated hreach).producer
  have hmove : Move cap.toCapacity t .producer u [.full] := step_moves hs
  cases hmove with
  | producer hm => cases hm
  | @full arg' x i least hpt hlast hfull =>
    rw [hpt] at hprod
    rcases scan_least_cases i least (t.cursors i) with hload | ⟨hne, hold⟩
    · rw [hload, hprod.1] at hfull
      exact ⟨t, tr, [], i, hsteps, .refl, by simp, hexact t tr i hsteps hfull⟩
    · obtain ⟨v, tr₁, tr₂, hbefore, hafter, htr, j, hj, hx⟩ :=
        scan_seen hr hp hsteps arg' x i least hpt hne
      rw [hold, ← hj, ← hx] at hfull
      exact ⟨v, tr₁, tr₂, j, hbefore, hafter, htr, hexact v tr₁ j hbefore hfull⟩
  | consumer hm => cases hm

/-- While the cursors only move on, gating on the cached minimum decides as a
scan of every cursor would. -/
theorem gating_exact (hr : (machine n T none cap.toCapacity).RunWhere Onward tr s) :
    (∀ i, s.cachedMin ≤ s.cursors i) ∧
    (∀ arg, s.producer = .idle →
      ∃ s₁ s₂, (machine n T none cap.toCapacity).step s (.publish arg) = some (s₁, []) ∧
        (machine n T none cap.toCapacity).Alone .producer s₁
          [if s.tail - minCursor s < cap.size then outcome arg else .full] s₂ ∧
        s₂.producer = .idle) ∧
    (∀ v x, s.producer = .assign v x → x = s.tail ∧ s.tail - minCursor s < cap.size) ∧
    (∀ arg s₁ later t t', (machine n T none cap.toCapacity).step s (.publish arg) = some (s₁, []) →
      (machine n T none cap.toCapacity).Steps DuringCall s₁ later t →
      (machine n T none cap.toCapacity).step t .producer = some (t', [.full]) →
      ∃ u tr₁ tr₂ i, (machine n T none cap.toCapacity).Steps DuringCall s₁ tr₁ u ∧
        (machine n T none cap.toCapacity).Steps DuringCall u tr₂ t ∧ later = tr₁ ++ tr₂ ∧
        u.tail = u.cursors i + cap.size) := by
  have h := run_gated hr
  refine ⟨h.cached, ?_, ?_, ?_⟩
  · intro arg hp
    have hs : (machine n T none cap.toCapacity).step s (.publish arg) =
        some (s.atProducer (.loadTail arg), []) := by
      simp only [machine, step, hp]
    have halone := publish_alone none cap.toCapacity hp arg
    rw [publish_shows h.cached] at halone
    exact ⟨_, _, hs, halone, (publish_rest none cap.toCapacity s arg).1.trans hp⟩
  · intro v x hp
    have hprod := h.producer
    rw [hp] at hprod
    obtain ⟨rfl, hroom⟩ := hprod
    exact ⟨rfl, min_cursor_room.mpr hroom⟩
  · intro arg s₁ later t t' hs hsteps hfull
    have hr₁ : (machine n T none cap.toCapacity).RunWhere Onward (tr ++ []) s₁ :=
      .step (a := .publish arg) hr trivial hs
    have hp : s₁.producer = .loadTail arg := by
      simp only [machine, step] at hs
      split at hs
      · cases hs
        rfl
      · cases hs
    exact full_genuine hr₁ hp hsteps hfull

end Runs

/-- Two items fill the ring of one consumer. -/
def fillRing : List (Act 0 Nat) :=
  [.publish (some 7), .producer, .producer, .producer, .producer,
   .publish (some 8), .producer, .producer, .producer, .producer]

theorem gating_exact_ring_full : ∃ s s₁ s₂,
    (machine 0 Nat none twoSlots.toCapacity).RunWhere Onward [.published 7, .published 8] s ∧
    (machine 0 Nat none twoSlots.toCapacity).step s (.publish (some 9)) = some (s₁, []) ∧
    (machine 0 Nat none twoSlots.toCapacity).Alone .producer s₁ [.full] s₂ := by
  have hflat : (machine 0 Nat none twoSlots.toCapacity).RunWhere Flat _ _ :=
    Machine.run_where_of_exec fillRing rfl
  have hr := steady_onward (flat_steady hflat).1
  obtain ⟨s₁, s₂, hs, halone, _⟩ := (gating_exact hr).2.1 (some 9) rfl
  exact ⟨_, s₁, s₂, hr, hs, halone⟩

/-- A callback that consumes two items on its own handle, with a publish before
it ends: its cursor store moves the cursor back. -/
def consumeTwiceInside (i : Fin 1) : List (Act 0 Nat) :=
  fillRing ++
  [.consume i .tryConsume, .consumer i, .consumer i, .consumer i,
   .consume i .tryConsume, .consumer i, .consumer i, .consumer i, .consumer i, .consumer i,
   .consume i .tryConsume, .consumer i, .consumer i, .consumer i, .consumer i, .consumer i,
   .publish (some 9), .producer, .producer, .producer, .producer, .producer,
   .consumer i, .consumer i]

/-- The cached minimum is ahead of the cursor, and a consumer a whole lap behind
does not keep `try_publish` from overwriting. -/
theorem cursor_behind_cached : ∃ tr s,
    (machine 0 Nat none twoSlots.toCapacity).Run tr s ∧ s.cursors 0 < s.cachedMin ∧
    s.tail = s.cursors 0 + twoSlots.size ∧
    ∃ s', (machine 0 Nat none twoSlots.toCapacity).exec s
      [.publish (some 10), .producer, .producer, .producer, .producer] =
        some (s', [.published 10]) := by
  have hr : (machine 0 Nat none twoSlots.toCapacity).Run _ _ :=
    Machine.run_of_exec (consumeTwiceInside 0) rfl
  exact ⟨_, _, hr, Nat.lt_succ_self 1, rfl, _, rfl⟩

end Toolbox.Proofs.BroadcastGating
