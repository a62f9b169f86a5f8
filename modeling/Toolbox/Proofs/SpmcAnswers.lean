import Toolbox.Proofs.SpmcClaims

namespace Toolbox.Proofs.SpmcAnswers
open Base Spmc SpmcMoves SpmcSlots SpmcClaims

variable {n : Nat} {T : Type*} {cap : RingCapacity} {s s' : State n T} {a : Act n T}
  {es tr : List (Event n T)} {log : List T}

/-- A slot that shows less than `h + 1` to a consumer at `h` means that nothing
is left to claim, however old the consumer's `h` is. -/
theorem nothing_left (hi : Inv cap.toCapacity log s) {h : Nat} (hle : h ≤ s.head)
    (hseq : s.seq cap.toCapacity h < h + 1) : h = s.head ∧ s.head = log.length := by
  have hhead := hi.head_le
  have hfilled := (hi.seq_range hle).2.2
  omega

theorem move_empty (hi : Inv cap.toCapacity log s) (hm : Move cap.toCapacity s a s' es)
    {i : Fin n} (he : .empty i ∈ es) :
    (∃ h, s.consumers i = .loadSeq .tryPop h) ∧ s.head = log.length := by
  cases hm with
  | producer hm => cases hm <;> simp at he
  | construct | produce | storeTail | notifyAll | claim | moveOut | undefined | release
  | notifyNobody | notify | wake => simp at he
  | @consumer a j pc es hm =>
    cases hm with
    | empty hc hseq =>
      obtain rfl : i = j := by simpa using he
      have hok := hi.consumer i
      rw [hc] at hok
      exact ⟨⟨_, hc⟩, (nothing_left hi hok hseq).2⟩
    | _ => simp at he

/-- The producer finds the slot of its next position taken by the item of one
lap earlier: unclaimed, or claimed and not yet released. -/
theorem still_taken (hi : Inv cap.toCapacity log s) {arg : Option T} {t : Nat}
    (hp : s.producer = .loadSeq .tryEmplace arg t) (hseq : s.seq cap.toCapacity t ≠ t) :
    t = log.length ∧ cap.size ≤ t ∧ s.seq cap.toCapacity t = t - cap.size + 1 ∧
      (s.head ≤ t - cap.size ∨ ∃ i, held (s.consumers i) = some (t - cap.size)) := by
  have htwo := cap.two_le
  have hprod := hi.producer
  rw [hp] at hprod
  obtain ⟨rfl, _⟩ := hprod
  cases hi.slot log.length (Nat.le_refl _) (by omega) with
  | free hfree _ _ => exact absurd hfree hseq
  | full p hq hfull hunclaimed _ =>
    obtain rfl : p = log.length - cap.size := by omega
    exact ⟨rfl, by omega, hfull, .inl hunclaimed⟩
  | taken p i hq hfull _ hheld =>
    obtain rfl : p = log.length - cap.size := by omega
    exact ⟨rfl, by omega, hfull, .inr ⟨i, hheld⟩⟩

theorem move_rejected (hm : Move cap.toCapacity s a s' es) (he : .rejected ∈ es) :
    ∃ arg t, s.producer = .loadSeq .tryEmplace arg t ∧ s.seq cap.toCapacity t ≠ t := by
  cases hm with
  | consumer hm => cases hm <;> simp at he
  | construct | produce | storeTail | notifyAll | claim | moveOut | undefined | release
  | notifyNobody | notify | wake => simp at he
  | producer hm =>
    cases hm with
    | full hp hseq => exact ⟨_, _, hp, hseq⟩
    | _ => simp at he

/-- With nobody between a claim and its release, a full slot is one of `C` items. -/
theorem taken_iff_full (hi : Inv cap.toCapacity log s) {arg : Option T} {t : Nat}
    (hp : s.producer = .loadSeq .tryEmplace arg t) (hquiet : ∀ i, held (s.consumers i) = none) :
    s.seq cap.toCapacity t ≠ t ↔ log.length - s.head = cap.size := by
  have hlen := hi.len_le
  constructor
  · intro hseq
    obtain ⟨rfl, hle, _, hunclaimed | ⟨i, hheld⟩⟩ := still_taken hi hp hseq
    · omega
    · rw [hquiet i] at hheld
      cases hheld
  · intro hfull hseq
    have hprod := hi.producer
    rw [hp] at hprod
    obtain ⟨rfl, _⟩ := hprod
    have htwo := cap.two_le
    cases hi.slot log.length (Nat.le_refl _) (by omega) with
    | free _ hroom _ => omega
    | full p hq hseq' => omega
    | taken p i hq hseq' => omega

/-- `nullopt` and `false` are true answers at the sequence load they rest on. -/
theorem answers_true (hr : (machine n T none cap.toCapacity).Run tr s)
    (hs : (machine n T none cap.toCapacity).step s a = some (s', es)) :
    (∀ i, .empty i ∈ es → (∃ h, s.consumers i = .loadSeq .tryPop h) ∧
      s.head = (produced tr).length ∧ ∀ p < (produced tr).length, ∃ j, (j, p) ∈ claims tr) ∧
    (.rejected ∈ es → ∃ arg t, s.producer = .loadSeq .tryEmplace arg t ∧
      cap.size ≤ t ∧ t - cap.size < (produced tr).length ∧
      s.seq cap.toCapacity t = t - cap.size + 1 ∧
      (s.head ≤ t - cap.size ∨ ∃ i, held (s.consumers i) = some (t - cap.size))) ∧
    (∀ arg t, s.producer = .loadSeq .tryEmplace arg t → a = .producer →
      (∀ i, held (s.consumers i) = none) →
      (.rejected ∈ es ↔ (produced tr).length - s.head = cap.size)) := by
  have hi := run_inv hr
  have hm := step_moves hs
  refine ⟨?_, ?_, ?_⟩
  · intro i he
    obtain ⟨hat, hhead⟩ := move_empty hi hm he
    refine ⟨hat, hhead, ?_⟩
    intro p hp
    have hclaimed : p ∈ (claims tr).map Prod.snd := by
      rw [(run_history hr).order, hhead]
      exact List.mem_range.mpr hp
    obtain ⟨⟨j, q⟩, hmem, rfl⟩ := List.mem_map.mp hclaimed
    exact ⟨j, hmem⟩
  · intro he
    obtain ⟨arg, t, hp, hseq⟩ := move_rejected hm he
    obtain ⟨ht, hle, hfull, hheld⟩ := still_taken hi hp hseq
    have hsize := cap.two_le
    exact ⟨arg, t, hp, hle, by omega, hfull, hheld⟩
  · rintro arg t hp rfl hquiet
    rw [← taken_iff_full hi hp hquiet]
    constructor
    · intro he
      obtain ⟨arg', t', hp', hseq⟩ := move_rejected hm he
      rw [hp] at hp'
      cases hp'
      exact hseq
    · intro hseq
      simp only [machine, step, stepProducer, hp, if_neg hseq, Option.some.injEq,
        Prod.mk.injEq] at hs
      rw [← hs.2]
      exact List.mem_singleton_self _

/-- Nothing to pop, then two items in and a third refused. -/
def emptyThenFull (i : Fin 1) : List (Act 1 Nat) :=
  [.pop i .tryPop, .consumer i, .consumer i,
   .emplace .tryEmplace (some 7), .producer, .producer, .producer, .producer, .producer,
   .producer, .emplace .emplaceWait (some 8), .producer, .producer, .producer, .producer,
   .producer, .producer, .emplace .tryEmplace (some 9), .producer]

theorem answers_true_two_slots : ∃ tr s s', (machine 1 Nat none twoSlots.toCapacity).Run tr s ∧
    (machine 1 Nat none twoSlots.toCapacity).step s .producer = some (s', [.rejected]) ∧
    (produced tr).length - s.head = 2 := by
  have hr : (machine 1 Nat none twoSlots.toCapacity).Run _ _ :=
    Machine.run_of_exec (emptyThenFull 0) rfl
  have htrue := (answers_true hr (a := .producer) rfl).2.2 (some 9) 2 rfl rfl ?quiet
  · exact ⟨_, _, _, hr, rfl, htrue.mp (List.mem_singleton_self _)⟩
  · rintro ⟨i, hi⟩
    obtain rfl : i = 0 := Nat.lt_one_iff.mp hi
    rfl

end Toolbox.Proofs.SpmcAnswers
