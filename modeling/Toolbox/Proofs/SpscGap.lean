import Toolbox.Proofs.SpscFifo

namespace Toolbox.Proofs.SpscGap
open Base Spsc SpscFifo

variable {T : Type*} {cap : Capacity} {s : State T} {q : List T} {v : T} {n : Nat}
  {tr : List (Event T)}

/-- The ring is full and empty at once exactly when its one slot is the free one. -/
theorem full_and_empty_iff (h : Holds cap s q) :
    ((s.tail + 1) &&& cap.mask = s.head ∧ s.head = s.tail) ↔ cap.size = 1 := by
  rw [full_iff h, empty_iff h, ← List.length_eq_zero_iff]
  have hroom := h.room
  omega

theorem check_capacity_ok (h : checkCapacity n = .ok cap) : cap.size = n ∧ 1 ≤ n := by
  unfold checkCapacity at h
  split at h
  · rename_i hn
    cases h
    exact ⟨rfl, hn ▸ Nat.two_pow_pos _⟩
  · cases h

variable [Inhabited T]

/-- A complete `try_emplace(v)` from here returns true. -/
def EmplaceSucceeds (cap : Capacity) (s : State T) (v : T) : Prop :=
  ∃ t, (machine T cap).exec s
    [.tryEmplace (some v), .producer, .producer, .producer, .producer] = some (t, [.accepted v])

/-- A complete `try_pop` from here returns `nullopt`. -/
def PopReturnsNullopt (cap : Capacity) (s : State T) : Prop :=
  ∃ t, (machine T cap).exec s [.tryPop, .consumer, .consumer] = some (t, [.empty])

/-- A complete `try_pop` from here returns an item, whatever the move leaves behind. -/
def PopSucceeds (cap : Capacity) (s : State T) : Prop :=
  ∃ v, ∀ left, ∃ t, (machine T cap).exec s
    [.tryPop, .consumer, .consumer, .move left, .consumer] = some (t, [.popped v])

theorem emplace_succeeds_iff (hp : s.producer = .idle) :
    EmplaceSucceeds cap s v ↔ ¬ (s.tail + 1) &&& cap.mask = s.head := by
  simp only [EmplaceSucceeds, Machine.exec_cons, Machine.exec_nil, machine, step, stepProducer, hp,
    Option.bind_some]
  split <;> simp_all

theorem pop_returns_nullopt_iff (hc : s.consumer = .idle) :
    PopReturnsNullopt cap s ↔ s.head = s.tail := by
  simp only [PopReturnsNullopt, Machine.exec_cons, Machine.exec_nil, machine, step, stepConsumer, hc,
    Option.bind_some]
  split <;> simp_all

theorem pop_succeeds_iff (hc : s.consumer = .idle) :
    PopSucceeds cap s ↔ ¬ s.head = s.tail := by
  simp only [PopSucceeds, Machine.exec_cons, Machine.exec_nil, machine, step, stepConsumer, hc,
    Option.bind_some]
  split <;> simp_all

/-- Between calls one of the two operations succeeds, and `try_emplace` does if
`try_pop` would not, exactly when the accepted capacity is not 1. -/
theorem never_full_and_empty (hn : checkCapacity n = .ok cap) (hr : (machine T cap).Run tr s)
    (hp : s.producer = .idle) (hc : s.consumer = .idle) (v : T) :
    ((EmplaceSucceeds cap s v ∨ PopSucceeds cap s) ↔ 2 ≤ n) ∧
    ((PopReturnsNullopt cap s → EmplaceSucceeds cap s v) ↔ 2 ≤ n) := by
  obtain ⟨q, _, hq⟩ := refines_fifo hr
  obtain ⟨hsize, hpos⟩ := check_capacity_ok hn
  have hboth := full_and_empty_iff hq
  have htwo : 2 ≤ n ↔ ¬ cap.size = 1 := by omega
  rw [emplace_succeeds_iff hp, pop_succeeds_iff hc, pop_returns_nullopt_iff hc, htwo, ← hboth]
  constructor
  · exact not_and_or.symm
  · rw [not_and']

theorem two_slots_never_full_and_empty :
    ∃ tr s, (machine Nat twoSlots.toCapacity).Run tr s ∧ tr ≠ [] ∧
      (PopReturnsNullopt twoSlots.toCapacity s → EmplaceSucceeds twoSlots.toCapacity s 9) := by
  have hr : (machine Nat twoSlots.toCapacity).Run _ _ := Machine.run_of_exec fillAndDrain rfl
  have hn : checkCapacity 2 = .ok twoSlots.toCapacity := rfl
  have h := never_full_and_empty hn hr rfl rfl 9
  exact ⟨_, _, hr, by simp, h.2.mpr (Nat.le_refl 2)⟩

/-- One slot is an accepted capacity: the new queue is empty, and full. -/
theorem one_slot_full_and_empty :
    ∃ cap, checkCapacity 1 = .ok cap ∧ PopReturnsNullopt cap (machine Nat cap).init ∧
      ¬ EmplaceSucceeds cap (machine Nat cap).init 7 := by
  refine ⟨⟨1, 0, rfl⟩, rfl, ?_, ?_⟩
  · exact (pop_returns_nullopt_iff rfl).mpr rfl
  · exact fun h => (emplace_succeeds_iff rfl).mp h rfl

end Toolbox.Proofs.SpscGap
