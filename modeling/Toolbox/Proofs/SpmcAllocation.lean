import Toolbox.SpmcStorage

namespace Toolbox.Proofs.SpmcAllocation
open Base Spmc

variable {w n cacheLine : Nat} {cap : RingCapacity} {l : SlotLayout cacheLine}
  {operatorNew : Nat → Option Nat} {q : Constructed}

/-- A block that is given has at least the bytes asked for. -/
def Honest (operatorNew : Nat → Option Nat) : Prop :=
  ∀ bytes block, operatorNew bytes = some block → bytes ≤ block

def Inside (block : Nat) (accesses : List Access) : Prop := ∀ a ∈ accesses, a.stop ≤ block

/-- Whatever block it is given, a constructor that returns has stayed inside it. -/
def StaysInside (w : Nat) (l : SlotLayout cacheLine) (n : Nat) : Prop :=
  ∀ operatorNew, Honest operatorNew → ∀ q, construct w l operatorNew n = .ok q →
    Inside q.block q.accesses

/-- The constructor's outcome once the capacity has been accepted. -/
theorem construct_ok_iff (h : checkAndRoundCapacity w n = .ok cap) :
    construct w l operatorNew n = .ok q ↔
      ∃ block, operatorNew (slotBytes (some w) cap.size l.size) = some block ∧
        q = ⟨cap, block, l.placements cap.size ++ l.sequenceStores cap.size⟩ := by
  rw [construct, h]
  simp only [allocateSlots]
  cases operatorNew (slotBytes (some w) cap.size l.size) with
  | none => simp
  | some block => simp [eq_comm]

theorem slot_stop_le {i : Nat} (l : SlotLayout cacheLine) (hi : i < n) :
    i * l.size + l.size ≤ n * l.size := by
  rw [← Nat.succ_mul]
  exact Nat.mul_le_mul_right _ hi

/-- The two loops reach exactly as far as the slots do. -/
theorem inside_iff {block : Nat} (hn : 0 < n) :
    Inside block (l.placements n ++ l.sequenceStores n) ↔ n * l.size ≤ block := by
  constructor
  · intro h
    have hlast : ⟨(n - 1) * l.size, (n - 1) * l.size + l.size⟩ ∈ l.placements n :=
      List.mem_map.mpr ⟨n - 1, List.mem_range.mpr (by omega), rfl⟩
    have hstop := h _ (List.mem_append_left _ hlast)
    rwa [← Nat.succ_mul, Nat.succ_eq_add_one, Nat.sub_add_cancel hn] at hstop
  · intro hle a ha
    rcases List.mem_append.mp ha with hp | hs
    · obtain ⟨i, hi, rfl⟩ := List.mem_map.mp hp
      exact Nat.le_trans (slot_stop_le l (List.mem_range.mp hi)) hle
    · obtain ⟨i, hi, rfl⟩ := List.mem_map.mp hs
      have hseq := l.sequence_le
      have hstop := slot_stop_le l (List.mem_range.mp hi)
      simp only
      omega

theorem bytes_exact_iff {size : Nat} : slotBytes (some w) n size = n * size ↔ n * size < 2 ^ w := by
  simp only [slotBytes, Width.wrap]
  exact ⟨fun h => h ▸ Nat.mod_lt _ (Nat.two_pow_pos w), Nat.mod_eq_of_lt⟩

theorem stays_inside_iff (h : checkAndRoundCapacity w n = .ok cap) :
    StaysInside w l n ↔ cap.size * l.size < 2 ^ w := by
  constructor
  · intro hinside
    -- an allocator that gives exactly what is asked for
    have hexact : Honest some := by
      rintro bytes block ⟨⟩
      exact Nat.le_refl _
    have hq := hinside some hexact _ ((construct_ok_iff h).mpr ⟨_, rfl, rfl⟩)
    have hle := (inside_iff cap.size_pos).mp hq
    exact Nat.lt_of_le_of_lt hle (Nat.mod_lt _ (Nat.two_pow_pos w))
  · intro hlt operatorNew hhonest q hq
    obtain ⟨block, hnew, rfl⟩ := (construct_ok_iff h).mp hq
    have hbytes := hhonest _ _ hnew
    rw [bytes_exact_iff.mpr hlt] at hbytes
    exact (inside_iff cap.size_pos).mpr hbytes

/-- For an accepted capacity the byte count is the product, and construction stays
inside its block, exactly when the product is a `size_t`. -/
theorem allocation_exact (l : SlotLayout cacheLine) (h : checkAndRoundCapacity w n = .ok cap) :
    (slotBytes (some w) cap.size l.size = cap.size * l.size ↔ cap.size * l.size < 2 ^ w) ∧
    (StaysInside w l n ↔ cap.size * l.size < 2 ^ w) :=
  ⟨bytes_exact_iff, stays_inside_iff h⟩

/-- One cache line, with a 64-bit sequence in front. -/
def oneLine : SlotLayout 64 := ⟨64, 8, by decide, by decide, by decide⟩

theorem allocation_exact_sixteen : ∃ cap, checkAndRoundCapacity 64 9 = .ok cap ∧
    cap.size = 16 ∧ StaysInside 64 oneLine 9 := by
  have h : checkAndRoundCapacity 64 9 = .ok (bitCeil 9 (by decide)) := rfl
  have hsize : (bitCeil 9 (by decide)).size = 16 := by decide
  refine ⟨_, h, hsize, (allocation_exact oneLine h).2.mpr ?_⟩
  rw [hsize]
  decide

/-- `2 ^ 58` slots of one line: no bytes are asked for, and the loops run. -/
theorem no_bytes_asked : ∃ cap, checkAndRoundCapacity 64 (2 ^ 58) = .ok cap ∧
    slotBytes (some 64) cap.size oneLine.size = 0 ∧ ¬ StaysInside 64 oneLine (2 ^ 58) := by
  have h : checkAndRoundCapacity 64 (2 ^ 58) = .ok (bitCeil (2 ^ 58) (by decide)) := by
    rw [checkAndRoundCapacity, roundCapacity, dif_neg (by decide), if_neg (by decide)]
  have hsize : (bitCeil (2 ^ 58) (by decide)).size = 2 ^ 58 := by
    change 2 ^ Nat.clog 2 (2 ^ 58) = 2 ^ 58
    rw [Nat.clog_pow _ _ Nat.one_lt_two]
  refine ⟨_, h, ?_, ?_⟩
  · rw [hsize]
    decide
  · rw [stays_inside_iff h, hsize]
    decide

end Toolbox.Proofs.SpmcAllocation
