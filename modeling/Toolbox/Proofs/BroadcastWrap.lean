import Toolbox.Proofs.BroadcastSerial

namespace Toolbox.Proofs.BroadcastWrap
open Base Broadcast BroadcastMoves BroadcastCursors BroadcastSerial

variable {n : Nat} {T : Type*} {cap : Capacity} {s x : State n T}

section Width

variable {w : Nat}

/-- `s` is `x` with its counters kept modulo `2 ^ w`, as long as consumers only
call in time: of the counters only `tail_` can have wrapped. -/
structure Wraps (w : Nat) (cap : Capacity) (s x : State n T) : Prop where
  slots : s.slots = x.slots
  tail : s.tail = Width.wrap (some w) x.tail
  cachedMin : s.cachedMin = x.cachedMin
  cursors : s.cursors = x.cursors
  cached : ∀ i, x.cachedMin ≤ x.cursors i
  unwrapped : ∀ i, x.cursors i < 2 ^ w
  read : ∀ i, x.cursors i ≤ x.tail
  room : x.tail ≤ x.cachedMin + cap.size

theorem Wraps.min_lt (h : Wraps w cap s x) : x.cachedMin < 2 ^ w :=
  Nat.lt_of_le_of_lt (h.cached 0) (h.unwrapped 0)

theorem wrap_of_lt {p : Nat} (h : p < 2 ^ w) : Width.wrap (some w) p = p := Nat.mod_eq_of_lt h

/-- The wrap-safe subtraction finds the ring full exactly when it is. -/
theorem looks_full_wrap {t c : Nat} (hcap : 2 * cap.size ≤ 2 ^ w) (hc : c < 2 ^ w) (hle : c ≤ t)
    (hroom : t ≤ c + cap.size) :
    looksFull (some w) cap (Width.wrap (some w) t) c = looksFull none cap t c := by
  have hpos := cap.size_pos
  have hsub := Width.sub_wrap_of_le (w := w) hle (by omega)
  rw [wrap_of_lt hc] at hsub
  unfold looksFull
  rw [hsub, Width.sub_none]

theorem Wraps.rescanned (h : Wraps w cap s x) :
    Wraps w cap { s with cachedMin := scanMin s.cursors }
      { x with cachedMin := scanMin x.cursors } := by
  obtain ⟨i, hi⟩ := scan_min_attained x.cursors
  refine { h with
    cachedMin := by rw [h.cursors]
    cached := scan_min_le x.cursors
    room := ?_ }
  have hcached := h.cached i
  have hroom := h.room
  simp only [hi]
  omega

theorem Wraps.put (h : Wraps w cap s x) (hbits : cap.bits ≤ w)
    (hroom : looksFull none cap x.tail x.cachedMin ≠ true) (arg : Option T) :
    Wraps w cap (put (some w) cap s arg).1 (put none cap x arg).1 ∧
      (put (some w) cap s arg).2 = (put none cap x arg).2 := by
  rw [ne_eq, looks_full_none] at hroom
  cases arg with
  | none => exact ⟨h, rfl⟩
  | some v =>
    have hlt := Nat.lt_of_not_le hroom
    have hcached := h.cached 0
    have hread := h.read 0
    refine ⟨{ h with slots := ?_, tail := ?_, read := ?_, room := ?_ }, rfl⟩
    · change cap.set s.slots s.tail v = cap.set x.slots x.tail v
      rw [Capacity.set, h.slots, h.tail, Width.index_wrap hbits]
      rfl
    · change Width.wrap (some w) (s.tail + 1) = Width.wrap (some w) (x.tail + 1)
      rw [h.tail, Width.wrap_add_left]
    · exact fun i => Nat.le_succ_of_le (h.read i)
    · change x.tail + 1 ≤ x.cachedMin + cap.size
      omega

theorem Wraps.looks_full (h : Wraps w cap s x) (hcap : 2 * cap.size ≤ 2 ^ w) :
    looksFull (some w) cap s.tail s.cachedMin = looksFull none cap x.tail x.cachedMin := by
  rw [h.tail, h.cachedMin]
  exact looks_full_wrap hcap h.min_lt (Nat.le_trans (h.cached 0) (h.read 0)) h.room

theorem Wraps.publish (h : Wraps w cap s x) (hcap : 2 * cap.size ≤ 2 ^ w) (hbits : cap.bits ≤ w)
    (arg : Option T) :
    Wraps w cap (tryPublish (some w) cap s arg).1 (tryPublish none cap x arg).1 ∧
      (tryPublish (some w) cap s arg).2 = (tryPublish none cap x arg).2 := by
  have hnext := h.rescanned
  have hfirst := h.looks_full hcap
  have hsecond := hnext.looks_full hcap
  unfold tryPublish
  by_cases hfull : looksFull none cap x.tail x.cachedMin = true
  · rw [if_pos (hfirst.trans hfull), if_pos hfull]
    by_cases hagain : looksFull none cap x.tail (scanMin x.cursors) = true
    · simp only [if_pos (hsecond.trans hagain), if_pos hagain]
      exact ⟨hnext, trivial⟩
    · simp only [hsecond, if_neg hagain]
      exact hnext.put hbits hagain arg
  · rw [hfirst, if_neg hfull, if_neg hfull]
    exact h.put hbits hfull arg

theorem Wraps.item (h : Wraps w cap s x) (p : Nat) : s.item cap p = x.item cap p := by
  rw [State.item, State.item, h.slots]

theorem Wraps.set_cursor (h : Wraps w cap s x) {i : Fin (n + 1)} (hunread : x.cursors i < x.tail)
    (hlt : x.tail < 2 ^ w) :
    Wraps w cap (s.setCursor i (Width.wrap (some w) (x.cursors i + 1)))
      (x.setCursor i (x.cursors i + 1)) := by
  have hpos : Width.wrap (some w) (x.cursors i + 1) = x.cursors i + 1 := wrap_of_lt (by omega)
  have hall : ∀ j, x.cachedMin ≤ (x.setCursor i (x.cursors i + 1)).cursors j ∧
      (x.setCursor i (x.cursors i + 1)).cursors j < 2 ^ w ∧
      (x.setCursor i (x.cursors i + 1)).cursors j ≤ x.tail := by
    intro j
    rw [cursors_set_cursor]
    split
    · exact ⟨Nat.le_succ_of_le (h.cached i), by omega, hunread⟩
    · exact ⟨h.cached j, h.unwrapped j, h.read j⟩
  refine { h with cursors := ?_, cached := ?_, unwrapped := ?_, read := ?_ }
  · rw [hpos]
    exact congrArg (fun c => Function.update c i (x.cursors i + 1)) h.cursors
  · exact fun j => (hall j).1
  · exact fun j => (hall j).2.1
  · exact fun j => (hall j).2.2

theorem Wraps.consume (h : Wraps w cap s x) (hlt : x.tail < 2 ^ w) (i : Fin (n + 1))
    (throws : Bool) :
    Wraps w cap (tryConsume (some w) cap s i throws).1 (tryConsume none cap x i throws).1 ∧
      (tryConsume (some w) cap s i throws).2 = (tryConsume none cap x i throws).2 := by
  have htail : s.tail = x.tail := h.tail.trans (wrap_of_lt hlt)
  unfold tryConsume
  rw [htail, h.cursors]
  by_cases hnothing : x.tail ≤ x.cursors i
  · rw [if_pos hnothing, if_pos hnothing]
    exact ⟨h, rfl⟩
  · rw [if_neg hnothing, if_neg hnothing, h.item]
    cases throws with
    | true => exact ⟨h, rfl⟩
    | false =>
      exact ⟨h.set_cursor (Nat.lt_of_not_le hnothing) hlt, rfl⟩

/-- Once `tail_` has wrapped it is below every cursor, and stays so. -/
theorem Wraps.starved (h : Wraps w cap s x) (hcap : 2 * cap.size ≤ 2 ^ w) (hge : 2 ^ w ≤ x.tail)
    (i : Fin (n + 1)) : s.tail ≤ s.cursors i ∧ x.cursors i < x.tail := by
  have hcached := h.cached i
  have hmin := h.min_lt
  have hroom := h.room
  have hunwrapped := h.unwrapped i
  have htail : s.tail = x.tail - 2 ^ w := by
    rw [h.tail, Width.wrap, Nat.mod_eq_sub_mod hge, Nat.mod_eq_of_lt (by omega)]
  rw [h.cursors]
  omega

theorem accepted_half {N : Nat} {cap : RingCapacity}
    (h : checkAndRoundCapacity w N = .ok cap) : 2 * cap.size ≤ 2 ^ w ∧ cap.bits ≤ w := by
  obtain ⟨_, _, _, hle⟩ := round_capacity_ok h
  have hbits := round_capacity_bits h
  have htwo := cap.two_le
  have hw : w ≠ 0 := by
    rintro rfl
    simp only [Nat.zero_sub, Nat.pow_zero] at hle
    omega
  have hpow := Width.two_pow_pred hw
  omega

theorem initial_wraps [Inhabited T] :
    Wraps w cap (machine n T (some w) cap).init (machine n T none cap).init where
  slots := rfl
  tail := (Nat.zero_mod _).symm
  cachedMin := rfl
  cursors := rfl
  cached _ := Nat.le_refl 0
  unwrapped _ := Nat.two_pow_pos w
  read _ := Nat.le_refl 0
  room := Nat.zero_le _

theorem call_in_time (h : Wraps w cap s x) (hcap : 2 * cap.size ≤ 2 ^ w) (hbits : cap.bits ≤ w)
    {c : Call n T} (hok : InTime w x c) :
    Wraps w cap (call (some w) cap s c).1 (call none cap x c).1 ∧
      (call (some w) cap s c).2 = (call none cap x c).2 := by
  cases c with
  | tryPublish arg => exact h.publish hcap hbits arg
  | tryConsume i call throws => exact h.consume hok i throws

/-- A call that comes too late is told there is nothing to read. -/
theorem call_too_late (h : Wraps w cap s x) (hcap : 2 * cap.size ≤ 2 ^ w) {c : Call n T}
    (hok : ¬ InTime w x c) : ∃ item l,
      (call (some w) cap s c).2.filterMap Event.answer = [.nothing] ∧
      (call none cap x c).2.filterMap Event.answer = .given item :: l := by
  cases c with
  | tryPublish arg => exact absurd trivial hok
  | tryConsume i _ throws =>
    obtain ⟨hnothing, hunread⟩ := h.starved hcap (Nat.le_of_not_lt hok) i
    simp only [call, tryConsume, if_pos hnothing, if_neg (Nat.not_le_of_lt hunread)]
    cases throws with
    | true => exact ⟨_, _, rfl, rfl⟩
    | false => exact ⟨_, _, rfl, rfl⟩

theorem agree_iff [Inhabited T] (hcap : 2 * cap.size ≤ 2 ^ w) (hbits : cap.bits ≤ w)
    (cs : List (Call n T)) :
    answers (some w) cap cs = answers none cap cs ↔
      Throughout (call none cap) (InTime w) (machine n T none cap).init cs := by
  refine serial_agree_iff (R := Wraps w cap) Event.answer Event.answer ?_ ?_ initial_wraps cs
  · intro s x c h hok
    obtain ⟨hnext, hsame⟩ := call_in_time h hcap hbits hok
    exact ⟨hnext, congrArg _ hsame⟩
  · intro s x c h hok
    obtain ⟨item, l, hs, hx⟩ := call_too_late h hcap hok
    exact ⟨.nothing, .given item, [], l, by simp, hs, hx⟩

end Width

section Rounds

variable [Inhabited T]

/-- One consumer reads each item as soon as it is published. -/
def rounds (v : T) (i : Fin 1) : Nat → List (Call 0 T)
  | 0 => []
  | k + 1 => rounds v i k ++ [.tryPublish (some v), .tryConsume i .tryConsume false]

/-- The consumer has read everything. -/
structure Level (x : State 0 T) (k : Nat) : Prop where
  tail : x.tail = k
  cursors : ∀ i, x.cursors i = k
  cached : x.cachedMin ≤ k

omit [Inhabited T] in
theorem Level.publish {x : State 0 T} {k : Nat} (h : Level x k) (cap : Capacity) (v : T) :
    (tryPublish none cap x (some v)).1.tail = k + 1 ∧
      (∀ i, (tryPublish none cap x (some v)).1.cursors i = k) ∧
      (tryPublish none cap x (some v)).1.cachedMin ≤ k := by
  have hpos := cap.size_pos
  have hmin : scanMin x.cursors = k := by
    obtain ⟨i, hi⟩ := scan_min_attained x.cursors
    rw [hi, h.cursors]
  have hroom : looksFull none cap x.tail (scanMin x.cursors) ≠ true := by
    rw [ne_eq, looks_full_none, hmin, h.tail]
    omega
  unfold tryPublish
  by_cases hfull : looksFull none cap x.tail x.cachedMin = true
  · simp only [if_pos hfull, if_neg hroom]
    exact ⟨congrArg (· + 1) h.tail, h.cursors, Nat.le_of_eq hmin⟩
  · rw [if_neg hfull]
    exact ⟨congrArg (· + 1) h.tail, h.cursors, h.cached⟩

omit [Inhabited T] in
theorem Level.consume {x : State 0 T} {k : Nat} (htail : x.tail = k + 1)
    (hcursors : ∀ i, x.cursors i = k) (hcached : x.cachedMin ≤ k) (i : Fin 1) :
    Level (tryConsume none cap x i false).1 (k + 1) := by
  have hunread : ¬ x.tail ≤ x.cursors i := by
    rw [htail, hcursors]
    omega
  rw [tryConsume, if_neg hunread]
  refine ⟨htail, ?_, Nat.le_succ_of_le hcached⟩
  intro j
  have hj : j = i := Fin.ext (by omega)
  simp [cursors_set_cursor, hj, hcursors]

theorem rounds_level (cap : Capacity) (v : T) (i : Fin 1) (k : Nat) :
    Level (serial (call none cap) (machine 0 T none cap).init (rounds v i k)).1 k := by
  induction k with
  | zero => exact ⟨rfl, fun _ => rfl, Nat.le_refl 0⟩
  | succ k ih =>
    obtain ⟨htail, hcursors, hcached⟩ := ih.publish cap v
    rw [rounds, serial_append]
    exact Level.consume htail hcursors hcached i

/-- The `2 ^ w`-th round is too late. -/
theorem rounds_in_time (w : Nat) (cap : Capacity) (v : T) (i : Fin 1) (k : Nat) :
    Throughout (call none cap) (InTime w) (machine 0 T none cap).init (rounds v i k) ↔
      k < 2 ^ w := by
  induction k with
  | zero => exact iff_of_true trivial (Nat.two_pow_pos w)
  | succ k ih =>
    obtain ⟨htail, _, _⟩ := (rounds_level cap v i k).publish cap v
    rw [rounds, throughout_append, ih]
    simp only [Throughout, InTime, call, true_and, and_true, htail]
    omega

end Rounds

section Exact

variable {w : Nat}

/-- Counters kept modulo `2 ^ w` are invisible to callers exactly as long as no
consumer calls after `2 ^ w` items have been published. -/
theorem wrap_exact [Inhabited T] {N : Nat} {cap : RingCapacity}
    (hcap : checkAndRoundCapacity w N = .ok cap) (cs : List (Call n T)) :
    answers (some w) cap.toCapacity cs = answers none cap.toCapacity cs ↔
      Throughout (call none cap.toCapacity) (InTime w) (machine n T none cap.toCapacity).init cs :=
  agree_iff (accepted_half hcap).1 (accepted_half hcap).2 cs

theorem wrap_exact_two_rounds :
    answers (some 64) twoSlots.toCapacity (rounds 7 0 2) =
      answers none twoSlots.toCapacity (rounds 7 0 2) :=
  (wrap_exact (N := 2) rfl (rounds 7 0 2)).mpr
    ((rounds_in_time 64 twoSlots.toCapacity 7 0 2).mpr (Nat.lt_two_pow_self.trans' (by decide)))

theorem rounds_differ [Inhabited T] {N : Nat} {cap : RingCapacity}
    (hcap : checkAndRoundCapacity w N = .ok cap) (v : T) (i : Fin 1) :
    answers (some w) cap.toCapacity (rounds v i (2 ^ w)) ≠
      answers none cap.toCapacity (rounds v i (2 ^ w)) := by
  intro hsame
  have hintime := (agree_iff (accepted_half hcap).1 (accepted_half hcap).2 _).mp hsame
  exact Nat.lt_irrefl _ ((rounds_in_time w cap.toCapacity v i (2 ^ w)).mp hintime)

/-- With 32-bit counters a consumer that has read every item so far does not get
the item that makes `tail_` wrap. -/
theorem wrap_starves :
    checkAndRoundCapacity 32 2 = .ok twoSlots ∧
    answers (some 32) twoSlots.toCapacity (rounds 7 0 (2 ^ 32)) ≠
      answers none twoSlots.toCapacity (rounds 7 0 (2 ^ 32)) :=
  ⟨rfl, rounds_differ (N := 2) rfl 7 0⟩

end Exact

end Toolbox.Proofs.BroadcastWrap
