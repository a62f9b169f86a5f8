import Toolbox.Proofs.OverwriteRecent
import Toolbox.Proofs.OverwriteSerial

namespace Toolbox.Proofs.OverwriteAtomic
open Base RecentLog Overwrite OverwriteMoves OverwriteSeqlock OverwriteRecent

variable {n m : Nat} {D : Type*} {cap : Capacity} {s s₁ s' t t' u : State n m D}
  {a : Act n m D} {tr es later : List (Event n m D)} {i : Fin n} {c : Consumer m D}

section Failure

/-- The slot of the next position is marked for it. -/
def MarkedNext (cap : Capacity) (s t : State n m D) : Prop :=
  t.writePos = s.writePos + 1 ∧ ∀ q, t.seq cap q =
    if cap.index q = cap.index (s.writePos + 1) then 2 * (s.writePos + 1) + 1 else s.seq cap q

/-- How far the call that is going to throw has come since `s`. -/
def Underway (cap : Capacity) (s t : State n m D) : ProducerPc m D → Prop
  | .idle => True
  | .advance arg => arg = none ∧ t.writePos = s.writePos ∧ ∀ q, t.seq cap q = s.seq cap q
  | .mark arg pos => arg = none ∧ pos = s.writePos + 1 ∧ t.writePos = s.writePos + 1 ∧
      ∀ q, t.seq cap q = s.seq cap q
  | .construct arg pos => arg = none ∧ pos = s.writePos + 1 ∧ MarkedNext cap s t
  | .copy _ _ _ | .announce _ _ => False

structure Failing (cap : Capacity) (s t : State n m D) : Prop where
  underway : Underway cap s t t.producer
  published : t.published = s.published
  data : ∀ q, t.data cap q = s.data cap q

theorem failing_move (h : Failing cap s t) (hok : Quiet t a) (hm : Move cap t a u es) :
    Failing cap s u := by
  have hunder := h.underway
  cases hm with
  | call hp => exact hok.elim
  | advance hp =>
    rw [hp] at hunder
    obtain ⟨harg, hwrite, hseq⟩ := hunder
    refine ⟨⟨harg, ?_, ?_, hseq⟩, h.published, h.data⟩
    · rw [hwrite]
    · exact congrArg (· + 1) hwrite
  | mark hp =>
    rw [hp] at hunder
    obtain ⟨harg, rfl, hwrite, hseq⟩ := hunder
    refine ⟨⟨harg, rfl, hwrite, ?_⟩, h.published, ?_⟩
    · intro q
      rw [seq_at_producer, seq_store_seq, hseq]
    · intro q
      rw [data_at_producer, data_store_seq]
      exact h.data q
  | threw hp => exact ⟨trivial, h.published, h.data⟩
  | build hp =>
    rw [hp] at hunder
    cases hunder.1
  | word hp _ | settle hp _ | announce hp =>
    rw [hp] at hunder
    exact hunder.elim
  | make _ | reader =>
    refine ⟨?_, h.published, h.data⟩
    rw [producer_set_consumer]
    cases hp : t.producer <;> rw [hp] at hunder <;> exact hunder

/-- What a `publish` whose constructor throws leaves behind. -/
structure Left (cap : Capacity) (s t : State n m D) : Prop where
  idle : t.producer = .idle
  marked : MarkedNext cap s t
  published : t.published = s.published
  data : ∀ q, t.data cap q = s.data cap q

theorem throw_leaves [Inhabited D] {pos : Nat}
    (hcall : (machine n m D none cap).step s (.publish none) = some (s₁, es))
    (hsteps : (machine n m D none cap).Steps Quiet s₁ later t)
    (hthrow : (machine n m D none cap).step t .producer = some (t', [.threw pos])) :
    s.producer = .idle ∧ Left cap s t' := by
  have hfirst : s.producer = .idle ∧ Failing cap s s₁ := by
    have hm : Move cap s (.publish none) s₁ es := step_moves hcall
    cases hm with
    | call hp => exact ⟨hp, ⟨rfl, rfl, fun _ => rfl⟩, rfl, fun _ => rfl⟩
    | reader hc hm => cases hm
  have hfail : Failing cap s t := by
    refine Machine.Steps.invariant (I := fun _ t => Failing cap s t) hfirst.2 ?_ hsteps
    intro _ t a u es _ h hok hs
    exact failing_move h hok (step_moves hs)
  refine ⟨hfirst.1, ?_⟩
  have hunder := hfail.underway
  have hm : Move cap t .producer t' [.threw pos] := step_moves hthrow
  cases hm with
  | threw hp =>
    rw [hp] at hunder
    exact ⟨rfl, hunder.2.2, hfail.published, hfail.data⟩
  | reader hc hm => cases hm

end Failure

section Lap

variable [Inhabited D]

/-- One call of `publish`, run to its end. -/
def publishing (n : Nat) (v : Words m D) : List (Act n m D) :=
  [.publish (some v), .producer, .producer, .producer] ++
    (List.finRange m).map .producerWord ++ [.producer, .producer]

theorem publishing_run (cap : Capacity) (hidle : s.producer = .idle) (v : Words m D) :
    ∃ u, (machine n m D none cap).exec s (publishing n v) =
        some (u, [.began (some v), .published (s.writePos + 1) v]) ∧
      u.producer = .idle ∧ u.writePos = s.writePos + 1 ∧ u.published = s.writePos + 1 ∧
      u.consumers = s.consumers ∧ ∀ q, u.seq cap q =
        if cap.index q = cap.index (s.writePos + 1) then 2 * (s.writePos + 1)
        else s.seq cap q := by
  refine ⟨_, OverwriteSerial.publish_exec none cap hidle v, hidle, rfl, rfl, rfl, ?_⟩
  intro q
  simp only [State.seq, cap.get_set, Width.wrap_none, stable_none]
  split <;> rfl

/-- `k` complete publications after `s`. -/
structure Ahead (cap : Capacity) (k : Nat) (s u : State n m D) : Prop where
  idle : u.producer = .idle
  writePos : u.writePos = s.writePos + k
  published : 0 < k → u.published = u.writePos
  consumers : u.consumers = s.consumers
  seq : ∀ q, s.writePos < q → q ≤ u.writePos → u.writePos < q + cap.size → u.seq cap q = 2 * q

/-- The slots of the last lap are those written since `s`; the induction is on
the number of calls. -/
theorem publishing_ahead (cap : Capacity) (hidle : s.producer = .idle) (v : Words m D)
    (k : Nat) :
    ∃ u es, (machine n m D none cap).exec s (List.replicate k (publishing n v)).flatten =
        some (u, es) ∧ (∀ i, answers i es = []) ∧ Ahead cap k s u := by
  induction k with
  | zero =>
    refine ⟨s, [], rfl, fun _ => rfl, hidle, rfl, ?_, rfl, ?_⟩
    · intro h
      exact absurd h (Nat.lt_irrefl 0)
    · intro q hlt hle
      exact absurd hle (Nat.not_le_of_lt hlt)
  | succ k ih =>
    obtain ⟨t, es, hexec, hans, ht⟩ := ih
    obtain ⟨u, hnext, hu, hwrite, hpub, hconsumers, hseq⟩ := publishing_run cap ht.idle v
    have hlater : u.writePos = s.writePos + (k + 1) := by rw [hwrite, ht.writePos, Nat.add_assoc]
    refine ⟨u, es ++ [.began (some v), .published (t.writePos + 1) v], ?_, ?_, hu, hlater, ?_, ?_, ?_⟩
    · rw [List.replicate_succ', List.flatten_append]
      simpa using Machine.exec_trans hexec hnext
    · intro i
      rw [answers_append, hans]
      rfl
    · exact fun _ => hpub.trans hwrite.symm
    · exact hconsumers.trans ht.consumers
    · intro q hlt hle hlap
      rw [hwrite] at hle hlap
      rw [hseq]
      rcases Nat.lt_or_eq_of_le hle with hbefore | rfl
      · rw [if_neg (cap.index_ne (by omega) (by omega) (by omega))]
        exact ht.seq q hlt (by omega) (by omega)
      · rw [if_pos rfl]

/-- A lap of publications, and one read of consumer `i`. -/
def lapAndRead (cap : Capacity) (i : Fin n) (v out : Words m D) : List (Act n m D) :=
  (List.replicate (cap.size + 1) (publishing n v)).flatten ++
    [.tryRead i out, .reader i, .reader i]

/-- After a lap the consumer is sent to the oldest item that the ring holds. -/
theorem lap_and_read (cap : Capacity) (hidle : s.producer = .idle) (hc : s.consumers i = some c)
    (hpc : c.pc = .idle) (h1 : 1 ≤ c.pos) (hle : c.pos ≤ s.writePos + 1) (v out : Words m D) :
    ∃ u es, (machine n m D none cap).exec s (lapAndRead cap i v out) = some (u, es) ∧
      answers i es = [.skipped (s.writePos + 2)] ∧ u.consumers i =
        some ⟨s.writePos + 2, c.missed + (s.writePos + 2 - c.pos), .idle⟩ := by
  have hsize := cap.size_pos
  obtain ⟨t, es, hexec, hans, ht⟩ := publishing_ahead cap hidle v (cap.size + 1)
  have hwrite := ht.writePos
  have hpub := ht.published (Nat.succ_pos _)
  obtain ⟨q, hlow, hhigh, hcell⟩ := cap.exists_in_lap (s.writePos + 2) c.pos
  have hslot : t.seq cap c.pos = 2 * q := by
    have hsame : t.seq cap c.pos = t.seq cap q := by simp only [State.seq, cap.get_congr _ hcell]
    rw [hsame]
    exact ht.seq q (by omega) (by omega) (by omega)
  have hc' : t.consumers i = some c := by rw [ht.consumers]; exact hc
  have htarget : lappedTarget none cap c.pos q t.published = s.writePos + 2 := by
    rw [lapped_target_none h1, if_pos (by omega)]
    omega
  let t₁ := t.setConsumer i { c with pc := .loadSeq out }
  let t₂ := t₁.setConsumer i { c with pc := .loadPublished q out }
  let t₃ := t₂.setConsumer i ⟨s.writePos + 2, c.missed + (s.writePos + 2 - c.pos), .idle⟩
  have hcall : (machine n m D none cap).step t (.tryRead i out) = some (t₁, []) := by
    simp [machine, step, hc', hpc, t₁]
  have hload : (machine n m D none cap).step t₁ (.reader i) = some (t₂, []) := by
    have hlt : c.pos < q := by omega
    have hge : ¬ q < c.pos := by omega
    simp [machine, step, stepReader, t₁, t₂, hslot, Nat.and_one_is_mod, Nat.shiftRight_one, hlt,
      hge]
  have hlapped : (machine n m D none cap).step t₂ (.reader i) =
      some (t₃, [.lapped i c.pos (s.writePos + 2) t.writePos out]) := by
    have hlt : c.pos < s.writePos + 2 := by omega
    simp [machine, step, stepReader, lappedTo, t₁, t₂, t₃, htarget, hlt]
  refine ⟨t₃, _, Machine.exec_trans hexec (Machine.exec_step hcall (Machine.exec_step hload
    (Machine.exec_step hlapped Machine.exec_nil))), ?_, consumers_self _ _ _⟩
  rw [answers_append, hans]
  simp [answers]

/-- After the same further calls consumer `i` has been told to skip one item more
in `t` than in `s`. -/
def MissesOneMore (cap : Capacity) (i : Fin n) (s t : State n m D) : Prop :=
  ∃ (next : List (Act n m D)) (u u' : State n m D) (es es' : List (Event n m D)) (p : Nat)
    (c c' : Consumer m D),
    (machine n m D none cap).exec s next = some (u, es) ∧
    (machine n m D none cap).exec t next = some (u', es') ∧
    answers i es = [.skipped p] ∧ answers i es' = [.skipped (p + 1)] ∧
    u.consumers i = some c ∧ u'.consumers i = some c' ∧ c'.missed = c.missed + 1

theorem lap_differs (hidle : s.producer = .idle) (hidle' : t.producer = .idle)
    (hwrite : t.writePos = s.writePos + 1) (hc : s.consumers i = some c)
    (hc' : t.consumers i = some c) (hpc : c.pc = .idle) (h1 : 1 ≤ c.pos)
    (hle : c.pos ≤ s.writePos + 1) : MissesOneMore cap i s t := by
  let v : Words m D := fun _ => default
  obtain ⟨u, es, hexec, hans, hu⟩ := lap_and_read cap hidle hc hpc h1 hle v v
  obtain ⟨u', es', hexec', hans', hu'⟩ :=
    lap_and_read cap hidle' hc' hpc h1 (by omega) v v
  rw [hwrite] at hans' hu'
  refine ⟨_, u, u', es, es', _, _, _, hexec, hexec', hans, hans', hu, hu', ?_⟩
  simp only
  omega

/-- A consumer that does not exist yet is made first. -/
theorem made_differs (hnone : s.consumers i = none) (hnone' : t.consumers i = none)
    (hpub : t.published = s.published)
    (h : MissesOneMore cap i (s.setConsumer i ⟨s.published + 1, 0, .idle⟩)
      (t.setConsumer i ⟨s.published + 1, 0, .idle⟩)) : MissesOneMore cap i s t := by
  obtain ⟨next, u, u', es, es', p, c, c', hexec, hexec', hans, hans', hmissed⟩ := h
  have hmake : (machine n m D none cap).step s (.makeConsumer i) =
      some (s.setConsumer i ⟨s.published + 1, 0, .idle⟩, [.made i (s.published + 1)]) := by
    simp [machine, step, hnone]
  have hmake' : (machine n m D none cap).step t (.makeConsumer i) =
      some (t.setConsumer i ⟨s.published + 1, 0, .idle⟩, [.made i (s.published + 1)]) := by
    simp [machine, step, hnone', hpub]
  refine ⟨.makeConsumer i :: next, u, u', _, _, p, c, c', Machine.exec_step hmake hexec,
    Machine.exec_step hmake' hexec', ?_, ?_, hmissed⟩
  · rw [answers_append, hans]
    rfl
  · rw [answers_append, hans']
    rfl

end Lap

/-- A `publish` whose constructor throws always leaves its position used up and
the slot marked for it, and every consumer at rest, or made later, misses one item
more for it. -/
theorem never_atomic [Inhabited D] (hr : (machine n m D none cap).Run tr s) {pos : Nat}
    (hcall : (machine n m D none cap).step s (.publish none) = some (s₁, es))
    (hsteps : (machine n m D none cap).Steps Quiet s₁ later t)
    (hthrow : (machine n m D none cap).step t .producer = some (t', [.threw pos])) :
    (t'.writePos = s.writePos + 1 ∧
      t'.seq cap (s.writePos + 1) = 2 * (s.writePos + 1) + 1 ∧
      s.seq cap (s.writePos + 1) ≠ 2 * (s.writePos + 1) + 1 ∧
      t'.published = s.published ∧ ∀ q, t'.data cap q = s.data cap q) ∧
    ∀ i, t'.consumers i = s.consumers i → (∀ c, s.consumers i = some c → c.pc = .idle) →
      MissesOneMore cap i s t' := by
  have hi := run_inv hr
  obtain ⟨hidle, hleft⟩ := throw_leaves hcall hsteps hthrow
  obtain ⟨hwrite, hseq⟩ := hleft.marked
  refine ⟨⟨hwrite, ?_, ?_, hleft.published, hleft.data⟩, ?_⟩
  · rw [hseq, if_pos rfl]
  · intro hmarked
    have hnamed := ((hi.slot (s.writePos + 1)).named (by omega)).1
    have := marked_le s
    omega
  · intro i hsame hrest
    cases hc : s.consumers i with
    | some c =>
      obtain ⟨h1, hle⟩ := hi.place i c hc
      exact lap_differs hidle hleft.idle hwrite hc (hsame.trans hc) (hrest c hc) h1 hle
    | none =>
      refine made_differs hc (hsame.trans hc) hleft.published ?_
      exact lap_differs hidle hleft.idle hwrite (consumers_self _ _ _) (consumers_self _ _ _) rfl
        (Nat.succ_pos _) (Nat.succ_le_succ hi.announced)

/-- The first `publish` on a fresh queue throws. -/
theorem never_atomic_first_call : ∃ s t t', (machine 1 1 Nat none twoSlots.toCapacity).Run
      [.made 0 1] s ∧
    (machine 1 1 Nat none twoSlots.toCapacity).step t .producer = some (t', [.threw 1]) ∧
    s.writePos = 0 ∧ t'.writePos = 1 ∧ MissesOneMore twoSlots.toCapacity 0 s t' := by
  obtain ⟨s, s₁, t, t', hr, hcall, hsteps, hthrow, hconsumers, hwrite, c, hc, hpc⟩ :
      ∃ s s₁ t t', (machine 1 1 Nat none twoSlots.toCapacity).Run [.made 0 1] s ∧
        (machine 1 1 Nat none twoSlots.toCapacity).step s (.publish none) = some (s₁, []) ∧
        (machine 1 1 Nat none twoSlots.toCapacity).Steps Quiet s₁ [.began none] t ∧
        (machine 1 1 Nat none twoSlots.toCapacity).step t .producer = some (t', [.threw 1]) ∧
        t'.consumers 0 = s.consumers 0 ∧ s.writePos = 0 ∧
        ∃ c, s.consumers 0 = some c ∧ c.pc = .idle :=
    ⟨_, _, _, _, Machine.run_of_exec [.makeConsumer 0] rfl, rfl,
      Machine.steps_of_exec_where [.producer, .producer] rfl, rfl, rfl, rfl, _, rfl, rfl⟩
  have hboth := never_atomic hr hcall hsteps hthrow
  refine ⟨s, t, t', hr, hthrow, hwrite, ?_, hboth.2 0 hconsumers ?_⟩
  · rw [hboth.1.1, hwrite]
  · intro d hd
    rw [hc] at hd
    obtain rfl := Option.some.inj hd
    exact hpc

/-- The same publication and read after it: `Ok` without the failed call, `Empty`
with it. -/
theorem failure_observed : ∃ s t' u u' out, (machine 1 1 Nat none twoSlots.toCapacity).Run
      [.made 0 1] s ∧ (machine 1 1 Nat none twoSlots.toCapacity).exec s
        [.publish none, .producer, .producer, .producer] = some (t', [.began none, .threw 1]) ∧
    t'.writePos ≠ s.writePos ∧ t'.seq twoSlots.toCapacity 1 ≠ s.seq twoSlots.toCapacity 1 ∧
    (machine 1 1 Nat none twoSlots.toCapacity).exec s (publishing 1 ![7] ++
      [.tryRead 0 ![0], .reader 0, .readerWord 0 0, .reader 0]) =
        some (u, [.began (some ![7]), .published 1 ![7], .ok 0 1 out]) ∧ out 0 = 7 ∧
    (machine 1 1 Nat none twoSlots.toCapacity).exec t' (publishing 1 ![7] ++
      [.tryRead 0 ![0], .reader 0]) =
        some (u', [.began (some ![7]), .published 2 ![7], .empty 0 ![0]]) := by
  have hr : (machine 1 1 Nat none twoSlots.toCapacity).Run _ _ :=
    Machine.run_of_exec [.makeConsumer 0] rfl
  exact ⟨_, _, _, _, _, hr, rfl, by decide, by decide, rfl, rfl, rfl⟩

end Toolbox.Proofs.OverwriteAtomic
