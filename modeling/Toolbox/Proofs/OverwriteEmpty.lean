import Toolbox.Proofs.OverwriteRecent

namespace Toolbox.Proofs.OverwriteEmpty
open Base Overwrite OverwriteMoves OverwriteSeqlock OverwriteRecent

variable {n m : Nat} {D : Type*} {cap : Capacity} {s s' : State n m D} {a : Act n m D}
  {tr es : List (Event n m D)} {args : List (Option (Words m D))} {p : Nat}

/-- The stable seq store of the publication of `p` has happened. -/
def Stored (args : List (Option (Words m D))) (s : State n m D) (p : Nat) : Prop :=
  p ≤ settled s ∧ ∃ v, args[p - 1]? = some (some v)

/-- When the call of the position being written ends, or its value becomes
stable, that position is settled too. -/
theorem stored_settled (hcalls : calls es = []) (hbefore : settled s = s.writePos - 1)
    (hafter : settled s' = s.writePos) : Stored (calls (tr ++ es)) s' p ↔
      Stored (calls tr) s p ∨ (p = s.writePos ∧ ∃ v, (calls tr)[p - 1]? = some (some v)) := by
  unfold Stored
  rw [calls_append, hcalls, List.append_nil, hbefore, hafter]
  constructor
  · rintro ⟨hle, hvalue⟩
    rcases Nat.lt_or_eq_of_le hle with hlt | heq
    · exact .inl ⟨by omega, hvalue⟩
    · exact .inr ⟨heq, hvalue⟩
  · rintro (⟨hle, hvalue⟩ | ⟨rfl, hvalue⟩)
    · exact ⟨by omega, hvalue⟩
    · exact ⟨Nat.le_refl _, hvalue⟩

theorem stored_quiet (hcalls : calls es = []) (hsettled : settled s' = settled s)
    (hnot : ∀ v done, s.producer = .copy v p done → a ≠ .producer) :
    Stored (calls (tr ++ es)) s' p ↔
      Stored (calls tr) s p ∨ ∃ v done, s.producer = .copy v p done ∧ a = .producer := by
  unfold Stored
  rw [calls_append, hcalls, List.append_nil, hsettled]
  constructor
  · exact .inl
  · rintro (h | ⟨v, done, hp, ha⟩)
    · exact h
    · exact absurd ha (hnot v done hp)

/-- Only the stable seq store itself makes a position stored, and for good. -/
theorem stored_move (hi : Inv cap (calls tr) s) (hm : Move cap s a s' es) (h1 : 1 ≤ p) :
    Stored (calls (tr ++ es)) s' p ↔
      Stored (calls tr) s p ∨ ∃ v done, s.producer = .copy v p done ∧ a = .producer := by
  have hprod := hi.producer
  have hcount := hi.count
  cases hm with
  | call hp => exact stored_quiet rfl (by simp [settled, hp]) (by simp [hp])
  | @advance arg hp =>
    have hsettled : settled ({ s with writePos := s.writePos + 1 }.atProducer
        (.mark arg (s.writePos + 1))) = settled s := by simp [settled, hp]
    unfold Stored
    rw [calls_append, hsettled, hp]
    constructor
    · rintro ⟨hle, v, hv⟩
      refine .inl ⟨hle, v, ?_⟩
      have hle' : p ≤ s.writePos := by simpa [settled, hp] using hle
      rwa [List.getElem?_append_left (by omega)] at hv
    · rintro (⟨hle, v, hv⟩ | ⟨v, done, h, _⟩)
      · refine ⟨hle, v, ?_⟩
        rw [List.getElem?_append_left (List.getElem?_eq_some_iff.mp hv).1]
        exact hv
      · cases h
  | mark hp => exact stored_quiet rfl (by simp [settled, hp, State.storeSeq]) (by simp [hp])
  | @threw pos hp =>
    rw [hp] at hprod
    obtain ⟨rfl, hpos, harg, _⟩ := hprod
    rw [stored_settled (s := s) rfl (by simp [settled, hp]) rfl, hp]
    refine or_congr_right ⟨?_, ?_⟩
    · rintro ⟨rfl, v, hv⟩
      rw [harg] at hv
      cases hv
    · rintro ⟨v, done, h, _⟩
      cases h
  | build hp => exact stored_quiet rfl (by simp [settled, hp]) (by simp [hp])
  | word hp _ => exact stored_quiet rfl (by simp [settled, hp, State.storeWord]) (by simp)
  | @settle v pos done hp hdone =>
    rw [hp] at hprod
    obtain ⟨rfl, hpos, harg, _⟩ := hprod
    rw [stored_settled (s := s) rfl (by simp [settled, hp]) rfl, hp]
    refine or_congr_right ⟨?_, ?_⟩
    · rintro ⟨rfl, _⟩
      exact ⟨v, done, rfl, rfl⟩
    · rintro ⟨w, done', h, _⟩
      cases h
      exact ⟨rfl, v, harg⟩
  | announce hp => exact stored_quiet rfl (by simp [settled, hp]) (by simp [hp])
  | make _ => exact stored_quiet rfl rfl (by simp)
  | reader hc hm =>
    have hcalls : calls es = [] := by cases hm <;> rfl
    refine stored_quiet hcalls rfl ?_
    intro v done _
    cases hm <;> simp

/-- The slot of a stored position shows it or a later one. -/
def Kept (cap : Capacity) (args : List (Option (Words m D))) (s : State n m D) : Prop :=
  ∀ p, 1 ≤ p → Stored args s p → s.seq cap p = 2 * p ∨ 2 * p + 2 ≤ s.seq cap p

theorem move_kept (hi : Inv cap (calls tr) s) (h : Kept cap (calls tr) s)
    (hm : Move cap s a s' es) : Kept cap (calls (tr ++ es)) s' := by
  have hprod := hi.producer
  intro p h1 hstored
  have hcase := (stored_move hi hm h1).mp hstored
  cases hm with
  | call hp | advance hp | threw hp | build hp | announce hp =>
    refine h p h1 (hcase.resolve_right ?_)
    rintro ⟨v, done, hcopy, _⟩
    rw [hp] at hcopy
    cases hcopy
  | @mark arg pos hp =>
    rw [hp] at hprod hcase
    obtain ⟨rfl, hpos, _⟩ := hprod
    have hold := hcase.resolve_right (by simp)
    have hle : p ≤ s.writePos - 1 := by simpa [settled, hp] using hold.1
    rw [seq_at_producer, seq_store_seq]
    split
    · right
      omega
    · exact h p h1 hold
  | word hp _ =>
    rw [seq_at_producer, seq_store_word]
    exact h p h1 (hcase.resolve_right (by simp))
  | @settle v pos done hp hdone =>
    rw [hp] at hprod hcase
    obtain ⟨rfl, hpos, _⟩ := hprod
    rw [seq_at_producer, seq_store_seq]
    rcases hcase with hold | ⟨w, done', hcopy, _⟩
    · have hle : p ≤ s.writePos - 1 := by simpa [settled, hp] using hold.1
      split
      · right
        omega
      · exact h p h1 hold
    · cases hcopy
      simp
  | make hc => exact h p h1 (hcase.resolve_right (by simp))
  | reader hc hm =>
    refine h p h1 (hcase.resolve_right ?_)
    rintro ⟨v, done, _, ha⟩
    cases hm <;> cases ha

theorem run_kept [Inhabited D] (hr : (machine n m D none cap).Run tr s) :
    Kept cap (calls tr) s := by
  refine Machine.Run.invariant (I := fun tr s => Kept cap (calls tr) s) ?_ ?_ hr
  · rintro p h1 ⟨_, v, hv⟩
    cases hv
  · intro tr s a s' es hr h hs
    exact move_kept (run_inv hr) h (step_moves hs)

/-- An `Empty` that this step returns is for a position not yet stored. -/
def EmptyRight (cap : Capacity) (x : List (Event n m D) × State n m D) : Act n m D → Prop
  | .reader i => ∀ c s' out, x.2.consumers i = some c →
      step none cap x.2 (.reader i) = some (s', [.empty i out]) → ¬ Stored (calls x.1) x.2 c.pos
  | _ => True

/-- At the first load of `seq` the slot is not marked in progress for a later
position than the consumer's, unless the consumer's own was never stored. -/
def Unmarked (cap : Capacity) (x : List (Event n m D) × State n m D) : Act n m D → Prop
  | .reader i => ∀ c out q v, x.2.consumers i = some c → c.pc = .loadSeq out → c.pos < q →
      x.2.seq cap c.pos = 2 * q + 1 → (calls x.1)[c.pos - 1]? ≠ some (some v)
  | _ => True

theorem settled_ge (s : State n m D) : s.writePos - 1 ≤ settled s := by
  unfold settled
  split
  · exact Nat.le_refl _
  · exact Nat.le_refl _
  · exact Nat.le_refl _
  · exact Nat.sub_le _ _

theorem busy_empty {i : Fin n} {c : Consumer m D} {out : Words m D}
    (hc : s.consumers i = some c) (hpc : c.pc = .loadSeq out) (hodd : s.seq cap c.pos % 2 = 1) :
    step none cap s (.reader i) = some (s.setConsumer i { c with pc := .idle }, [.empty i out]) := by
  simp [step, stepReader, hc, hpc, Nat.and_one_is_mod, hodd]

theorem empty_right_iff [Inhabited D] (hr : (machine n m D none cap).Run tr s) (a : Act n m D) :
    EmptyRight cap (tr, s) a ↔ Unmarked cap (tr, s) a := by
  have hi := run_inv hr
  cases a with
  | reader i =>
    constructor
    · intro hright c out q v hc hpc hlt hseq hcall
      simp only at hc hseq hcall
      have hempty : step none cap s (.reader i) = some (_, _) := busy_empty hc hpc (by omega)
      refine hright c _ out hc hempty ⟨?_, v, hcall⟩
      have hnamed := ((hi.slot c.pos).named (by omega)).1
      have hmarked := marked_le s
      have hsettled := settled_ge s
      simp only
      omega
    · intro hunmarked c s' out hc hs hstored
      simp only at hc hs hstored
      have h1 := (hi.place i c hc).1
      have hkept := run_kept hr c.pos h1 hstored
      have hm : Move cap s (.reader i) s' [.empty i out] := step_moves hs
      cases hm with
      | reader hd hm =>
        cases hm with
        | busy hpc hodd =>
          rw [hc] at hd
          obtain rfl := Option.some.inj hd
          obtain ⟨_, v, hv⟩ := hstored
          exact hunmarked c out (s.seq cap c.pos / 2) v hc hpc (by omega) (by simp only; omega) hv
        | early hpc heven hlt =>
          rw [hc] at hd
          obtain rfl := Option.some.inj hd
          omega
  | _ => exact Iff.rfl

/-- `Empty` says that the position was not yet stored exactly when the slot was
not being rewritten. -/
theorem empty_right [Inhabited D] :
    (∀ tr x, (machine n m D none cap).traced.RunWhere (Unmarked cap) tr x →
      (machine n m D none cap).traced.RunWhere (EmptyRight cap) tr x) ∧
    (∀ tr s a, (machine n m D none cap).Run tr s →
      (EmptyRight cap (tr, s) a ↔ Unmarked cap (tr, s) a)) := by
  refine ⟨?_, fun tr s a hr => empty_right_iff hr a⟩
  intro tr x hr
  refine Machine.RunWhere.imp ?_ hr
  intro tr x a y es hx _ hok
  obtain ⟨htr, hrun⟩ := Machine.run_of_traced hx
  have hiff := empty_right_iff hrun a
  rw [← htr] at hiff
  exact hiff.mpr hok

/-- Two items on two slots; the first slot is marked for the third when the
consumer of position 1 begins to read. -/
def rewritten (i j : Fin 1) : List (Act 1 1 Nat) :=
  [.makeConsumer i,
   .publish (some ![7]), .producer, .producer, .producer, .producerWord j, .producer, .producer,
   .publish (some ![8]), .producer, .producer, .producer, .producerWord j, .producer, .producer,
   .publish (some ![9]), .producer, .producer, .tryRead i ![0]]

/-- Position 1 was stored long before the read that answers `Empty` for it. -/
theorem empty_for_stored : ∃ tr s c s' out,
    (machine 1 1 Nat none twoSlots.toCapacity).Run tr s ∧ s.consumers 0 = some c ∧
    (machine 1 1 Nat none twoSlots.toCapacity).step s (.reader 0) =
      some (s', [.empty 0 out]) ∧ Stored (calls tr) s c.pos := by
  have hr : (machine 1 1 Nat none twoSlots.toCapacity).Run _ _ :=
    Machine.run_of_exec (rewritten 0 0) rfl
  exact ⟨_, _, _, _, _, hr, rfl, rfl, by decide, ![7], rfl⟩

/-- The subscriber's first read comes before anything is published. -/
theorem empty_right_first_read : ∃ tr s, (machine 1 1 Nat none twoSlots.toCapacity).Run tr s ∧
    EmptyRight twoSlots.toCapacity (tr, s) (.reader 0) := by
  have hr : (machine 1 1 Nat none twoSlots.toCapacity).Run _ _ :=
    Machine.run_of_exec [.makeConsumer ⟨0, Nat.one_pos⟩, .tryRead ⟨0, Nat.one_pos⟩ ![0]] rfl
  refine ⟨_, _, hr, (empty_right.2 _ _ _ hr).mpr ?_⟩
  intro c out q v hc _ hlt hseq
  cases hseq

end Toolbox.Proofs.OverwriteEmpty
