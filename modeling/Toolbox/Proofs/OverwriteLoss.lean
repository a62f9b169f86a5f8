import Toolbox.Proofs.OverwriteSeqlock

namespace Toolbox.Proofs.OverwriteLoss
open Base Overwrite OverwriteMoves OverwriteSeqlock

variable {n m : Nat} {D : Type*} {cap : Capacity} {s s' : State n m D} {a : Act n m D}
  {tr es : List (Event n m D)}

/-- Every position skipped had been overwritten, or its overwriting begun, by
the time the call returned. -/
def Genuine (cap : Capacity) : Event n m D → Prop
  | .lapped _ pos target writePos _ => ∀ q, pos ≤ q → q < target → q + cap.size ≤ writePos
  | _ => True

/-- When `lapped_to` loads `published_`, either the count has reached the end of
the lap the reader was left behind in, or the position it would fall back to is
itself the oldest the ring can hold. -/
def Accurate (cap : Capacity) (s : State n m D) : Act n m D → Prop
  | .reader i => ∀ c newest out, s.consumers i = some c → c.pc = .loadPublished newest out →
      c.pos + cap.size ≤ s.published ∨ newest + cap.size ≤ s.writePos + 1
  | _ => True

theorem accurate_iff {i : Fin n} {c : Consumer m D} (hc : s.consumers i = some c) :
    Accurate cap s (.reader i) ↔ ∀ newest out, c.pc = .loadPublished newest out →
      c.pos + cap.size ≤ s.published ∨ newest + cap.size ≤ s.writePos + 1 := by
  refine ⟨fun h newest out => h c newest out hc, ?_⟩
  intro h d newest out hd
  obtain rfl := Option.some.inj (hc.symm.trans hd)
  exact h newest out

instance (cap : Capacity) (s : State n m D) (a : Act n m D) : Decidable (Accurate cap s a) :=
  match a with
  | .reader i =>
    match hc : s.consumers i with
    | none => isTrue (by simp [Accurate, hc])
    | some c =>
      match hpc : c.pc with
      | .loadPublished newest _ =>
        decidable_of_iff (c.pos + cap.size ≤ s.published ∨ newest + cap.size ≤ s.writePos + 1)
          (by simp [accurate_iff hc, hpc])
      | .idle | .loadSeq _ | .copy _ _ _ => isTrue (by simp [accurate_iff hc, hpc])
  | .publish _ | .producer | .producerWord _ | .makeConsumer _ | .tryRead _ _ | .readerWord _ _ =>
    isTrue trivial

theorem Inv.genuine_iff (hi : Inv cap (calls tr) s) {i : Fin n} {c : Consumer m D}
    (hc : s.consumers i = some c) {newest : Nat} {out : Words m D}
    (hpc : c.pc = .loadPublished newest out) :
    (∀ q, c.pos ≤ q → q < lappedTarget none cap c.pos newest s.published →
      q + cap.size ≤ s.writePos) ↔
    (c.pos + cap.size ≤ s.published ∨ newest + cap.size ≤ s.writePos + 1) := by
  have hreader := hi.reader i c hc
  rw [hpc] at hreader
  have hnew := hreader.1
  have hann := hi.announced
  rw [lapped_target_none (hi.place i c hc).1]
  by_cases hpub : c.pos + cap.size ≤ s.published
  · rw [if_pos hpub]
    refine ⟨fun _ => .inl hpub, ?_⟩
    intro _ q _ hq
    omega
  · rw [if_neg hpub]
    constructor
    · intro h
      have hlast := h (newest - 1) (by omega) (by omega)
      exact .inr (by omega)
    · intro h q _ hq
      have hfallback := h.resolve_left hpub
      omega

/-- Only the end of a lapped call is in question. -/
theorem accurate_of_pc {i : Fin n} {c : Consumer m D} (hc : s.consumers i = some c)
    (hpc : ∀ newest out, c.pc ≠ .loadPublished newest out) : Accurate cap s (.reader i) := by
  intro d newest out hd hdpc
  rw [hc] at hd
  obtain rfl := Option.some.inj hd
  exact absurd hdpc (hpc newest out)

theorem genuine_step (hi : Inv cap (calls tr) s) (hm : Move cap s a s' es) :
    (∀ e ∈ es, Genuine cap e) ↔ Accurate cap s a := by
  cases hm with
  | call | advance | mark | threw | build | word | settle | announce | make =>
    simp [Genuine, Accurate]
  | @reader a i c c' es hc hm =>
    cases hm with
    | call | word => simp [Accurate]
    | busy hpc | early hpc | passed hpc | matched hpc | ok hpc | torn hpc =>
      have haccurate : Accurate cap s (.reader i) := accurate_of_pc hc (by simp [hpc])
      simp [haccurate, Genuine]
    | lapped hpc htarget hlt =>
      subst htarget
      have hiff := Inv.genuine_iff hi hc hpc
      simp only [List.mem_singleton, forall_eq, Genuine, hiff]
      constructor
      · intro h d newest out hd hdpc
        rw [hc] at hd
        obtain rfl := Option.some.inj hd
        rw [hpc] at hdpc
        cases hdpc
        exact h
      · intro h
        exact h c _ _ hc hpc
    | stayed hpc hle =>
      have := (hi.lapped_target hc hpc).1
      omega

/-- A lapped reader left behind by a whole announced lap resumes at the oldest
position that lap still holds. -/
theorem resumes_oldest (hi : Inv cap (calls tr) s) (hm : Move cap s a s' es) {i : Fin n}
    {pos target writePos : Nat} {out : Words m D}
    (hmem : .lapped i pos target writePos out ∈ es) (hpub : pos + cap.size ≤ s.published) :
    target + cap.size = s.published + 1 := by
  cases hm with
  | call | advance | mark | threw | build | word | settle | announce | make => simp at hmem
  | @reader a i c c' es hc hm =>
    cases hm with
    | call | busy | early | passed | matched | word | ok | torn => simp at hmem
    | lapped hpc htarget hlt =>
      simp only [List.mem_singleton, Event.lapped.injEq] at hmem
      obtain ⟨rfl, rfl, rfl, rfl, rfl⟩ := hmem
      rw [lapped_target_none (hi.place i c hc).1, if_pos hpub] at htarget
      omega
    | stayed hpc hle =>
      have := (hi.lapped_target hc hpc).1
      omega

/-- As long as no constructor has thrown, `published_` is behind `write_pos_` by the
publish in progress at most. -/
def Announced (tr : List (Event n m D)) (s : State n m D) : Prop :=
  (∀ p, .threw p ∉ tr) →
    match s.producer with
    | .idle | .advance _ => s.published = s.writePos
    | .mark _ _ | .construct _ _ | .copy _ _ _ | .announce _ _ => s.published + 1 = s.writePos

theorem move_announced (hi : Inv cap (calls tr) s) (h : Announced tr s) (hm : Move cap s a s' es) :
    Announced (tr ++ es) s' := by
  intro hno
  have hbefore := h (fun p hp => hno p (List.mem_append_left _ hp))
  have hprod := hi.producer
  cases hm with
  | call hp | mark hp | build hp | word hp | settle hp =>
    rw [hp] at hbefore
    exact hbefore
  | advance hp =>
    rw [hp] at hbefore
    exact congrArg (· + 1) hbefore
  | threw hp => exact absurd (List.mem_append_right _ (List.mem_singleton_self _)) (hno _)
  | announce hp =>
    rw [hp] at hprod
    exact hprod
  | make | reader => exact hbefore

theorem run_announced [Inhabited D] (hr : (machine n m D none cap).Run tr s) : Announced tr s := by
  refine Machine.Run.invariant (I := fun tr s => Announced tr s) (fun _ => rfl) ?_ hr
  intro tr s a s' es hr h hs
  exact move_announced (run_inv hr) h (step_moves hs)

/-- The fallback position alone is the oldest the ring can hold only where a publish has
thrown: it is a lap ahead of the reader at least, and `published_` follows. -/
theorem fallback_needs_throw [Inhabited D] {cap : RingCapacity}
    (hr : (machine n m D none cap.toCapacity).Run tr s) {i : Fin n} {c : Consumer m D}
    (hc : s.consumers i = some c) {newest : Nat} {out : Words m D}
    (hpc : c.pc = .loadPublished newest out) (hpub : s.published < c.pos + cap.size)
    (hfallback : newest + cap.size ≤ s.writePos + 1) : ∃ p, .threw p ∈ tr := by
  by_contra hno
  have hi := run_inv hr
  have hreader := hi.reader i c hc
  rw [hpc] at hreader
  obtain ⟨hlt, _, hcell⟩ := hreader
  have htwo := cap.two_le
  have hlap : c.pos + cap.size ≤ newest := by
    by_contra hnear
    exact Nat.ne_of_gt hlt (cap.index_inj hcell (by omega) (by omega))
  have hclose : s.writePos ≤ s.published + 1 := by
    have hannounced := run_announced hr (fun p hp => hno ⟨p, hp⟩)
    cases hp : s.producer <;> rw [hp] at hannounced <;> simp only at hannounced <;> omega
  omega

/-- A lapped call skips only what was overwritten exactly when it is accurate. -/
theorem exact_loss [Inhabited D] :
    (∀ tr s, (machine n m D none cap).RunWhere (Accurate cap) tr s → ∀ e ∈ tr, Genuine cap e) ∧
    (∀ tr s a s' es, (machine n m D none cap).Run tr s →
      (machine n m D none cap).step s a = some (s', es) →
      ((∀ e ∈ es, Genuine cap e) ↔ Accurate cap s a) ∧
      ∀ i pos target writePos out, .lapped i pos target writePos out ∈ es →
        pos + cap.size ≤ s.published → target + cap.size = s.published + 1) := by
  refine ⟨?_, ?_⟩
  · intro tr s hr
    refine Machine.Steps.invariant (I := fun tr _ => ∀ e ∈ tr, Genuine cap e) (by simp) ?_ hr
    intro tr s a s' es hr hold hok hs e he
    rcases List.mem_append.mp he with he | he
    · exact hold e he
    · have hi := run_inv (Machine.RunWhere.run hr)
      exact (genuine_step hi (step_moves hs)).mpr hok e he
  · intro tr s a s' es hr hs
    have hi := run_inv hr
    refine ⟨genuine_step hi (step_moves hs), ?_⟩
    intro i pos target writePos out hmem hpub
    exact resumes_oldest hi (step_moves hs) hmem hpub

/-- Two items published whole, the third up to its stable mark, before the
consumer of position 1 reads. -/
def unannouncedLap (i j : Fin 1) : List (Act 1 1 Nat) :=
  [.makeConsumer i,
   .publish (some ![7]), .producer, .producer, .producer, .producerWord j, .producer, .producer,
   .publish (some ![8]), .producer, .producer, .producer, .producerWord j, .producer, .producer,
   .publish (some ![9]), .producer, .producer, .producer, .producerWord j, .producer,
   .tryRead i ![0], .reader i]

/-- Position 2 is skipped while its item is still in the ring. -/
theorem skips_held_item : ∃ tr s, (machine 1 1 Nat none twoSlots.toCapacity).Run tr s ∧
    ∃ e ∈ tr, ¬ Genuine twoSlots.toCapacity e := by
  have hbefore : (machine 1 1 Nat none twoSlots.toCapacity).Run _ _ :=
    Machine.run_of_exec (unannouncedLap 0 0) rfl
  have hr : (machine 1 1 Nat none twoSlots.toCapacity).Run (_ ++ [.lapped 0 1 3 3 _]) _ :=
    hbefore.next (a := .reader 0) rfl
  refine ⟨_, _, hr, _, List.mem_append_right _ (List.mem_singleton_self _), ?_⟩
  intro h
  exact absurd (h 2 (by decide) (by decide)) (by decide)

/-- Three items published whole, before the consumer of position 1 reads. -/
def announcedLap (i j : Fin 1) : List (Act 1 1 Nat) :=
  [.makeConsumer i,
   .publish (some ![7]), .producer, .producer, .producer, .producerWord j, .producer, .producer,
   .publish (some ![8]), .producer, .producer, .producer, .producerWord j, .producer, .producer,
   .publish (some ![9]), .producer, .producer, .producer, .producerWord j, .producer, .producer,
   .tryRead i ![0], .reader i, .reader i]

/-- A lapped call that is accurate, and one that is not. -/
theorem exact_loss_lapped :
    (∃ tr s,
      (machine 1 1 Nat none twoSlots.toCapacity).RunWhere (Accurate twoSlots.toCapacity) tr s ∧
      .lapped 0 1 2 3 ![0] ∈ tr ∧ ∀ e ∈ tr, Genuine twoSlots.toCapacity e) ∧
    ∃ tr s, (machine 1 1 Nat none twoSlots.toCapacity).Run tr s ∧
      ¬ Accurate twoSlots.toCapacity s (.reader 0) := by
  constructor
  · have hr : (machine 1 1 Nat none twoSlots.toCapacity).RunWhere (Accurate twoSlots.toCapacity)
        _ _ :=
      Machine.run_where_of_exec (announcedLap 0 0) rfl
    exact ⟨_, _, hr, List.mem_of_getElem? (i := 7) rfl, exact_loss.1 _ _ hr⟩
  · have hbefore : (machine 1 1 Nat none twoSlots.toCapacity).Run _ _ :=
      Machine.run_of_exec (unannouncedLap 0 0) rfl
    refine ⟨_, _, hbefore, ?_⟩
    intro h
    have hgenuine := ((exact_loss.2 _ _ (.reader 0) _ [.lapped 0 1 3 3 _] hbefore rfl).1).mpr h
    exact absurd (hgenuine _ (List.mem_singleton_self _) 2 (by decide) (by decide)) (by decide)

end Toolbox.Proofs.OverwriteLoss
