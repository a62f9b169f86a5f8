import Toolbox.Proofs.OverwriteAccounting

namespace Toolbox.Proofs.OverwriteOut
open Base Overwrite OverwriteMoves OverwriteSeqlock OverwriteAccounting

variable {n m : Nat} {D : Type*} {cap : Capacity} {s s' t t' u : State n m D} {a : Act n m D}
  {tr es later : List (Event n m D)} {i : Fin n} {out₀ : Words m D}

/-- Consumer `i` begins no further call. -/
def SameCall (i : Fin n) (_ : State n m D) : Act n m D → Prop
  | .tryRead j _ => j ≠ i
  | _ => True

instance (i : Fin n) (s : State n m D) (a : Act n m D) : Decidable (SameCall i s a) :=
  match a with
  | .tryRead j _ => inferInstanceAs (Decidable (j ≠ i))
  | .publish _ | .producer | .producerWord _ | .makeConsumer _ | .reader _ | .readerWord _ _ =>
    isTrue trivial

/-- The position that consumer `i` is copying from. -/
def copying (i : Fin n) (s : State n m D) : Option Nat :=
  (s.consumers i).bind fun c =>
    match c.pc with
    | .copy _ _ _ => some c.pos
    | _ => none

/-- The position whose `seq` the producer stores next. -/
def storing (s : State n m D) : Act n m D → Option Nat
  | .producer =>
    match s.producer with
    | .mark _ pos | .copy _ pos _ => some pos
    | _ => none
  | _ => none

/-- The producer does not store to the `seq` of the slot that consumer `i` is copying. -/
def Undisturbed (cap : Capacity) (i : Fin n) (s : State n m D) (a : Act n m D) : Prop :=
  ∀ p ∈ copying i s, ∀ q ∈ storing s a, cap.index q ≠ cap.index p

instance (cap : Capacity) (i : Fin n) (s : State n m D) (a : Act n m D) :
    Decidable (Undisturbed cap i s a) :=
  inferInstanceAs (Decidable (∀ p ∈ copying i s, ∀ q ∈ storing s a, _))

/-- A word that consumer `i` copies is what `out` held before the call anyway. -/
def Same (cap : Capacity) (i : Fin n) (out₀ : Words m D) (s : State n m D) : Act n m D → Prop
  | .readerWord j k => j = i → ∀ p ∈ copying i s, s.data cap p k = out₀ k
  | _ => True

/-- An `Empty` or `Lapped` of consumer `i` leaves `out` as it was. -/
def Frames (i : Fin n) (out₀ : Words m D) : Event n m D → Prop
  | .empty j out | .lapped j _ _ _ out => j = i → out = out₀
  | _ => True

/-- How far the call of consumer `i` has come: `kept` tells that its slot has been left
alone while it copied, `same` that the words were those of `out` anyway. -/
def Standing (cap : Capacity) (i : Fin n) (out₀ : Words m D) (later : List (Event n m D))
    (t : State n m D) (kept same : Prop) (c : Consumer m D) : Prop :=
  match c.pc with
  | .loadSeq out => (∀ e ∈ later, returning e ≠ some i) ∧ out = out₀ ∧ kept ∧ same
  | .copy _ done out => (∀ e ∈ later, returning e ≠ some i) ∧
      (kept ↔ t.seq cap c.pos = 2 * c.pos) ∧ (same ↔ ∀ k, done k = true → out k = out₀ k) ∧
      ∀ k, done k = false → out k = out₀ k
  | .loadPublished _ out => (∀ e ∈ later, returning e ≠ some i) ∧ (out = out₀ ↔ kept ∨ same)
  | .idle => (∀ e ∈ later, Frames i out₀ e) ↔ kept ∨ same

theorem frames_other {e : Event n m D} (h : returning e ≠ some i) : Frames i out₀ e := by
  cases e with
  | empty j out | lapped j _ _ _ out =>
    intro hj
    exact absurd (congrArg some hj) h
  | _ => trivial

theorem copying_some {c : Consumer m D} (hc : s.consumers i = some c) {p : Nat} :
    p ∈ copying i s ↔ p = c.pos ∧ ∃ s1 done out, c.pc = .copy s1 done out := by
  simp only [copying, hc, Option.bind_some]
  cases c.pc with
  | copy => simp [eq_comm]
  | _ => simp

theorem same_other (h : ∀ k, a ≠ .readerWord i k) : Same cap i out₀ s a := by
  cases a with
  | readerWord j k => exact fun hj => absurd (by rw [hj]) (h k)
  | _ => trivial

theorem undisturbed_of (h : storing s a = none) : Undisturbed cap i s a := by
  intro p _ q hq
  rw [h] at hq
  cases hq

/-- A step of another thread, with what it does to the slot being copied. -/
theorem Standing.aside {c : Consumer m D} {kept same : Prop}
    (h : Standing cap i out₀ later t kept same c) (hc : t.consumers i = some c)
    (hes : ∀ e ∈ es, returning e ≠ some i) (hword : ∀ k, a ≠ .readerWord i k)
    (hstore : ∀ s1 done out, c.pc = .copy s1 done out →
      (t'.seq cap c.pos = 2 * c.pos ↔ t.seq cap c.pos = 2 * c.pos ∧ Undisturbed cap i t a)) :
    Standing cap i out₀ (later ++ es) t' (kept ∧ Undisturbed cap i t a)
      (same ∧ Same cap i out₀ t a) c := by
  have hsame : Same cap i out₀ t a := same_other hword
  have hnone : (∀ e ∈ later, returning e ≠ some i) → ∀ e ∈ later ++ es, returning e ≠ some i := by
    intro hlater e he
    rcases List.mem_append.mp he with he | he
    · exact hlater e he
    · exact hes e he
  have hframes : (∀ e ∈ later ++ es, Frames i out₀ e) ↔ ∀ e ∈ later, Frames i out₀ e := by
    refine ⟨fun hall e he => hall e (List.mem_append_left _ he), fun hall e he => ?_⟩
    rcases List.mem_append.mp he with he | he
    · exact hall e he
    · exact frames_other (hes e he)
  have hkept : (∀ s1 done out, c.pc ≠ .copy s1 done out) → Undisturbed cap i t a := by
    intro hpc p hp
    obtain ⟨_, s1, done, out, hcopy⟩ := (copying_some hc).mp hp
    exact absurd hcopy (hpc s1 done out)
  unfold Standing at h ⊢
  rw [and_iff_left hsame]
  cases hpc : c.pc with
  | idle =>
    rw [hpc] at h
    rw [and_iff_left (hkept (by simp [hpc])), hframes]
    exact h
  | loadSeq out =>
    rw [hpc] at h
    rw [and_iff_left (hkept (by simp [hpc]))]
    exact ⟨hnone h.1, h.2⟩
  | copy s1 done out =>
    rw [hpc] at h
    obtain ⟨hlater, hseq, hrest⟩ := h
    exact ⟨hnone hlater, by rw [hseq, hstore s1 done out hpc], hrest⟩
  | loadPublished newest out =>
    rw [hpc] at h
    rw [and_iff_left (hkept (by simp [hpc]))]
    exact ⟨hnone h.1, h.2⟩

/-- A step of the call itself. -/
theorem Standing.own {c c' : Consumer m D} {kept same : Prop} (hm : ReaderMove cap t i c a c' es)
    (hreader : ReaderOk cap t c.pos c.pc) (hc : t.consumers i = some c) (hcall : SameCall i t a)
    (h : Standing cap i out₀ later t kept same c) :
    Standing cap i out₀ (later ++ es) (t.setConsumer i c') (kept ∧ Undisturbed cap i t a)
      (same ∧ Same cap i out₀ t a) c' := by
  unfold Standing at h ⊢
  have hanswer : ∀ {e : Event n m D}, (∀ e ∈ later, returning e ≠ some i) →
      ((∀ x ∈ later ++ [e], Frames i out₀ x) ↔ Frames i out₀ e) := by
    intro e hnone
    refine ⟨fun hall => hall e (by simp), fun he x hx => ?_⟩
    rcases List.mem_append.mp hx with hx | hx
    · exact frames_other (hnone x hx)
    · rwa [List.mem_singleton.mp hx]
  have hlapped : ∀ {p q r : Nat} {out : Words m D},
      Frames i out₀ (.lapped i p q r out : Event n m D) ↔ out = out₀ := by
    intro p q r out
    exact ⟨fun hf => hf rfl, fun hf _ => hf⟩
  cases hm with
  | call => exact absurd rfl hcall
  | busy hpc hodd | early hpc heven hlt =>
    rw [hpc] at h
    obtain ⟨hnone, rfl, hkept, hsame⟩ := h
    refine iff_of_true ?_ (.inl ⟨hkept, undisturbed_of rfl⟩)
    rw [hanswer hnone]
    exact fun _ => rfl
  | passed hpc heven hlt =>
    rw [hpc] at h
    obtain ⟨hnone, rfl, hkept, hsame⟩ := h
    rw [List.append_nil]
    exact ⟨hnone, iff_of_true rfl (.inl ⟨hkept, undisturbed_of rfl⟩)⟩
  | matched hpc hseq =>
    rw [hpc] at h
    obtain ⟨hnone, rfl, hkept, hsame⟩ := h
    rw [List.append_nil]
    refine ⟨hnone, iff_of_true ⟨hkept, undisturbed_of rfl⟩ hseq, ?_, fun _ _ => rfl⟩
    exact iff_of_true ⟨hsame, trivial⟩ (fun _ hk => absurd hk Bool.false_ne_true)
  | @word s1 done out k hpc hk =>
    rw [hpc] at h
    obtain ⟨hnone, hkept, hsame, hrest⟩ := h
    have hcopied : Same cap i out₀ t (.readerWord i k) ↔ t.data cap c.pos k = out₀ k := by
      constructor
      · exact fun hw => hw rfl c.pos ((copying_some hc).mpr ⟨rfl, _, _, _, hpc⟩)
      · intro hw _ p hp
        rwa [((copying_some hc).mp hp).1]
    rw [List.append_nil]
    refine ⟨hnone, ?_, ?_, ?_⟩
    · rw [and_iff_left (undisturbed_of rfl), hkept]
      rfl
    · rw [hcopied, hsame]
      constructor
      · rintro ⟨hold, hnew⟩ j hj
        by_cases hjk : j = k
        · rw [hjk, Function.update_self, hnew]
        · rw [Function.update_of_ne hjk] at hj ⊢
          exact hold j hj
      · intro hall
        refine ⟨fun j hj => ?_, by simpa using hall k (by simp)⟩
        have hjk : j ≠ k := by
          rintro rfl
          exact Bool.false_ne_true (hk.symm.trans hj)
        simpa [hjk] using hall j (by simpa [hjk] using hj)
    · intro j hj
      by_cases hjk : j = k
      · simp [hjk] at hj
      · rw [Function.update_of_ne hjk] at hj ⊢
        exact hrest j hj
  | ok hpc hdone hsame =>
    rw [hpc] at h hreader
    obtain ⟨hnone, hkept, _⟩ := h
    obtain ⟨rfl, _⟩ := hreader
    refine iff_of_true ?_ (.inl ⟨hkept.mpr hsame.symm, undisturbed_of rfl⟩)
    rw [hanswer hnone]
    trivial
  | torn hpc hdone hdiff =>
    rw [hpc] at h hreader
    obtain ⟨hnone, hkept, hsame, _⟩ := h
    obtain ⟨rfl, _⟩ := hreader
    rw [List.append_nil]
    refine ⟨hnone, ?_⟩
    have hlost : ¬ kept := fun hk => hdiff (hkept.mp hk).symm
    rw [and_iff_left (undisturbed_of rfl), or_iff_right hlost, hsame]
    exact ⟨fun heq => ⟨fun k _ => congrFun heq k, trivial⟩, fun hall => funext fun k =>
      hall.1 k (hdone k)⟩
  | lapped hpc htarget hlt =>
    rw [hpc] at h
    rw [hanswer h.1, hlapped, h.2, and_iff_left (undisturbed_of rfl)]
    exact or_congr_right (and_iff_left trivial).symm
  | stayed hpc hle =>
    rw [hpc] at h
    rw [hanswer h.1, hlapped, h.2, and_iff_left (undisturbed_of rfl)]
    exact or_congr_right (and_iff_left trivial).symm

end Toolbox.Proofs.OverwriteOut
