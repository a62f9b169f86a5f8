import Toolbox.Overwrite

namespace Toolbox.Proofs.OverwriteMoves
open Base Overwrite

variable {n m : Nat} {D : Type*} {cap : Capacity} {s s' : State n m D} {a : Act n m D}
  {es : List (Event n m D)}

section Fields

variable (cap : Capacity) (s : State n m D) (pc : ProducerPc m D) (i : Fin n)
  (c : Consumer m D)

@[simp] theorem consumers_at_producer : (s.atProducer pc).consumers = s.consumers := rfl
@[simp] theorem producer_at_producer : (s.atProducer pc).producer = pc := rfl
@[simp] theorem write_pos_at_producer : (s.atProducer pc).writePos = s.writePos := rfl
@[simp] theorem published_at_producer : (s.atProducer pc).published = s.published := rfl
@[simp] theorem seq_at_producer (q : Nat) : (s.atProducer pc).seq cap q = s.seq cap q := rfl
@[simp] theorem data_at_producer (q : Nat) : (s.atProducer pc).data cap q = s.data cap q := rfl
@[simp] theorem producer_set_consumer : (s.setConsumer i c).producer = s.producer := rfl
@[simp] theorem write_pos_set_consumer : (s.setConsumer i c).writePos = s.writePos := rfl
@[simp] theorem published_set_consumer : (s.setConsumer i c).published = s.published := rfl
@[simp] theorem seq_set_consumer (q : Nat) : (s.setConsumer i c).seq cap q = s.seq cap q := rfl
@[simp] theorem data_set_consumer (q : Nat) :
    (s.setConsumer i c).data cap q = s.data cap q := rfl

@[simp] theorem consumers_set_consumer (j : Fin n) :
    (s.setConsumer i c).consumers j = if j = i then some c else s.consumers j := by
  simp [State.setConsumer, Function.update_apply]

theorem consumers_self : (s.setConsumer i c).consumers i = some c := by
  simp

theorem seq_store_seq (p x q : Nat) : (s.storeSeq cap p x).seq cap q =
    if cap.index q = cap.index p then x else s.seq cap q := by
  simp only [State.seq, State.storeSeq, cap.get_set]
  split <;> rfl

@[simp] theorem data_store_seq (p x q : Nat) : (s.storeSeq cap p x).data cap q = s.data cap q := by
  simp only [State.data, State.storeSeq, cap.get_set]
  split
  · rename_i h
    rw [cap.get_congr _ h]
  · rfl

@[simp] theorem seq_store_word (p q : Nat) (k : Fin m) (d : D) :
    (s.storeWord cap p k d).seq cap q = s.seq cap q := by
  simp only [State.seq, State.storeWord, cap.get_set]
  split
  · rename_i h
    rw [cap.get_congr _ h]
  · rfl

theorem data_store_word (p q : Nat) (k : Fin m) (d : D) : (s.storeWord cap p k d).data cap q =
    if cap.index q = cap.index p then Function.update (s.data cap p) k d
    else s.data cap q := by
  simp only [State.data, State.storeWord, cap.get_set]
  split <;> rfl

end Fields

@[simp] theorem stable_none (pos : Nat) : stable none pos = 2 * pos := by
  rw [stable, Width.wrap_none, Nat.shiftLeft_eq]
  omega

@[simp] theorem in_progress_none (pos : Nat) : inProgress none pos = 2 * pos + 1 := by
  rw [inProgress, stable, Width.wrap_none, ← Nat.shiftLeft_add_eq_or_of_lt (by decide),
    Nat.shiftLeft_eq]
  omega

/-- `lapped_to` resumes from the oldest position of the last lap announced, or
where that would not advance, from the position that the contended slot names. -/
theorem lapped_target_none {pos : Nat} (hpos : 1 ≤ pos) (newest pub : Nat) :
    lappedTarget none cap pos newest pub =
      if pos + cap.size ≤ pub then pub - cap.size + 1 else newest := by
  have hsize := cap.size_pos
  change (if (if cap.size < pub then pub - cap.size + 1 else 1) ≤ pos then newest
    else if cap.size < pub then pub - cap.size + 1 else 1) = _
  by_cases hpub : cap.size < pub
  · rw [if_pos hpub]
    split <;> split <;> omega
  · rw [if_neg hpub, if_pos hpos, if_neg (by omega)]

/-- A reader's step changes its own handle and nothing else. -/
inductive ReaderMove (cap : Capacity) (s : State n m D) (i : Fin n) (c : Consumer m D) :
    Act n m D → Consumer m D → List (Event n m D) → Prop
  | call {out} (hc : c.pc = .idle) :
      ReaderMove cap s i c (.tryRead i out) { c with pc := .loadSeq out } []
  | busy {out} (hc : c.pc = .loadSeq out) (hodd : s.seq cap c.pos % 2 = 1) :
      ReaderMove cap s i c (.reader i) { c with pc := .idle } [.empty i out]
  | early {out} (hc : c.pc = .loadSeq out) (heven : s.seq cap c.pos % 2 = 0)
      (hlt : s.seq cap c.pos / 2 < c.pos) :
      ReaderMove cap s i c (.reader i) { c with pc := .idle } [.empty i out]
  | passed {out} (hc : c.pc = .loadSeq out) (heven : s.seq cap c.pos % 2 = 0)
      (hlt : c.pos < s.seq cap c.pos / 2) :
      ReaderMove cap s i c (.reader i) { c with pc := .loadPublished (s.seq cap c.pos / 2) out } []
  | matched {out} (hc : c.pc = .loadSeq out) (hseq : s.seq cap c.pos = 2 * c.pos) :
      ReaderMove cap s i c (.reader i) { c with pc := .copy (s.seq cap c.pos) (fun _ => false) out } []
  | word {s1 done out} (k : Fin m) (hc : c.pc = .copy s1 done out) (hk : done k = false) :
      ReaderMove cap s i c (.readerWord i k) { c with
        pc := .copy s1 (Function.update done k true)
          (Function.update out k (s.data cap c.pos k)) } []
  | ok {s1 done out} (hc : c.pc = .copy s1 done out) (hdone : ∀ k, done k = true)
      (hsame : s1 = s.seq cap c.pos) :
      ReaderMove cap s i c (.reader i) ⟨c.pos + 1, c.missed, .idle⟩ [.ok i c.pos out]
  | torn {s1 done out} (hc : c.pc = .copy s1 done out) (hdone : ∀ k, done k = true)
      (hdiff : s1 ≠ s.seq cap c.pos) :
      ReaderMove cap s i c (.reader i) { c with pc := .loadPublished (s.seq cap c.pos / 2) out } []
  | lapped {newest out target} (hc : c.pc = .loadPublished newest out)
      (htarget : target = lappedTarget none cap c.pos newest s.published)
      (hlt : c.pos < target) :
      ReaderMove cap s i c (.reader i) ⟨target, c.missed + (target - c.pos), .idle⟩
        [.lapped i c.pos target s.writePos out]
  | stayed {newest out} (hc : c.pc = .loadPublished newest out)
      (hle : lappedTarget none cap c.pos newest s.published ≤ c.pos) :
      ReaderMove cap s i c (.reader i) { c with pc := .idle } [.lapped i c.pos c.pos s.writePos out]

/-- Everything an atomic step can do to a queue with unbounded counters. -/
inductive Move (cap : Capacity) (s : State n m D) :
    Act n m D → State n m D → List (Event n m D) → Prop
  | call {arg} (hp : s.producer = .idle) : Move cap s (.publish arg) (s.atProducer (.advance arg)) []
  | advance {arg} (hp : s.producer = .advance arg) :
      Move cap s .producer
        ({ s with writePos := s.writePos + 1 }.atProducer (.mark arg (s.writePos + 1)))
        [.began arg]
  | mark {arg pos} (hp : s.producer = .mark arg pos) :
      Move cap s .producer ((s.storeSeq cap pos (2 * pos + 1)).atProducer (.construct arg pos)) []
  | threw {pos} (hp : s.producer = .construct none pos) :
      Move cap s .producer (s.atProducer .idle) [.threw pos]
  | build {v pos} (hp : s.producer = .construct (some v) pos) :
      Move cap s .producer (s.atProducer (.copy v pos (fun _ => false))) []
  | word {v pos done k} (hp : s.producer = .copy v pos done) (hk : done k = false) :
      Move cap s (.producerWord k)
        ((s.storeWord cap pos k (v k)).atProducer (.copy v pos (Function.update done k true))) []
  | settle {v pos done} (hp : s.producer = .copy v pos done) (hdone : ∀ k, done k = true) :
      Move cap s .producer ((s.storeSeq cap pos (2 * pos)).atProducer (.announce v pos)) []
  | announce {v pos} (hp : s.producer = .announce v pos) :
      Move cap s .producer ({ s with published := pos }.atProducer .idle) [.published pos v]
  | make {i} (hc : s.consumers i = none) :
      Move cap s (.makeConsumer i) (s.setConsumer i ⟨s.published + 1, 0, .idle⟩)
        [.made i (s.published + 1)]
  | reader {a i c c' es} (hc : s.consumers i = some c) (hm : ReaderMove cap s i c a c' es) :
      Move cap s a (s.setConsumer i c') es

theorem producer_moves (hs : stepProducer none cap s = some (s', es)) :
    Move cap s .producer s' es := by
  cases hp : s.producer with
  | idle => simp [stepProducer, hp] at hs
  | advance arg =>
    simp only [stepProducer, hp, Width.wrap_none, Option.some.injEq, Prod.mk.injEq] at hs
    obtain ⟨rfl, rfl⟩ := hs
    exact .advance hp
  | mark arg pos =>
    simp only [stepProducer, hp, in_progress_none, Option.some.injEq, Prod.mk.injEq] at hs
    obtain ⟨rfl, rfl⟩ := hs
    exact .mark hp
  | construct arg pos =>
    cases arg
    all_goals
      simp only [stepProducer, hp, Option.some.injEq, Prod.mk.injEq] at hs
      obtain ⟨rfl, rfl⟩ := hs
    · exact .threw hp
    · exact .build hp
  | copy v pos done =>
    simp only [stepProducer, hp, stable_none] at hs
    split at hs
    · rename_i hdone
      simp only [Option.some.injEq, Prod.mk.injEq] at hs
      obtain ⟨rfl, rfl⟩ := hs
      exact .settle hp hdone
    · cases hs
  | announce v pos =>
    simp only [stepProducer, hp, Option.some.injEq, Prod.mk.injEq] at hs
    obtain ⟨rfl, rfl⟩ := hs
    exact .announce hp

theorem producer_word_moves {k : Fin m} (hs : stepProducerWord cap s k = some (s', es)) :
    Move cap s (.producerWord k) s' es := by
  unfold stepProducerWord at hs
  split at hs
  · rename_i v pos done hp
    split at hs
    · cases hs
    · rename_i hk
      simp only [Option.some.injEq, Prod.mk.injEq] at hs
      obtain ⟨rfl, rfl⟩ := hs
      exact .word hp (by simpa using hk)
  · cases hs

theorem reader_moves {i : Fin n} {c : Consumer m D} (hc : s.consumers i = some c)
    (hs : stepReader none cap s i c = some (s', es)) : Move cap s (.reader i) s' es := by
  cases hpc : c.pc with
  | idle => simp [stepReader, hpc] at hs
  | loadSeq out =>
    simp only [stepReader, hpc, Nat.and_one_is_mod, Nat.shiftRight_one] at hs
    by_cases hodd : s.seq cap c.pos % 2 = 1
    · simp only [hodd, ↓reduceIte, Option.some.injEq, Prod.mk.injEq] at hs
      obtain ⟨rfl, rfl⟩ := hs
      exact .reader hc (.busy hpc hodd)
    · have heven : s.seq cap c.pos % 2 = 0 := by omega
      rw [if_neg hodd] at hs
      split at hs
      · rename_i hlt
        simp only [Option.some.injEq, Prod.mk.injEq] at hs
        obtain ⟨rfl, rfl⟩ := hs
        exact .reader hc (.early hpc heven hlt)
      · rename_i hge
        split at hs
        all_goals
          rename_i hlt
          simp only [Option.some.injEq, Prod.mk.injEq] at hs
          obtain ⟨rfl, rfl⟩ := hs
        · exact .reader hc (.passed hpc heven hlt)
        · exact .reader hc (.matched hpc (by omega))
  | copy s1 done out =>
    simp only [stepReader, hpc, Width.wrap_none, Nat.shiftRight_one] at hs
    split at hs
    · rename_i hdone
      split at hs
      all_goals
        rename_i hsame
        simp only [Option.some.injEq, Prod.mk.injEq] at hs
        obtain ⟨rfl, rfl⟩ := hs
      · exact .reader hc (.ok hpc hdone hsame)
      · exact .reader hc (.torn hpc hdone hsame)
    · cases hs
  | loadPublished newest out =>
    simp only [stepReader, hpc, lappedTo, Width.wrap_none, Width.sub_none] at hs
    split at hs
    all_goals
      rename_i hlt
      simp only [Option.some.injEq, Prod.mk.injEq] at hs
      obtain ⟨rfl, rfl⟩ := hs
    · exact .reader hc (.lapped hpc rfl hlt)
    · exact .reader hc (.stayed hpc (Nat.le_of_not_lt hlt))

theorem reader_word_moves {i : Fin n} {c : Consumer m D} {k : Fin m}
    (hc : s.consumers i = some c) (hs : stepReaderWord cap s i c k = some (s', es)) :
    Move cap s (.readerWord i k) s' es := by
  unfold stepReaderWord at hs
  split at hs
  · rename_i s1 done out hpc
    split at hs
    · cases hs
    · rename_i hk
      simp only [Option.some.injEq, Prod.mk.injEq] at hs
      obtain ⟨rfl, rfl⟩ := hs
      exact .reader hc (.word k hpc (by simpa using hk))
  · cases hs

/-- The one place where the step function is taken apart. -/
theorem step_moves (hs : step none cap s a = some (s', es)) : Move cap s a s' es := by
  cases a with
  | producer => exact producer_moves hs
  | producerWord k => exact producer_word_moves hs
  | publish arg =>
    simp only [step] at hs
    split at hs
    · rename_i hp
      cases hs
      exact .call hp
    · cases hs
  | makeConsumer i =>
    simp only [step] at hs
    split at hs
    · rename_i hc
      cases hs
      exact .make hc
    · cases hs
  | tryRead i out =>
    simp only [step] at hs
    split at hs
    · rename_i c hc
      split at hs
      · rename_i hpc
        cases hs
        exact .reader hc (.call hpc)
      · cases hs
    · cases hs
  | reader i =>
    obtain ⟨c, hc, hs⟩ := Option.bind_eq_some_iff.mp hs
    exact reader_moves hc hs
  | readerWord i k =>
    obtain ⟨c, hc, hs⟩ := Option.bind_eq_some_iff.mp hs
    exact reader_word_moves hc hs

end Toolbox.Proofs.OverwriteMoves
