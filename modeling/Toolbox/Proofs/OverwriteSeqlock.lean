import Mathlib.Data.Fin.VecNotation
import Toolbox.Proofs.OverwriteMoves

namespace Toolbox.Proofs.OverwriteSeqlock
open Base Overwrite OverwriteMoves

variable {n m : Nat} {D : Type*} {cap : Capacity} {s s' : State n m D} {a : Act n m D}
  {args : List (Option (Words m D))} {tr es : List (Event n m D)}

/-- The last position whose slot the producer has marked. -/
def marked (s : State n m D) : Nat :=
  match s.producer with
  | .mark _ _ => s.writePos - 1
  | _ => s.writePos

/-- The slot that position `q` uses: never written, being written for some
position, or holding the whole value of the call for that position. -/
inductive SlotOk (cap : Capacity) (args : List (Option (Words m D))) (s : State n m D) (q : Nat) :
    Prop
  | fresh (hseq : s.seq cap q = 0)
  | busy (p : Nat) (hpos : 1 ≤ p) (hle : p ≤ marked s) (hcell : cap.index p = cap.index q)
      (hseq : s.seq cap q = 2 * p + 1)
  | stable (p : Nat) (hpos : 1 ≤ p) (hle : p ≤ marked s) (hcell : cap.index p = cap.index q)
      (hseq : s.seq cap q = 2 * p) (hdata : args[p - 1]? = some (some (s.data cap q)))

def ProducerOk (cap : Capacity) (args : List (Option (Words m D))) (s : State n m D) :
    ProducerPc m D → Prop
  | .idle | .advance _ => True
  | .mark arg pos => pos = s.writePos ∧ 1 ≤ pos ∧ args[pos - 1]? = some arg
  | .construct arg pos => pos = s.writePos ∧ 1 ≤ pos ∧ args[pos - 1]? = some arg ∧
      s.seq cap pos = 2 * pos + 1
  | .copy v pos done => pos = s.writePos ∧ 1 ≤ pos ∧ args[pos - 1]? = some (some v) ∧
      s.seq cap pos = 2 * pos + 1 ∧ ∀ k, done k = true → s.data cap pos k = v k
  | .announce _ pos => pos = s.writePos

/-- A copy in progress is right so far, or the slot has moved on for good. -/
def ReaderOk (cap : Capacity) (s : State n m D) (pos : Nat) : ReaderPc m D → Prop
  | .idle | .loadSeq _ => True
  | .copy s1 done out => s1 = 2 * pos ∧
      ((s.seq cap pos = 2 * pos ∧ ∀ k, done k = true → out k = s.data cap pos k) ∨
        2 * pos + 2 ≤ s.seq cap pos)
  | .loadPublished newest _ => pos < newest ∧ newest ≤ s.writePos ∧
      cap.index newest = cap.index pos

structure Inv (cap : Capacity) (args : List (Option (Words m D))) (s : State n m D) : Prop where
  count : args.length = s.writePos
  announced : s.published ≤ s.writePos
  producer : ProducerOk cap args s s.producer
  slot : ∀ q, SlotOk cap args s q
  reader : ∀ i c, s.consumers i = some c → ReaderOk cap s c.pos c.pc
  place : ∀ i c, s.consumers i = some c → 1 ≤ c.pos ∧ c.pos ≤ s.writePos + 1

theorem initial_inv [Inhabited D] : Inv cap [] (machine n m D none cap).init := by
  refine ⟨rfl, Nat.le_refl _, trivial, fun _ => .fresh rfl, ?_, ?_⟩
  · intro i c hc
    cases hc
  · intro i c hc
    cases hc

theorem marked_le (s : State n m D) : marked s ≤ s.writePos := by
  unfold marked
  split
  · exact Nat.sub_le _ _
  · exact Nat.le_refl _

/-- The position a written slot names. -/
theorem SlotOk.named {q : Nat} (h : SlotOk cap args s q) (hpos : 0 < s.seq cap q) :
    s.seq cap q / 2 ≤ marked s ∧ cap.index (s.seq cap q / 2) = cap.index q := by
  cases h with
  | fresh hseq => omega
  | busy p _ hle hcell hseq =>
    have hhalf : s.seq cap q / 2 = p := by omega
    rw [hhalf]
    exact ⟨hle, hcell⟩
  | stable p _ hle hcell hseq _ =>
    have hhalf : s.seq cap q / 2 = p := by omega
    rw [hhalf]
    exact ⟨hle, hcell⟩

/-- A slot that shows `p` as stable holds the value of the `p`-th call. -/
theorem SlotOk.holds {p : Nat} (h : SlotOk cap args s p) (hpos : 1 ≤ p)
    (hseq : s.seq cap p = 2 * p) :
    p ≤ marked s ∧ args[p - 1]? = some (some (s.data cap p)) := by
  cases h with
  | fresh hseq' => omega
  | busy p' _ _ _ hseq' => omega
  | stable p' _ hle _ hseq' hdata =>
    obtain rfl : p' = p := by omega
    exact ⟨hle, hdata⟩

theorem SlotOk.keep {q : Nat} (h : SlotOk cap args s q)
    (hsame : cap.get s'.slots q = cap.get s.slots q) (hmarked : marked s ≤ marked s') :
    SlotOk cap args s' q := by
  have hseq : s'.seq cap q = s.seq cap q := by simp only [State.seq, hsame]
  have hdata : s'.data cap q = s.data cap q := by simp only [State.data, hsame]
  cases h with
  | fresh h1 => exact .fresh (hseq.trans h1)
  | busy p h1 h2 h3 h4 => exact .busy p h1 (Nat.le_trans h2 hmarked) h3 (hseq.trans h4)
  | stable p h1 h2 h3 h4 h5 =>
    exact .stable p h1 (Nat.le_trans h2 hmarked) h3 (hseq.trans h4) (hdata ▸ h5)

/-- A reader keeps what it relies on when its slot is untouched or, if it was at
the reader's position or beyond, has now moved beyond it. -/
theorem ReaderOk.keep {pos : Nat} {pc : ReaderPc m D} (h : ReaderOk cap s pos pc)
    (hwrite : s.writePos ≤ s'.writePos)
    (hslot : cap.get s'.slots pos = cap.get s.slots pos ∨
      (s.seq cap pos = 2 * pos ∨ 2 * pos + 2 ≤ s.seq cap pos → 2 * pos + 2 ≤ s'.seq cap pos)) :
    ReaderOk cap s' pos pc := by
  cases pc with
  | idle | loadSeq => trivial
  | copy s1 done out =>
    refine ⟨h.1, ?_⟩
    rcases hslot with hsame | hgone
    · simpa only [State.seq, State.data, hsame] using h.2
    · exact .inr (hgone (h.2.imp And.left id))
  | loadPublished newest out => exact ⟨h.1, Nat.le_trans h.2.1 hwrite, h.2.2⟩

/-- Handles move independently of the slots and of the producer. -/
theorem Inv.set_consumer (hi : Inv cap args s) {i : Fin n} {c : Consumer m D}
    (hreader : ReaderOk cap s c.pos c.pc) (hplace : 1 ≤ c.pos ∧ c.pos ≤ s.writePos + 1) :
    Inv cap args (s.setConsumer i c) := by
  refine ⟨hi.count, hi.announced, ?_, fun q => (hi.slot q).keep rfl (Nat.le_refl _), ?_, ?_⟩
  · have hprod := hi.producer
    rw [producer_set_consumer]
    cases hp : s.producer <;> rw [hp] at hprod <;> exact hprod
  · intro j d hd
    rw [consumers_set_consumer] at hd
    split at hd
    · obtain rfl := Option.some.inj hd
      exact hreader.keep (Nat.le_refl _) (.inl rfl)
    · exact (hi.reader j d hd).keep (Nat.le_refl _) (.inl rfl)
  · intro j d hd
    rw [consumers_set_consumer] at hd
    split at hd
    · obtain rfl := Option.some.inj hd
      exact hplace
    · exact hi.place j d hd

theorem Inv.lapped_target (hi : Inv cap args s) {i : Fin n} {c : Consumer m D}
    (hc : s.consumers i = some c) {newest : Nat} {out : Words m D}
    (hpc : c.pc = .loadPublished newest out) :
    c.pos < lappedTarget none cap c.pos newest s.published ∧
      lappedTarget none cap c.pos newest s.published ≤ s.writePos := by
  have hreader := hi.reader i c hc
  rw [hpc] at hreader
  obtain ⟨hnew, hle, _⟩ := hreader
  have hann := hi.announced
  have hsize := cap.size_pos
  rw [lapped_target_none (hi.place i c hc).1]
  split <;> omega

theorem Inv.reader_move (hi : Inv cap args s) {i : Fin n} {c c' : Consumer m D}
    (hc : s.consumers i = some c) (hm : ReaderMove cap s i c a c' es) :
    Inv cap args (s.setConsumer i c') := by
  have hreader := hi.reader i c hc
  have hplace := hi.place i c hc
  have hslot := hi.slot c.pos
  have hmarked := marked_le s
  cases hm with
  | call hpc | busy hpc _ | early hpc _ _ | stayed hpc _ =>
    exact hi.set_consumer trivial hplace
  | passed hpc heven hlt =>
    obtain ⟨hle, hcell⟩ := hslot.named (by omega)
    exact hi.set_consumer ⟨hlt, Nat.le_trans hle hmarked, hcell⟩ hplace
  | matched hpc hseq =>
    refine hi.set_consumer ⟨hseq, .inl ⟨hseq, ?_⟩⟩ hplace
    intro k hk
    cases hk
  | @word s1 done out k hpc hk =>
    rw [hpc] at hreader
    refine hi.set_consumer ⟨hreader.1, ?_⟩ hplace
    rcases hreader.2 with ⟨hseq, hright⟩ | hgone
    · refine .inl ⟨hseq, ?_⟩
      intro j hj
      by_cases he : j = k
      · subst he
        simp
      · simp only [Function.update_apply, if_neg he] at hj ⊢
        exact hright j hj
    · exact .inr hgone
  | ok hpc hdone hsame =>
    rw [hpc] at hreader
    obtain ⟨rfl, _⟩ := hreader
    have hle := (hslot.holds hplace.1 hsame.symm).1
    exact hi.set_consumer trivial ⟨by simp, by simp only; omega⟩
  | torn hpc hdone hdiff =>
    rw [hpc] at hreader
    obtain ⟨rfl, hstate⟩ := hreader
    have hgone : 2 * c.pos + 2 ≤ s.seq cap c.pos := by
      rcases hstate with ⟨hseq, _⟩ | hgone
      · exact absurd hseq.symm hdiff
      · exact hgone
    obtain ⟨hle, hcell⟩ := hslot.named (by omega)
    exact hi.set_consumer ⟨by simp only; omega, Nat.le_trans hle hmarked, hcell⟩ hplace
  | lapped hpc htarget hlt =>
    have hbound := (hi.lapped_target hc hpc).2
    rw [← htarget] at hbound
    exact hi.set_consumer trivial ⟨by simp only; omega, Nat.le_succ_of_le hbound⟩

/-- Producer steps that leave the slots, `write_pos_` and the marks alone. -/
theorem Inv.at_producer (hi : Inv cap args s) {pc : ProducerPc m D}
    (hok : ProducerOk cap args s pc) (hmarked : marked (s.atProducer pc) = marked s) :
    Inv cap args (s.atProducer pc) := by
  refine ⟨hi.count, hi.announced, ?_, ?_, ?_, hi.place⟩
  · cases pc <;> exact hok
  · exact fun q => (hi.slot q).keep rfl (Nat.le_of_eq hmarked.symm)
  · exact fun j d hd => (hi.reader j d hd).keep (Nat.le_refl _) (.inl rfl)

theorem SlotOk.grow {q : Nat} (h : SlotOk cap args s q) (arg : Option (Words m D))
    (hmarked : marked s ≤ args.length) : SlotOk cap (args ++ [arg]) s q := by
  cases h with
  | fresh h1 => exact .fresh h1
  | busy p h1 h2 h3 h4 => exact .busy p h1 h2 h3 h4
  | stable p h1 h2 h3 h4 h5 =>
    refine .stable p h1 h2 h3 h4 ?_
    rw [List.getElem?_append_left (by omega)]
    exact h5

theorem Inv.advance (hi : Inv cap args s) {arg : Option (Words m D)}
    (hp : s.producer = .advance arg) :
    Inv cap (args ++ [arg])
      ({ s with writePos := s.writePos + 1 }.atProducer (.mark arg (s.writePos + 1))) := by
  have hcount := hi.count
  have hmarked := marked_le s
  refine ⟨?_, ?_, ?_, ?_, ?_, ?_⟩
  · simp [hcount]
  · exact Nat.le_succ_of_le hi.announced
  · refine ⟨rfl, Nat.succ_pos _, ?_⟩
    simp [← hcount]
  · intro q
    have hgrown := (hi.slot q).grow arg (by omega)
    exact hgrown.keep rfl (by simp [marked, hp])
  · exact fun j d hd => (hi.reader j d hd).keep (Nat.le_succ _) (.inl rfl)
  · intro j d hd
    obtain ⟨h1, h2⟩ := hi.place j d hd
    exact ⟨h1, Nat.le_succ_of_le h2⟩

/-- A store into the slot of the position being written: the other slots stay, and
readers of this one that were not behind it must now be. -/
theorem Inv.write (hi : Inv cap args s) (hwrite : s'.writePos = s.writePos)
    (hpublished : s'.published = s.published) (hconsumers : s'.consumers = s.consumers)
    (hmarked : marked s ≤ marked s')
    (hothers : ∀ q, cap.index q ≠ cap.index s.writePos →
      cap.get s'.slots q = cap.get s.slots q)
    (hproducer : ProducerOk cap args s' s'.producer)
    (hslot : ∀ q, cap.index q = cap.index s.writePos → SlotOk cap args s' q)
    (hgone : ∀ q, 1 ≤ q → cap.index q = cap.index s.writePos →
      s.seq cap q = 2 * q ∨ 2 * q + 2 ≤ s.seq cap q → 2 * q + 2 ≤ s'.seq cap q) :
    Inv cap args s' := by
  refine ⟨hi.count.trans hwrite.symm, ?_, hproducer, ?_, ?_, ?_⟩
  · rw [hpublished, hwrite]
    exact hi.announced
  · intro q
    by_cases he : cap.index q = cap.index s.writePos
    · exact hslot q he
    · exact (hi.slot q).keep (hothers q he) hmarked
  · intro j d hd
    rw [hconsumers] at hd
    refine (hi.reader j d hd).keep (Nat.le_of_eq hwrite.symm) ?_
    by_cases he : cap.index d.pos = cap.index s.writePos
    · exact .inr (hgone d.pos (hi.place j d hd).1 he)
    · exact .inl (hothers d.pos he)
  · intro j d hd
    rw [hconsumers] at hd
    rw [hwrite]
    exact hi.place j d hd

/-- Marking a slot tells every reader still copying from it that it has moved on. -/
theorem Inv.mark (hi : Inv cap args s) {arg : Option (Words m D)} {pos : Nat}
    (hp : s.producer = .mark arg pos) :
    Inv cap args ((s.storeSeq cap pos (2 * pos + 1)).atProducer (.construct arg pos)) := by
  have hprod := hi.producer
  rw [hp] at hprod
  obtain ⟨rfl, hpos, harg⟩ := hprod
  have hmarked : marked s = s.writePos - 1 := by simp [marked, hp]
  refine hi.write rfl rfl rfl (marked_le s) (fun q he => cap.get_set_of_ne _ _ he)
    ⟨rfl, hpos, harg, ?_⟩ ?_ ?_
  · simp [seq_store_seq]
  · intro q he
    exact .busy s.writePos hpos (Nat.le_refl _) he.symm (by simp [seq_store_seq, he])
  · intro q h1 he hreached
    rw [seq_at_producer, seq_store_seq, if_pos he]
    rcases hreached with hseq | hgone
    · have hlt := ((hi.slot q).holds h1 hseq).1
      omega
    · have hle := ((hi.slot q).named (by omega)).1
      omega

theorem Inv.word (hi : Inv cap args s) {v : Words m D} {pos : Nat} {done : Fin m → Bool}
    {k : Fin m} (hp : s.producer = .copy v pos done) :
    Inv cap args
      ((s.storeWord cap pos k (v k)).atProducer (.copy v pos (Function.update done k true))) := by
  have hprod := hi.producer
  rw [hp] at hprod
  obtain ⟨rfl, hpos, harg, hbusy, hright⟩ := hprod
  have hseq : ∀ q, cap.index q = cap.index s.writePos → s.seq cap q = 2 * s.writePos + 1 := by
    intro q he
    rw [← hbusy]
    simp only [State.seq, cap.get_congr _ he]
  refine hi.write rfl rfl rfl (marked_le s) (fun q he => cap.get_set_of_ne _ _ he)
    ⟨rfl, hpos, harg, by simpa using hbusy, ?_⟩ ?_ ?_
  · intro j hj
    rw [data_at_producer, data_store_word, if_pos rfl]
    by_cases he : j = k
    · subst he
      simp
    · simp only [Function.update_apply, if_neg he] at hj ⊢
      exact hright j hj
  · intro q he
    exact .busy s.writePos hpos (Nat.le_refl _) he.symm (by simpa using hseq q he)
  · intro q _ he hreached
    have hodd := hseq q he
    rw [seq_at_producer, seq_store_word]
    omega

theorem Inv.settle (hi : Inv cap args s) {v : Words m D} {pos : Nat} {done : Fin m → Bool}
    (hp : s.producer = .copy v pos done) (hdone : ∀ k, done k = true) :
    Inv cap args ((s.storeSeq cap pos (2 * pos)).atProducer (.announce v pos)) := by
  have hprod := hi.producer
  rw [hp] at hprod
  obtain ⟨rfl, hpos, harg, hbusy, hright⟩ := hprod
  have hdata : s.data cap s.writePos = v := funext fun k => hright k (hdone k)
  have hcell : ∀ q, cap.index q = cap.index s.writePos →
      s.seq cap q = 2 * s.writePos + 1 ∧ s.data cap q = v := by
    intro q he
    have hslot : cap.get s.slots q = cap.get s.slots s.writePos := cap.get_congr _ he
    rw [← hbusy, ← hdata]
    simp [State.seq, State.data, hslot]
  refine hi.write rfl rfl rfl (marked_le s) (fun q he => cap.get_set_of_ne _ _ he) rfl ?_ ?_
  · intro q he
    refine .stable s.writePos hpos (Nat.le_refl _) he.symm (by simp [seq_store_seq, he]) ?_
    rw [data_at_producer, data_store_seq, (hcell q he).2]
    exact harg
  · intro q _ he hreached
    have hodd := (hcell q he).1
    rw [seq_at_producer, seq_store_seq, if_pos he]
    omega

theorem Inv.announce (hi : Inv cap args s) {v : Words m D} {pos : Nat}
    (hp : s.producer = .announce v pos) :
    Inv cap args ({ s with published := pos }.atProducer .idle) := by
  have hprod := hi.producer
  rw [hp] at hprod
  have hpos : pos = s.writePos := hprod
  refine ⟨hi.count, Nat.le_of_eq hpos, trivial, ?_, ?_, hi.place⟩
  · exact fun q => (hi.slot q).keep rfl (marked_le s)
  · exact fun j d hd => (hi.reader j d hd).keep (Nat.le_refl _) (.inl rfl)

theorem move_inv (hi : Inv cap args s) (hm : Move cap s a s' es) :
    Inv cap (args ++ calls es) s' := by
  have hprod := hi.producer
  cases hm with
  | call hp => simpa [calls] using hi.at_producer (by trivial) (by simp [marked, hp])
  | advance hp => exact hi.advance hp
  | mark hp => simpa [calls] using hi.mark hp
  | threw hp => simpa [calls] using hi.at_producer (by trivial) (by simp [marked, hp])
  | @build v pos hp =>
    rw [hp] at hprod
    have hcopy : ProducerOk cap args s (.copy v pos (fun _ => false)) :=
      ⟨hprod.1, hprod.2.1, hprod.2.2.1, hprod.2.2.2, by simp⟩
    simpa [calls] using hi.at_producer hcopy (by simp [marked, hp])
  | word hp _ => simpa [calls] using hi.word hp
  | settle hp hdone => simpa [calls] using hi.settle hp hdone
  | announce hp => simpa [calls] using hi.announce hp
  | @make i hc =>
    have hann := hi.announced
    have hnew : Inv cap args (s.setConsumer i ⟨s.published + 1, 0, .idle⟩) :=
      hi.set_consumer trivial ⟨Nat.succ_pos _, Nat.succ_le_succ hann⟩
    simpa [calls] using hnew
  | reader hc hm =>
    have hnone : calls es = [] := by cases hm <;> rfl
    simpa [hnone] using hi.reader_move hc hm

theorem run_inv [Inhabited D] (hr : (machine n m D none cap).Run tr s) :
    Inv cap (calls tr) s := by
  refine Machine.Run.invariant (I := fun tr s => Inv cap (calls tr) s) initial_inv ?_ hr
  intro tr s a s' es _ hi hs
  have hnext := move_inv hi (step_moves hs)
  rwa [calls, List.filterMap_append]

/-- A copy whose slot still shows the position is the whole value of its call. -/
theorem Inv.ok_value (hi : Inv cap args s) {i : Fin n} {c : Consumer m D}
    (hc : s.consumers i = some c) {s1 : Nat} {done : Fin m → Bool} {out : Words m D}
    (hpc : c.pc = .copy s1 done out) (hdone : ∀ k, done k = true)
    (hsame : s1 = s.seq cap c.pos) : args[c.pos - 1]? = some (some out) := by
  have hreader := hi.reader i c hc
  rw [hpc] at hreader
  obtain ⟨rfl, hstate⟩ := hreader
  have hheld := ((hi.slot c.pos).holds (hi.place i c hc).1 hsame.symm).2
  rcases hstate with ⟨_, hright⟩ | hgone
  · have hout : out = s.data cap c.pos := funext fun k => hright k (hdone k)
    rw [hout]
    exact hheld
  · omega

theorem calls_append : calls (tr ++ es) = calls tr ++ calls es := List.filterMap_append

theorem calls_keep {p : Nat} {arg : Option (Words m D)} (h : (calls tr)[p]? = some arg) :
    (calls (tr ++ es))[p]? = some arg := by
  rw [calls_append, List.getElem?_append_left (List.getElem?_eq_some_iff.mp h).1]
  exact h

theorem move_ok (hi : Inv cap (calls tr) s) (hm : Move cap s a s' es) {i : Fin n} {pos : Nat}
    {out : Words m D} (hmem : .ok i pos out ∈ es) :
    1 ≤ pos ∧ (calls tr)[pos - 1]? = some (some out) := by
  cases hm with
  | call | advance | mark | threw | build | word | settle | announce | make => simp at hmem
  | @reader a j c c' es hc hm =>
    cases hm with
    | call | busy | early | passed | matched | word | torn | lapped | stayed => simp at hmem
    | ok hpc hdone hsame =>
      simp only [List.mem_singleton, Event.ok.injEq] at hmem
      obtain ⟨rfl, rfl, rfl⟩ := hmem
      exact ⟨(hi.place _ c hc).1, hi.ok_value hc hpc hdone hsame⟩

/-- Whatever a read returns with `Ok` is, word by word, the value of the publish
call of the position the reader was at. -/
theorem ok_untorn [Inhabited D] (hr : (machine n m D none cap).Run tr s) :
    ∀ i pos out, .ok i pos out ∈ tr →
      1 ≤ pos ∧ ∃ v, (calls tr)[pos - 1]? = some (some v) ∧ ∀ k, out k = v k := by
  have hall : ∀ i pos out, .ok i pos out ∈ tr →
      1 ≤ pos ∧ (calls tr)[pos - 1]? = some (some out) := by
    refine Machine.Run.invariant (I := fun tr _ => ∀ i pos out, .ok i pos out ∈ tr →
      1 ≤ pos ∧ (calls tr)[pos - 1]? = some (some out)) (by simp) ?_ hr
    intro tr s a s' es hr hold hs i pos out hmem
    rcases List.mem_append.mp hmem with hmem | hmem
    · obtain ⟨hpos, hv⟩ := hold i pos out hmem
      exact ⟨hpos, calls_keep hv⟩
    · obtain ⟨hpos, hv⟩ := move_ok (run_inv hr) (step_moves hs) hmem
      exact ⟨hpos, calls_keep hv⟩
  intro i pos out hmem
  obtain ⟨hpos, hv⟩ := hall i pos out hmem
  exact ⟨hpos, out, hv, fun _ => rfl⟩

/-- A consumer subscribes, a two-word value is published and copied out, its
words moved in opposite orders. -/
def publishAndCopy (i : Fin 1) (j l : Fin 2) : List (Act 1 2 Nat) :=
  [.makeConsumer i, .publish (some ![3, 4]), .producer, .producer, .producer,
   .producerWord l, .producerWord j, .producer, .tryRead i ![0, 0], .reader i,
   .readerWord i j, .readerWord i l]

theorem ok_untorn_two_words : ∃ tr s out,
    (machine 1 2 Nat none twoSlots.toCapacity).Run (tr ++ [.ok 0 1 out]) s ∧
    ∃ v, (calls (tr ++ [.ok 0 1 out]))[0]? = some (some v) ∧ ∀ k, out k = v k := by
  have hcopied : (machine 1 2 Nat none twoSlots.toCapacity).Run _ _ :=
    Machine.run_of_exec (publishAndCopy 0 0 1) rfl
  have hr : (machine 1 2 Nat none twoSlots.toCapacity).Run (_ ++ [.ok 0 1 _]) _ :=
    hcopied.next (a := .reader 0) rfl
  exact ⟨_, _, _, hr, (ok_untorn hr 0 1 _ (by simp)).2⟩

end Toolbox.Proofs.OverwriteSeqlock
