import Toolbox.OverwriteCalls
import Toolbox.Proofs.OverwriteMoves

namespace Toolbox.Proofs.OverwriteSerial
open Base RecentLog Overwrite OverwriteMoves

variable {n m : Nat} {D : Type*} {w : Width} {cap : Capacity} {s t : State n m D} {i : Fin n}
  {c : Consumer m D}

/-- No call is in progress. -/
structure Quiet (s : State n m D) : Prop where
  producer : s.producer = .idle
  consumers : ∀ i c, s.consumers i = some c → c.pc = .idle

theorem Quiet.set_consumer (h : Quiet s) (hc : c.pc = .idle) : Quiet (s.setConsumer i c) := by
  refine ⟨h.producer, ?_⟩
  intro j d hd
  rw [consumers_set_consumer] at hd
  split at hd
  · obtain rfl := Option.some.inj hd
    exact hc
  · exact h.consumers j d hd

theorem set_consumer_self (hc : s.consumers i = some c) : s.setConsumer i c = s := by
  rw [State.setConsumer, ← hc, Function.update_eq_self]

theorem set_consumer_twice (c d : Consumer m D) :
    (s.setConsumer i c).setConsumer i d = s.setConsumer i d := by
  simp [State.setConsumer]

/-- The slot of `pos` gets a new payload. -/
def setData (cap : Capacity) (s : State n m D) (pos : Nat) (v : Words m D) : State n m D :=
  { s with slots := cap.set s.slots pos ⟨s.seq cap pos, v⟩ }

theorem set_data_self (pos : Nat) : setData cap s pos (s.data cap pos) = s := by
  rw [setData, State.seq, State.data, Capacity.set_get]

/-- What is left to copy once the word `k` is. -/
theorem words_left {k : Fin m} {ks : List (Fin m)} {done : Fin m → Bool} (hk : k ∉ ks)
    (hleft : ∀ j, j ∈ k :: ks ↔ done j = false) (j : Fin m) :
    j ∈ ks ↔ Function.update done k true j = false := by
  by_cases he : j = k
  · rw [he, Function.update_self]
    exact iff_of_false hk (by simp)
  · rw [Function.update_of_ne he, ← hleft]
    exact ⟨List.mem_cons_of_mem _, fun h => (List.mem_cons.mp h).resolve_left he⟩

theorem all_done {done : Fin m → Bool} (hleft : ∀ j, j ∈ ([] : List (Fin m)) ↔ done j = false) :
    done = fun _ => true := by
  funext j
  by_contra hj
  exact List.not_mem_nil ((hleft j).mpr (by simpa using hj))

section Steps

variable [Inhabited D]

/-- The payload is copied word by word; the induction is on the words left. -/
theorem words_written (w : Width) (cap : Capacity) (ks : List (Fin m)) {v : Words m D} {pos : Nat}
    {done : Fin m → Bool} (hp : s.producer = .copy v pos done)
    (hdone : ∀ k, done k = true → s.data cap pos k = v k) (hnodup : ks.Nodup)
    (hleft : ∀ k, k ∈ ks ↔ done k = false) :
    (machine n m D w cap).exec s (ks.map .producerWord) =
      some ((setData cap s pos v).atProducer (.copy v pos (fun _ => true)), []) := by
  induction ks generalizing s done with
  | nil =>
    have hall := all_done hleft
    have hdata : s.data cap pos = v := funext fun k => hdone k (by rw [hall])
    rw [← hdata, set_data_self, hdata, ← hall, State.atProducer, ← hp]
    rfl
  | cons k ks ih =>
    obtain ⟨hk, hnodup⟩ := List.nodup_cons.mp hnodup
    have hnew : done k = false := (hleft k).mp List.mem_cons_self
    have hs : (machine n m D w cap).step s (.producerWord k) =
        some ((s.storeWord cap pos k (v k)).atProducer
          (.copy v pos (Function.update done k true)), []) := by
      simp [machine, step, stepProducerWord, hp, hnew]
    have hdata : ∀ j, Function.update done k true j = true →
        ((s.storeWord cap pos k (v k)).atProducer
          (.copy v pos (Function.update done k true))).data cap pos j = v j := by
      intro j hj
      rw [data_at_producer, data_store_word, if_pos rfl]
      by_cases he : j = k
      · rw [he, Function.update_self]
      · rw [Function.update_of_ne he] at hj ⊢
        exact hdone j hj
    have hrest := ih (s := (s.storeWord cap pos k (v k)).atProducer
      (.copy v pos (Function.update done k true))) rfl hdata hnodup (words_left hk hleft)
    have hend : setData cap ((s.storeWord cap pos k (v k)).atProducer
        (.copy v pos (Function.update done k true))) pos v =
          (setData cap s pos v).atProducer (.copy v pos (Function.update done k true)) := by
      rw [setData, seq_at_producer, seq_store_word, setData]
      simp only [State.storeWord, State.atProducer, Capacity.set_set]
    rw [hend] at hrest
    exact Machine.exec_step hs hrest

/-- A call of `publish`, step by step. -/
theorem publish_exec (w : Width) (cap : Capacity) (hidle : s.producer = .idle) (v : Words m D) :
    (machine n m D w cap).exec s ([.publish (some v), .producer, .producer, .producer] ++
      (List.finRange m).map .producerWord ++ [.producer, .producer]) =
        some (publish w cap s v) := by
  have hcall : (machine n m D w cap).step s (.publish (some v)) =
      some (s.atProducer (.advance (some v)), []) := by
    simp only [machine, step, hidle]
  let pos := w.wrap (s.writePos + 1)
  let marked : State n m D := { s with
    slots := cap.set s.slots pos ⟨inProgress w pos, s.data cap pos⟩, writePos := pos }
  have hfirst : (machine n m D w cap).exec s [.publish (some v), .producer, .producer, .producer] =
      some (marked.atProducer (.copy v pos (fun _ => false)), [.began (some v)]) :=
    Machine.exec_step hcall rfl
  have hwords := words_written w cap (List.finRange m)
    (s := marked.atProducer (.copy v pos (fun _ => false))) rfl
    (fun k hk => absurd hk Bool.false_ne_true) (List.nodup_finRange m)
    (fun k => iff_of_true (List.mem_finRange k) rfl)
  let written := (setData cap (marked.atProducer (.copy v pos (fun _ => false))) pos v).atProducer
    (.copy v pos (fun _ => true))
  have hsettle : (machine n m D w cap).step written .producer =
      some ((written.storeSeq cap pos (stable w pos)).atProducer (.announce v pos), []) :=
    if_pos (fun _ => rfl)
  have hlast : (machine n m D w cap).exec written [.producer, .producer] =
      some ((publish w cap s v).1, [.published pos v]) := by
    have hend : ({ (written.storeSeq cap pos (stable w pos)).atProducer (.announce v pos) with
        published := pos } : State n m D).atProducer .idle = (publish w cap s v).1 := by
      simp only [written, marked, publish, State.atProducer, State.storeSeq, setData,
        Capacity.get_set_self, Capacity.set_set, hidle, pos]
    rw [← hend]
    exact Machine.exec_step hsettle rfl
  exact Machine.exec_trans (Machine.exec_trans hfirst hwords) hlast

/-- The words read are copied out one by one; the induction is on those left. -/
theorem words_read (w : Width) (cap : Capacity) (ks : List (Fin m)) {s1 : Nat}
    {done : Fin m → Bool} {out : Words m D} (hc : s.consumers i = some c)
    (hpc : c.pc = .copy s1 done out) (hdone : ∀ k, done k = true → out k = s.data cap c.pos k)
    (hnodup : ks.Nodup) (hleft : ∀ k, k ∈ ks ↔ done k = false) :
    (machine n m D w cap).exec s (ks.map (.readerWord i)) =
      some (s.setConsumer i { c with pc := .copy s1 (fun _ => true) (s.data cap c.pos) }, []) := by
  induction ks generalizing s c done out with
  | nil =>
    have hall := all_done hleft
    have hout : out = s.data cap c.pos := funext fun k => hdone k (by rw [hall])
    rw [← hout, ← hall, ← hpc, set_consumer_self hc]
    rfl
  | cons k ks ih =>
    obtain ⟨hk, hnodup⟩ := List.nodup_cons.mp hnodup
    have hnew : done k = false := (hleft k).mp List.mem_cons_self
    let next : Consumer m D := { c with
      pc := .copy s1 (Function.update done k true)
        (Function.update out k (s.data cap c.pos k)) }
    have hs : (machine n m D w cap).step s (.readerWord i k) =
        some (s.setConsumer i next, []) := by
      simp [machine, step, stepReaderWord, hc, hpc, hnew, next]
    have hout : ∀ j, Function.update done k true j = true →
        Function.update out k (s.data cap c.pos k) j =
          (s.setConsumer i next).data cap c.pos j := by
      intro j hj
      rw [data_set_consumer]
      by_cases he : j = k
      · rw [he, Function.update_self]
      · rw [Function.update_of_ne he] at hj ⊢
        exact hdone j hj
    have hrest := ih (s := s.setConsumer i next) (c := next) (consumers_self _ _ _) rfl hout hnodup
      (words_left hk hleft)
    rw [set_consumer_twice] at hrest
    exact Machine.exec_step hs hrest

theorem read_steps (hq : Quiet s) (i : Fin n) (out : Words m D) :
    (machine n m D w cap).Steps (fun _ _ => True) s (tryRead w cap s i out).2
      (tryRead w cap s i out).1 := by
  cases hc : s.consumers i with
  | none =>
    have hwhole : tryRead w cap s i out = (s, []) := by simp only [tryRead, hc]
    rw [hwhole]
    exact .refl
  | some c =>
    have hpc := hq.consumers i c hc
    have hback : s.setConsumer i { c with pc := .idle } = s := by
      rw [← hpc]
      exact set_consumer_self hc
    have hcall : (machine n m D w cap).step s (.tryRead i out) =
        some (s.setConsumer i { c with pc := .loadSeq out }, []) := by
      simp only [machine, step, hc, hpc]
    have hstart : (machine n m D w cap).Steps (fun _ _ => True) s []
        (s.setConsumer i { c with pc := .loadSeq out }) := .single trivial hcall
    simp only [tryRead, hc]
    by_cases hodd : s.seq cap c.pos &&& 1 = 1
    · have hs : (machine n m D w cap).step (s.setConsumer i { c with pc := .loadSeq out })
          (.reader i) = some (s, [.empty i out]) := by
        simp [machine, step, stepReader, set_consumer_twice, hback, hodd]
      rw [if_pos hodd]
      exact .step hstart trivial hs
    have heven : s.seq cap c.pos % 2 = 0 := by
      rw [Nat.and_one_is_mod] at hodd
      omega
    rw [if_neg hodd]
    by_cases hlt : s.seq cap c.pos >>> 1 < c.pos
    · have hs : (machine n m D w cap).step (s.setConsumer i { c with pc := .loadSeq out })
          (.reader i) = some (s, [.empty i out]) := by
        simp [machine, step, stepReader, set_consumer_twice, hback, hlt]
      rw [if_pos hlt]
      exact .step hstart trivial hs
    rw [if_neg hlt]
    by_cases hgt : c.pos < s.seq cap c.pos >>> 1
    · have hload : (machine n m D w cap).step (s.setConsumer i { c with pc := .loadSeq out })
          (.reader i) = some (s.setConsumer i
            { c with pc := .loadPublished (s.seq cap c.pos >>> 1) out }, []) := by
        simp [machine, step, stepReader, set_consumer_twice, heven, hlt, hgt]
      have hlapped : (machine n m D w cap).step (s.setConsumer i
            { c with pc := .loadPublished (s.seq cap c.pos >>> 1) out }) (.reader i) =
          some (lappedTo w cap s i c (s.seq cap c.pos >>> 1) out) := by
        simp [machine, step, stepReader, lappedTo, set_consumer_twice]
      rw [if_pos hgt]
      exact .step (.step hstart trivial hload) trivial hlapped
    · have hload : (machine n m D w cap).step (s.setConsumer i { c with pc := .loadSeq out })
          (.reader i) = some (s.setConsumer i
            { c with pc := .copy (s.seq cap c.pos) (fun _ => false) out }, []) := by
        simp [machine, step, stepReader, set_consumer_twice, heven, hlt, hgt]
      have hwords := words_read w cap (List.finRange m) (s := s.setConsumer i
          { c with pc := .copy (s.seq cap c.pos) (fun _ => false) out }) (consumers_self _ _ _) rfl
        (fun k hk => absurd hk Bool.false_ne_true) (List.nodup_finRange m)
        (fun k => iff_of_true (List.mem_finRange k) rfl)
      rw [set_consumer_twice, data_set_consumer] at hwords
      have hok : (machine n m D w cap).step (s.setConsumer i
            { c with pc := .copy (s.seq cap c.pos) (fun _ => true) (s.data cap c.pos) })
          (.reader i) = some (s.setConsumer i ⟨w.wrap (c.pos + 1), c.missed, .idle⟩,
            [.ok i c.pos (s.data cap c.pos)]) := by
        simp [machine, step, stepReader, set_consumer_twice]
      rw [if_neg hgt]
      exact .step ((Machine.Steps.step hstart trivial hload).trans (Machine.steps_of_exec _ hwords)) trivial hok

theorem make_steps (i : Fin n) :
    (machine n m D w cap).Steps (fun _ _ => True) s (makeConsumer w s i).2
      (makeConsumer w s i).1 := by
  unfold makeConsumer
  cases hc : s.consumers i with
  | none =>
    have hs : (machine n m D w cap).step s (.makeConsumer i) =
        some (s.setConsumer i ⟨w.wrap (s.published + 1), 0, .idle⟩,
          [.made i (w.wrap (s.published + 1))]) := by
      simp only [machine, step, hc]
    exact .single trivial hs
  | some c => exact .refl

end Steps

theorem read_quiet (hq : Quiet s) (i : Fin n) (out : Words m D) :
    Quiet (tryRead w cap s i out).1 := by
  unfold tryRead
  cases hc : s.consumers i with
  | none => exact hq
  | some c =>
    simp only
    split
    · exact hq
    · split
      · exact hq
      · split
        · unfold lappedTo
          simp only
          split
          · exact hq.set_consumer rfl
          · exact hq.set_consumer rfl
        · exact hq.set_consumer rfl

theorem call_quiet (hq : Quiet s) (c : Call n m D) : Quiet (call w cap s c).1 := by
  cases c with
  | publish v => exact ⟨hq.producer, hq.consumers⟩
  | makeConsumer i =>
    simp only [call, makeConsumer]
    cases hc : s.consumers i with
    | none => exact hq.set_consumer rfl
    | some c => exact hq
  | tryRead i out => exact read_quiet hq i out

/-- A sequence of complete calls is one of the machine's interleavings. -/
theorem calls_run [Inhabited D] (cs : List (Call n m D)) :
    (machine n m D w cap).Run (serial (call w cap) (machine n m D w cap).init cs).2
      (serial (call w cap) (machine n m D w cap).init cs).1 := by
  have hinit : Quiet (machine n m D w cap).init := ⟨rfl, fun i c hc => by cases hc⟩
  refine (steps_of_serial (Q := Quiet) ?_ hinit cs).1
  intro s c hq
  refine ⟨?_, call_quiet hq c⟩
  cases c with
  | publish v => exact Machine.steps_of_exec _ (publish_exec w cap hq.producer v)
  | makeConsumer i => exact make_steps i
  | tryRead i out => exact read_steps hq i out

end Toolbox.Proofs.OverwriteSerial
