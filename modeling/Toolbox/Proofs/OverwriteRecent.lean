import Toolbox.Base.RecentLog
import Toolbox.Proofs.OverwriteAccounting

namespace Toolbox.Proofs.OverwriteRecent
open Base RecentLog Overwrite OverwriteMoves OverwriteSeqlock OverwriteAccounting

variable {n m : Nat} {D : Type*} {cap : Capacity} {s s' t : State n m D} {a : Act n m D}
  {tr es : List (Event n m D)}

/-- No publish call whose construction of `T` throws. -/
def NoThrow (_ : State n m D) : Act n m D → Prop
  | .publish arg => arg.isSome = true
  | _ => True

instance (s : State n m D) (a : Act n m D) : Decidable (NoThrow s a) :=
  match a with
  | .publish arg => inferInstanceAs (Decidable (arg.isSome = true))
  | .producer | .producerWord _ | .makeConsumer _ | .tryRead _ _ | .reader _
  | .readerWord _ _ => isTrue trivial

/-- The items published, in order. -/
def items (tr : List (Event n m D)) : List (Words m D) :=
  tr.filterMap (fun | .published _ v => some v | _ => none)

/-- The argument of the call in progress, from the advance of `write_pos_` on. -/
def begun : ProducerPc m D → List (Option (Words m D))
  | .mark arg _ | .construct arg _ => [arg]
  | .copy v _ _ | .announce v _ => [some v]
  | .idle | .advance _ => []

def ArgOk : ProducerPc m D → Prop
  | .advance arg | .mark arg _ | .construct arg _ => arg.isSome = true
  | _ => True

/-- The last position whose payload is complete. -/
def settled (s : State n m D) : Nat :=
  match s.producer with
  | .mark _ _ | .construct _ _ | .copy _ _ _ => s.writePos - 1
  | _ => s.writePos

/-- The last position `published_` has reached. -/
def announced (s : State n m D) : Nat :=
  match s.producer with
  | .idle | .advance _ => s.writePos
  | _ => s.writePos - 1

/-- The ring holds the last lap of what is complete. -/
structure Ring (cap : Capacity) (tr : List (Event n m D)) (s : State n m D) : Prop where
  arg : ArgOk s.producer
  published : s.published = announced s
  held : ∀ p, 1 ≤ p → p ≤ settled s → marked s < p + cap.size → s.seq cap p = 2 * p
  ledger : calls tr = (items tr).map some ++ begun s.producer

theorem items_append : items (tr ++ es) = items tr ++ items es := List.filterMap_append

/-- Steps that leave the slots and the producer's counters alone. -/
theorem Ring.keep (h : Ring cap tr s) (harg : ArgOk s'.producer)
    (hpublished : s'.published = s.published) (hannounced : announced s' = announced s)
    (hsettled : settled s' = settled s) (hmarked : marked s' = marked s)
    (hslots : s'.slots = s.slots)
    (hledger : calls (tr ++ es) = (items (tr ++ es)).map some ++ begun s'.producer) :
    Ring cap (tr ++ es) s' := by
  refine ⟨harg, ?_, ?_, hledger⟩
  · rw [hpublished, hannounced]
    exact h.published
  · intro p h1 hle hlt
    rw [hsettled] at hle
    rw [hmarked] at hlt
    have hseq := h.held p h1 hle hlt
    rwa [State.seq, hslots]

theorem Ring.silent (h : Ring cap tr s) (hcalls : calls es = []) (hitems : items es = [])
    (hbegun : begun s'.producer = begun s.producer) :
    calls (tr ++ es) = (items (tr ++ es)).map some ++ begun s'.producer := by
  rw [calls_append, items_append, hcalls, hitems, List.append_nil, List.append_nil, hbegun]
  exact h.ledger

/-- A store to the slot of the position being written misses every slot held. -/
theorem Ring.store_seq (h : Ring cap tr s) {p x : Nat} (h1 : 1 ≤ p) (hle : p ≤ settled s)
    (hlt : s.writePos < p + cap.size) (hnot : p < s.writePos) (hmarked : marked s ≤ s.writePos) :
    (s.storeSeq cap s.writePos x).seq cap p = 2 * p := by
  have hne : cap.index p ≠ cap.index s.writePos := cap.index_ne (by omega) (by omega) (by omega)
  rw [seq_store_seq, if_neg hne]
  exact h.held p h1 hle (by omega)

theorem move_ring (hi : Inv cap (calls tr) s) (h : Ring cap tr s) (hok : NoThrow s a)
    (hm : Move cap s a s' es) : Ring cap (tr ++ es) s' := by
  have hprod := hi.producer
  have harg := h.arg
  have hledger := h.ledger
  have hpublished := h.published
  cases hm with
  | call hp =>
    exact h.keep hok rfl (by simp [announced, hp]) (by simp [settled, hp]) (by simp [marked, hp])
      rfl (h.silent rfl rfl (by simp [begun, hp]))
  | @advance arg hp =>
    rw [hp] at harg
    simp only [announced, hp] at hpublished
    refine ⟨harg, ?_, ?_, ?_⟩
    · change s.published = s.writePos + 1 - 1
      rw [Nat.add_sub_cancel]
      exact hpublished
    · intro p h1 hle hlt
      exact h.held p h1 (by simpa [settled, hp] using hle) (by simpa [marked, hp] using hlt)
    · rw [calls_append, items_append, hledger, hp]
      simp [calls, items, begun]
  | @mark arg pos hp =>
    rw [hp] at harg hprod
    obtain ⟨rfl, hpos, _⟩ := hprod
    simp only [announced, hp] at hpublished
    refine ⟨harg, hpublished, ?_, h.silent rfl rfl (by simp [begun, hp])⟩
    intro p h1 hle hlt
    have hle' : p ≤ s.writePos - 1 := hle
    exact h.store_seq h1 (by simpa [settled, hp] using hle') hlt (by omega) (marked_le s)
  | threw hp =>
    rw [hp] at harg
    cases harg
  | build hp =>
    exact h.keep trivial rfl (by simp [announced, hp]) (by simp [settled, hp])
      (by simp [marked, hp]) rfl (h.silent rfl rfl (by simp [begun, hp]))
  | @word v pos done k hp hk =>
    simp only [announced, hp] at hpublished
    refine ⟨trivial, hpublished, ?_, h.silent rfl rfl (by simp [begun, hp])⟩
    intro p h1 hle hlt
    rw [seq_at_producer, seq_store_word]
    exact h.held p h1 (by simpa [settled, hp, State.storeWord] using hle)
      (by simpa [marked, hp, State.storeWord] using hlt)
  | @settle v pos done hp hdone =>
    rw [hp] at hprod
    obtain ⟨rfl, hpos, _⟩ := hprod
    simp only [announced, hp] at hpublished
    refine ⟨trivial, hpublished, ?_, h.silent rfl rfl (by simp [begun, hp])⟩
    intro p h1 hle hlt
    have hle' : p ≤ s.writePos := hle
    rcases Nat.lt_or_eq_of_le hle' with hbefore | rfl
    · exact h.store_seq h1 (by simp only [settled, hp]; omega) hlt hbefore (marked_le s)
    · simp [seq_store_seq]
  | @announce v pos hp =>
    rw [hp] at hprod
    obtain rfl : pos = s.writePos := hprod
    refine ⟨trivial, rfl, ?_, ?_⟩
    · intro p h1 hle hlt
      exact h.held p h1 (by simpa [settled, hp] using hle) (by simpa [marked, hp] using hlt)
    · rw [calls_append, items_append, hledger, hp]
      simp [calls, items, begun]
  | make _ => exact h.keep harg rfl rfl rfl rfl rfl (h.silent rfl rfl rfl)
  | reader hc hm =>
    have hcalls : calls es = [] := by cases hm <;> rfl
    have hitems : items es = [] := by cases hm <;> rfl
    exact h.keep harg rfl rfl rfl rfl rfl (h.silent hcalls hitems rfl)

theorem run_ring [Inhabited D] (hr : (machine n m D none cap).RunWhere NoThrow tr s) :
    Ring cap tr s := by
  refine Machine.Steps.invariant (I := Ring cap) ?_ ?_ hr
  · refine ⟨trivial, rfl, ?_, rfl⟩
    intro p h1 hle
    have hle' : p ≤ 0 := hle
    omega
  · intro tr s a s' es hr h hok hs
    exact move_ring (run_inv (Machine.RunWhere.run hr)) h hok (step_moves hs)

/-- No publish call begins. -/
def Quiet (_ : State n m D) : Act n m D → Prop
  | .publish _ => False
  | _ => True

instance (s : State n m D) (a : Act n m D) : Decidable (Quiet s a) :=
  match a with
  | .publish _ => isFalse id
  | .producer | .producerWord _ | .makeConsumer _ | .tryRead _ _ | .reader _
  | .readerWord _ _ => isTrue trivial

/-- What consumer `i` was told, call by call. -/
def answers (i : Fin n) (tr : List (Event n m D)) : List (Answer (Words m D)) :=
  tr.filterMap (fun
    | .ok j pos out => if j = i then some (.item pos out) else none
    | .empty j _ => if j = i then some .nothing else none
    | .lapped j _ target _ _ => if j = i then some (.skipped target) else none
    | _ => none)

theorem answers_append (i : Fin n) : answers i (tr ++ es) = answers i tr ++ answers i es :=
  List.filterMap_append

theorem Ring.length (h : Ring cap tr s) (hi : Inv cap (calls tr) s) (hidle : s.producer = .idle) :
    (items tr).length = s.writePos := by
  have hcount := hi.count
  have hledger := h.ledger
  rw [hidle] at hledger
  rw [hledger] at hcount
  simpa [begun] using hcount

/-- Between publishes the slots of the last lap hold it. -/
theorem Ring.kept (h : Ring cap tr s) (hidle : s.producer = .idle) {p : Nat} (h1 : 1 ≤ p)
    (hle : p ≤ s.writePos) (hlt : s.writePos < p + cap.size) : s.seq cap p = 2 * p :=
  h.held p h1 (by simpa [settled, hidle] using hle) (by simpa [marked, hidle] using hlt)

theorem Ring.lost (h : Ring cap tr s) (hidle : s.producer = .idle) {p : Nat}
    (hle : p + cap.size ≤ s.writePos) : s.seq cap p % 2 = 0 ∧ p < s.seq cap p / 2 := by
  obtain ⟨q, hlow, hhigh, hcell⟩ := cap.exists_in_lap (s.writePos - cap.size + 1) p
  have hseq := h.kept hidle (p := q) (by omega) (by omega) (by omega)
  have hsame : s.seq cap p = s.seq cap q := by simp only [State.seq, cap.get_congr _ hcell]
  omega

theorem Ring.next (h : Ring cap tr s) (hi : Inv cap (calls tr) s) (hidle : s.producer = .idle) :
    s.seq cap (s.writePos + 1) % 2 = 0 ∧ s.seq cap (s.writePos + 1) / 2 < s.writePos + 1 := by
  have hpos := cap.size_pos
  have hfirst : ∀ p, 1 ≤ p → p ≤ marked s → cap.index p = cap.index (s.writePos + 1) →
      cap.size ≤ s.writePos := by
    intro p h1 hle hcell
    by_contra hlt
    have hmarked := marked_le s
    have := cap.index_inj hcell (by omega) (by omega)
    omega
  rcases Nat.lt_or_ge s.writePos cap.size with hlt | hge
  · cases hi.slot (s.writePos + 1) with
    | fresh hseq => omega
    | busy p h1 hle hcell hseq | stable p h1 hle hcell hseq _ =>
      have := hfirst p h1 hle hcell
      omega
  · have hcell : cap.index (s.writePos + 1 - cap.size) = cap.index (s.writePos + 1) := by
      rw [← cap.index_add_size (s.writePos + 1 - cap.size), Nat.sub_add_cancel (by omega)]
    have hseq := h.kept hidle (p := s.writePos + 1 - cap.size) (by omega) (by omega) (by omega)
    have hsame : s.seq cap (s.writePos + 1) = s.seq cap (s.writePos + 1 - cap.size) := by
      simp only [State.seq, cap.get_congr _ hcell]
    omega

/-- What a call that began between publishes has found out so far. -/
def Midway (C W : Nat) (c : Consumer m D) : Prop :=
  match c.pc with
  | .copy s1 _ _ => s1 = 2 * c.pos ∧ c.pos ≤ W ∧ W < c.pos + C
  | .loadPublished _ _ => c.pos + C ≤ W
  | _ => True

/-- Between publishes a call ends with what a log of the last lap would answer. -/
theorem reader_answers (hi : Inv cap (calls tr) s) (h : Ring cap tr s)
    (hidle : s.producer = .idle) {i : Fin n} {c c' : Consumer m D}
    (hc : s.consumers i = some c) (hmid : Midway cap.size s.writePos c)
    (hm : ReaderMove cap s i c a c' es) :
    (answers i es = [] ∧ c'.pos = c.pos ∧ c'.missed = c.missed ∧
      Midway cap.size s.writePos c') ∨
    ∃ ans, answers i es = [ans] ∧ c'.pc = .idle ∧
      read cap.size (items tr) ⟨c.pos, c.missed⟩ = (ans, ⟨c'.pos, c'.missed⟩) := by
  have hlen := h.length hi hidle
  have hpos := cap.size_pos
  obtain ⟨h1, hle⟩ := hi.place i c hc
  have hparity : s.seq cap c.pos % 2 = 0 ∧
      (c.pos + cap.size ≤ s.writePos ∧ c.pos < s.seq cap c.pos / 2 ∨
        c.pos ≤ s.writePos ∧ s.writePos < c.pos + cap.size ∧ s.seq cap c.pos = 2 * c.pos ∨
        c.pos = s.writePos + 1 ∧ s.seq cap c.pos / 2 < c.pos) := by
    rcases Nat.lt_or_ge s.writePos (c.pos + cap.size) with hlt | hge
    · rcases Nat.lt_or_eq_of_le hle with hin | hend
      · have hseq := h.kept hidle h1 (Nat.le_of_lt_succ hin) hlt
        exact ⟨by omega, .inr (.inl ⟨by omega, hlt, hseq⟩)⟩
      · have hnext := h.next hi hidle
        rw [← hend] at hnext
        exact ⟨hnext.1, .inr (.inr ⟨hend, hnext.2⟩)⟩
    · have hlost := h.lost hidle hge
      exact ⟨hlost.1, .inl ⟨hge, hlost.2⟩⟩
  obtain ⟨heven, hplace⟩ := hparity
  cases hm with
  | call => exact .inl ⟨rfl, rfl, rfl, trivial⟩
  | busy hpc hodd => omega
  | @early out hpc _ hlt =>
    refine .inr ⟨.nothing, by simp [answers], rfl, ?_⟩
    exact read_nothing (by simp only; omega)
  | passed hpc _ hlt => exact .inl ⟨rfl, rfl, rfl, by simp only [Midway]; omega⟩
  | matched hpc hseq => exact .inl ⟨rfl, rfl, rfl, by simp only [Midway]; omega⟩
  | word k hpc hk =>
    simp only [Midway, hpc] at hmid
    exact .inl ⟨rfl, rfl, rfl, hmid⟩
  | @ok s1 done out hpc hdone hsame =>
    simp only [Midway, hpc] at hmid
    have hvalue := hi.ok_value hc hpc hdone hsame
    have hledger := h.ledger
    rw [hidle] at hledger
    rw [hledger] at hvalue
    refine .inr ⟨.item c.pos out, by simp [answers], rfl, ?_⟩
    exact read_item h1 (by simp only; omega) (by simpa [begun] using hvalue)
  | torn hpc hdone hdiff =>
    simp only [Midway, hpc] at hmid
    omega
  | @lapped newest out target hpc htarget hlt =>
    simp only [Midway, hpc] at hmid
    have hpublished := h.published
    simp only [announced, hidle] at hpublished
    rw [lapped_target_none h1, hpublished, if_pos hmid] at htarget
    subst htarget
    refine .inr ⟨.skipped (s.writePos - cap.size + 1), by simp [answers], rfl, ?_⟩
    rw [read_skipped h1 (by simp only; omega), hlen]
  | stayed hpc hle =>
    have := (hi.lapped_target hc hpc).1
    omega

theorem answers_other {i : Fin n} (h : ∀ e ∈ es, returning e ≠ some i) : answers i es = [] := by
  refine List.filterMap_eq_nil_iff.mpr ?_
  intro e he
  have hne := h e he
  cases e with
  | ok j | empty j | lapped j => exact if_neg (fun hj => hne (congrArg some hj))
  | began | threw | published | made => rfl

/-- Between publishes only consumers move, and handles are made. -/
theorem quiet_move (hidle : s.producer = .idle) (hok : Quiet s a) (hm : Move cap s a s' es) :
    s'.producer = .idle ∧ s'.writePos = s.writePos ∧ items es = [] := by
  cases hm with
  | call => exact hok.elim
  | advance hp | mark hp | threw hp | build hp | word hp | settle hp | announce hp =>
    rw [hidle] at hp
    cases hp
  | make _ => exact ⟨hidle, rfl, rfl⟩
  | reader hc hm =>
    refine ⟨hidle, rfl, ?_⟩
    cases hm <;> rfl

/-- As long as no publish begins, a consumer reads the log of the last lap. -/
theorem quiet_reads [Inhabited D] {later : List (Event n m D)}
    (hr : (machine n m D none cap).RunWhere NoThrow tr s) (hidle : s.producer = .idle)
    {i : Fin n} {c : Consumer m D} (hc : s.consumers i = some c) (hpc : c.pc = .idle)
    (hsteps : (machine n m D none cap).Steps Quiet s later t) :
    t.producer = .idle ∧ t.writePos = s.writePos ∧ items later = [] ∧
      ∃ c', t.consumers i = some c' ∧ Midway cap.size s.writePos c' ∧
        reads cap.size (items tr) ⟨c.pos, c.missed⟩ (answers i later).length =
          (answers i later, ⟨c'.pos, c'.missed⟩) := by
  refine Machine.Steps.invariant (I := fun later t => t.producer = .idle ∧
    t.writePos = s.writePos ∧ items later = [] ∧ ∃ c', t.consumers i = some c' ∧
      Midway cap.size s.writePos c' ∧
      reads cap.size (items tr) ⟨c.pos, c.missed⟩ (answers i later).length =
        (answers i later, ⟨c'.pos, c'.missed⟩)) ?_ ?_ hsteps
  · exact ⟨hidle, rfl, rfl, c, hc, by simp [Midway, hpc], rfl⟩
  · rintro later t a u es htu ⟨ht, hwrite, hitems, c', hc', hmid, hreads⟩ hok hs
    have hall : (machine n m D none cap).RunWhere NoThrow (tr ++ later) t := by
      refine hr.trans (htu.weaken ?_)
      intro s a h
      cases a <;> trivial
    have hsame : items (tr ++ later) = items tr := by rw [items_append, hitems, List.append_nil]
    have hm : Move cap t a u es := step_moves hs
    obtain ⟨hu, hwrite', hitems'⟩ := quiet_move ht hok hm
    refine ⟨hu, hwrite'.trans hwrite, by rw [items_append, hitems, hitems']; rfl, ?_⟩
    rw [answers_append]
    rcases move_consumer hm hc' with ⟨hkeep, hother⟩ | ⟨d, hd, hmove⟩
    · rw [answers_other hother, List.append_nil]
      exact ⟨c', hkeep, hmid, hreads⟩
    · rw [← hwrite] at hmid
      have hend := reader_answers (run_inv (Machine.RunWhere.run hall)) (run_ring hall) ht hc'
        hmid hmove
      rw [hwrite, hsame] at hend
      refine ⟨d, hd, ?_⟩
      rcases hend with ⟨hnone, hpos, hmissed, hmid'⟩ | ⟨ans, hone, hidle', hread⟩
      · rw [hnone, List.append_nil, hpos, hmissed]
        exact ⟨hmid', hreads⟩
      · rw [hone, List.length_append, List.length_singleton, RecentLog.reads, hreads]
        simp only [hread]
        exact ⟨by simp [Midway, hidle'], trivial⟩

section Completion

variable [Inhabited D] {i : Fin n} {c : Consumer m D}

/-- Left to itself the call of consumer `i` ends, with one answer. -/
def Completes (cap : Capacity) (i : Fin n) (s : State n m D) : Prop :=
  ∃ as t tr c, (∀ a ∈ as, a = .reader i ∨ ∃ k, a = .readerWord i k) ∧
    (machine n m D none cap).exec s as = some (t, tr) ∧ t.consumers i = some c ∧
    c.pc = .idle ∧ (answers i tr).length = 1

theorem Completes.step (hown : a = .reader i ∨ ∃ k, a = .readerWord i k)
    (hs : Overwrite.step none cap s a = some (s', es)) (hes : answers i es = [])
    (h : Completes cap i s') : Completes cap i s := by
  obtain ⟨as, t, tr, c, has, hexec, hc, hpc, hone⟩ := h
  refine ⟨a :: as, t, es ++ tr, c, ?_, ?_, hc, hpc, ?_⟩
  · intro b hb
    rcases List.mem_cons.mp hb with rfl | hb
    · exact hown
    · exact has b hb
  · exact Machine.exec_step (M := machine n m D none cap) hs hexec
  · rw [answers_append, hes, List.nil_append]
    exact hone

theorem completes_now (hs : Overwrite.step none cap s (.reader i) =
    some (s.setConsumer i c, es)) (hpc : c.pc = .idle) (hone : (answers i es).length = 1) :
    Completes cap i s := by
  refine ⟨[.reader i], s.setConsumer i c, es, c, by simp, ?_, by simp, hpc, hone⟩
  have hexec : (machine n m D none cap).exec s [.reader i] =
      some (s.setConsumer i c, es ++ []) := Machine.exec_step hs rfl
  simpa using hexec

theorem lapped_completes {newest : Nat} {out : Words m D} (hc : s.consumers i = some c)
    (hpc : c.pc = .loadPublished newest out) : Completes cap i s := by
  have hs : Overwrite.step none cap s (.reader i) =
      some (lappedTo none cap s i c newest out) := by
    simp [Overwrite.step, stepReader, hc, hpc]
  unfold lappedTo at hs
  simp only at hs
  split at hs
  · exact completes_now hs rfl (by simp [answers])
  · exact completes_now hs rfl (by simp [answers])

theorem copied_completes {s1 : Nat} {done : Fin m → Bool} {out : Words m D}
    (hc : s.consumers i = some c) (hpc : c.pc = .copy s1 done out) (hdone : ∀ k, done k = true) :
    Completes cap i s := by
  by_cases hsame : s1 = s.seq cap c.pos
  · have hs : Overwrite.step none cap s (.reader i) =
        some (s.setConsumer i ⟨c.pos + 1, c.missed, .idle⟩, [.ok i c.pos out]) := by
      simp [Overwrite.step, stepReader, hc, hpc, hdone, ← hsame]
    exact completes_now hs rfl (by simp [answers])
  · have hs : Overwrite.step none cap s (.reader i) = some (s.setConsumer i
        { c with pc := .loadPublished (s.seq cap c.pos >>> 1) out }, []) := by
      simp [Overwrite.step, stepReader, hc, hpc, hdone, hsame]
    exact .step (.inl rfl) hs rfl (lapped_completes (consumers_self _ _ _) rfl)

/-- The words are copied one after another; the induction is on those left. -/
theorem copy_completes (ks : List (Fin m)) {s1 : Nat} {done : Fin m → Bool} {out : Words m D}
    (hc : s.consumers i = some c) (hpc : c.pc = .copy s1 done out)
    (hleft : ∀ k, done k = true ∨ k ∈ ks) : Completes cap i s := by
  induction ks generalizing s c done out with
  | nil => exact copied_completes hc hpc (fun k => (hleft k).resolve_right List.not_mem_nil)
  | cons k ks ih =>
    by_cases hk : done k = true
    · refine ih hc hpc ?_
      intro j
      rcases hleft j with hj | hj
      · exact .inl hj
      · rcases List.mem_cons.mp hj with rfl | hj
        · exact .inl hk
        · exact .inr hj
    · have hs : Overwrite.step none cap s (.readerWord i k) = some (s.setConsumer i
          { c with pc := .copy s1 (Function.update done k true)
                    (Function.update out k (s.data cap c.pos k)) }, []) := by
        simp [Overwrite.step, stepReaderWord, hc, hpc, hk]
      refine .step (.inr ⟨k, rfl⟩) hs rfl (ih (consumers_self _ _ _) rfl ?_)
      intro j
      by_cases hj : j = k
      · simp [hj]
      · rcases hleft j with hdone | hmem
        · simp [Function.update_apply, hdone]
        · exact .inr ((List.mem_cons.mp hmem).resolve_left hj)

theorem read_completes {out : Words m D} (hc : s.consumers i = some c)
    (hpc : c.pc = .loadSeq out) : Completes cap i s := by
  have hs : Overwrite.step none cap s (.reader i) = stepReader none cap s i c := by
    simp [Overwrite.step, hc]
  simp only [stepReader, hpc] at hs
  split at hs
  · exact completes_now hs rfl (by simp [answers])
  · split at hs
    · exact completes_now hs rfl (by simp [answers])
    · split at hs
      · exact .step (.inl rfl) hs rfl (lapped_completes (consumers_self _ _ _) rfl)
      · refine .step (.inl rfl) hs rfl (copy_completes (List.finRange m)
          (consumers_self _ _ _) rfl ?_)
        exact fun k => .inr (List.mem_finRange k)

end Completion

/-- Between publishes the queue is a log of its last lap: what a call answers,
what repeated calls answer, and that every call ends. -/
theorem recent_log [Inhabited D] (hr : (machine n m D none cap).RunWhere NoThrow tr s)
    (hidle : s.producer = .idle) {i : Fin n} {c : Consumer m D} (hc : s.consumers i = some c)
    (hpc : c.pc = .idle) :
    c.pos ≤ (items tr).length + 1 ∧
    (∀ later t c' ans, (machine n m D none cap).Steps Quiet s later t →
      t.consumers i = some c' → answers i later = [ans] →
      ((∃ v, (items tr)[c.pos - 1]? = some v ∧ ans = .item c.pos v ∧ c'.pos = c.pos + 1 ∧
        c'.missed = c.missed) ↔
          (items tr).length - cap.size + 1 ≤ c.pos ∧ c.pos ≤ (items tr).length) ∧
      ((ans = .nothing ∧ c'.pos = c.pos ∧ c'.missed = c.missed) ↔
        c.pos = (items tr).length + 1) ∧
      ((ans = .skipped ((items tr).length - cap.size + 1) ∧
        c'.pos = (items tr).length - cap.size + 1 ∧
        c'.missed = c.missed + ((items tr).length - cap.size + 1 - c.pos)) ↔
          c.pos + cap.size ≤ (items tr).length)) ∧
    (∀ later t, (machine n m D none cap).Steps Quiet s later t →
      answers i later =
        ((if c.pos < oldest cap.size (items tr) then
            [Answer.skipped (oldest cap.size (items tr))] else []) ++
          itemsFrom (items tr) (max c.pos (oldest cap.size (items tr))) ++
          List.replicate (answers i later).length Answer.nothing).take
            (answers i later).length) ∧
    (∀ out, (machine n m D none cap).step s (.tryRead i out) =
        some (s.setConsumer i { c with pc := .loadSeq out }, []) ∧
      Completes cap i (s.setConsumer i { c with pc := .loadSeq out })) := by
  have hi := run_inv (Machine.RunWhere.run hr)
  have hlen := (run_ring hr).length hi hidle
  obtain ⟨h1, hle⟩ := hi.place i c hc
  refine ⟨by omega, ?_, ?_, ?_⟩
  · intro later t c' ans hsteps hc' hans
    obtain ⟨_, _, _, d, hd, _, hreads⟩ := quiet_reads hr hidle hc hpc hsteps
    rw [hc'] at hd
    obtain rfl := Option.some.inj hd
    have hread : read cap.size (items tr) ⟨c.pos, c.missed⟩ = (ans, ⟨c'.pos, c'.missed⟩) := by
      rw [hans] at hreads
      simp only [List.length_singleton, RecentLog.reads, List.nil_append, Prod.mk.injEq,
        List.cons.injEq, and_true] at hreads
      exact Prod.ext hreads.1 hreads.2
    exact read_exact cap.size_pos h1 (by simp only; omega) hread
  · intro later t hsteps
    obtain ⟨_, _, _, d, _, _, hreads⟩ := quiet_reads hr hidle hc hpc hsteps
    have hall : (reads cap.size (items tr) ⟨c.pos, c.missed⟩ (answers i later).length).1 = _ :=
      reads_all (Nat.le_refl (answers i later).length) h1
    rw [hreads] at hall
    exact hall
  · intro out
    refine ⟨?_, read_completes (consumers_self _ _ _) rfl⟩
    simp only [machine, Overwrite.step, hc, hpc]

/-- Three one-word items on two slots, with a consumer that subscribed first. -/
def threeItems (i j : Fin 1) : List (Act 1 1 Nat) :=
  [.makeConsumer i,
   .publish (some ![7]), .producer, .producer, .producer, .producerWord j, .producer, .producer,
   .publish (some ![8]), .producer, .producer, .producer, .producerWord j, .producer, .producer,
   .publish (some ![9]), .producer, .producer, .producer, .producerWord j, .producer, .producer]

theorem recent_log_three_items : ∃ tr s c, (machine 1 1 Nat none twoSlots.toCapacity).RunWhere
      NoThrow tr s ∧ s.consumers 0 = some c ∧ items tr = [![7], ![8], ![9]] ∧ c.pos = 1 ∧
    ∀ later t c' ans, (machine 1 1 Nat none twoSlots.toCapacity).Steps Quiet s later t →
      t.consumers 0 = some c' → answers 0 later = [ans] →
      ans = .skipped 2 ∧ c'.pos = 2 ∧ c'.missed = 1 := by
  have hr : (machine 1 1 Nat none twoSlots.toCapacity).RunWhere NoThrow _ _ :=
    Machine.run_where_of_exec (threeItems 0 0) rfl
  refine ⟨_, _, _, hr, rfl, rfl, rfl, ?_⟩
  intro later t c' ans hsteps hc' hans
  have hread := (recent_log hr rfl (i := 0) rfl rfl).2.1 later t c' ans hsteps hc' hans
  exact hread.2.2.mpr (by decide)

end Toolbox.Proofs.OverwriteRecent
