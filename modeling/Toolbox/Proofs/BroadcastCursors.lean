import Mathlib.Data.List.Infix
import Toolbox.Proofs.BroadcastMoves

namespace Toolbox.Proofs.BroadcastCursors
open Base Broadcast BroadcastMoves

variable {n : Nat} {T : Type*} {cap : RingCapacity} {s s' : State n T} {a : Act n T}
  {log : List T} {es : List (Event n T)}

/-- A callback returns normally only while its own position is still the next
one to be consumed, which nested calls on the same handle may have changed. -/
def Steady (s : State n T) : Act n T → Prop
  | .consumer i => ∀ call pos rest, s.consumers i = .callback call pos :: rest →
      s.cursors i = pos
  | _ => True

/-- The positions whose slots the producer may have assigned. -/
def limit (s : State n T) : Nat :=
  match s.producer with
  | .storeTail _ t => t + 1
  | _ => s.tail

/-- What the scan has seen bounds the cursors it has passed; past the gate no
consumer is a whole lap behind. -/
def ProducerOk (cap : Capacity) (s : State n T) : ProducerPc n T → Prop
  | .idle | .loadTail _ => True
  | .scan _ t i least => t = s.tail ∧ ∀ j, j < i → least ≤ s.cursors j
  | .construct _ t | .assign _ t => t = s.tail ∧ ∀ j, t < s.cursors j + cap.size
  | .storeTail v t => t = s.tail ∧ s.item cap t = v

/-- A callback in progress, seen from a consumer whose cursor is `c`. -/
def Suspended (c : Nat) (log : List T) : Frame T → Prop
  | .callback _ pos => pos ≤ c ∧ pos < log.length
  | _ => False

def FrameOk (c : Nat) (log : List T) : Frame T → Prop
  | .loadCursor _ => True
  | .loadTail _ pos => pos = c
  | .enter _ pos => pos = c ∧ pos < log.length
  | .callback _ pos => pos ≤ c ∧ pos < log.length
  | .storeCursor _ pos v => pos = c ∧ log[pos]? = some v

/-- Only the topmost activation moves; the ones below wait in their callbacks. -/
def StackOk (c : Nat) (log : List T) : List (Frame T) → Prop
  | [] => True
  | f :: rest => FrameOk c log f ∧ ∀ g ∈ rest, Suspended c log g

structure Inv (cap : Capacity) (log : List T) (s : State n T) : Prop where
  tail : s.tail = log.length
  behind : ∀ i, s.cursors i ≤ log.length
  cached : ∀ i, s.cachedMin ≤ s.cursors i
  room : ∀ i, limit s ≤ s.cursors i + cap.size
  producer : ProducerOk cap s s.producer
  consumer : ∀ i, StackOk (s.cursors i) log (s.consumers i)
  slot : ∀ p, p < log.length → limit s ≤ p + cap.size → log[p]? = some (s.item cap p)

theorem initial_inv [Inhabited T] :
    Inv cap.toCapacity [] (machine n T none cap.toCapacity).init := by
  refine ⟨rfl, ?_, ?_, ?_, trivial, ?_, ?_⟩
  · exact fun _ => Nat.le_refl _
  · exact fun _ => Nat.le_refl _
  · exact fun _ => Nat.zero_le _
  · exact fun _ => trivial
  · intro p hlt
    cases hlt

theorem Suspended.frame_ok {c : Nat} {f : Frame T} (h : Suspended c log f) :
    FrameOk c log f := by
  cases f with
  | callback call pos => exact h
  | _ => exact h.elim

theorem StackOk.pop {c : Nat} {f : Frame T} {rest : List (Frame T)}
    (h : StackOk c log (f :: rest)) : StackOk c log rest := by
  cases rest with
  | nil => trivial
  | cons g rest =>
    refine ⟨(h.2 g (by simp)).frame_ok, ?_⟩
    intro k hk
    exact h.2 k (by simp [hk])

theorem Suspended.later {c c' : Nat} {f : Frame T} (h : Suspended c log f) (hle : c ≤ c') :
    Suspended c' log f := by
  cases f with
  | callback call pos => exact ⟨Nat.le_trans h.1 hle, h.2⟩
  | _ => exact h.elim

/-- Suspended activations do not mind that the cursor moves on. -/
theorem StackOk.advance {c : Nat} {f : Frame T} {rest : List (Frame T)}
    (h : StackOk c log (f :: rest)) : StackOk (c + 1) log rest := by
  cases rest with
  | nil => trivial
  | cons g rest =>
    have hlater : ∀ k ∈ g :: rest, Suspended (c + 1) log k :=
      fun k hk => (h.2 k hk).later (Nat.le_succ c)
    refine ⟨(hlater g (by simp)).frame_ok, ?_⟩
    intro k hk
    exact hlater k (by simp [hk])

theorem StackOk.extend {c : Nat} {v : T} {stack : List (Frame T)} (h : StackOk c log stack) :
    StackOk c (log ++ [v]) stack := by
  have hsuspended : ∀ f, Suspended c log f → Suspended c (log ++ [v]) f := by
    intro f hf
    cases f with
    | callback call pos => exact ⟨hf.1, by simpa using Nat.lt_succ_of_lt hf.2⟩
    | _ => exact hf.elim
  cases stack with
  | nil => trivial
  | cons f rest =>
    refine ⟨?_, fun g hg => hsuspended g (h.2 g hg)⟩
    have hf := h.1
    cases f with
    | loadCursor => trivial
    | loadTail => exact hf
    | enter | callback => exact ⟨hf.1, by simpa using Nat.lt_succ_of_lt hf.2⟩
    | storeCursor call pos w =>
      refine ⟨hf.1, ?_⟩
      rw [List.getElem?_append_left (List.getElem?_eq_some_iff.mp hf.2).1]
      exact hf.2

theorem Inv.at_consumer (hi : Inv cap.toCapacity log s) {i : Fin (n + 1)}
    {stack : List (Frame T)} (hok : StackOk (s.cursors i) log stack) :
    Inv cap.toCapacity log (s.atConsumer i stack) := by
  refine ⟨hi.tail, hi.behind, hi.cached, hi.room, hi.producer, ?_, hi.slot⟩
  intro j
  by_cases he : j = i
  · simpa [he] using hok
  · simpa [he] using hi.consumer j

theorem Inv.at_producer (hi : Inv cap.toCapacity log s) {pc : ProducerPc n T}
    (hok : ProducerOk cap.toCapacity s pc) (hlimit : limit (s.atProducer pc) = limit s) :
    Inv cap.toCapacity log (s.atProducer pc) := by
  refine ⟨hi.tail, hi.behind, hi.cached, ?_, hok, hi.consumer, ?_⟩
  · intro i
    rw [hlimit]
    exact hi.room i
  · rw [hlimit]
    exact hi.slot

theorem scan_least_le (i : Fin (n + 1)) (least c : Nat) : scanLeast i least c ≤ c := by
  unfold scanLeast
  split
  · exact Nat.le_refl _
  · split
    · exact Nat.le_refl _
    · omega

theorem scan_least_keeps {i : Fin (n + 1)} (hi : i ≠ 0) (least c : Nat) :
    scanLeast i least c ≤ least := by
  unfold scanLeast
  rw [if_neg hi]
  split <;> omega

theorem scan_least_cases (i : Fin (n + 1)) (least c : Nat) :
    scanLeast i least c = c ∨ i ≠ 0 ∧ scanLeast i least c = least := by
  unfold scanLeast
  split
  · exact .inl rfl
  · rename_i hi
    split
    · exact .inl rfl
    · exact .inr ⟨hi, rfl⟩

/-- Loading the next cursor extends what the running minimum bounds. -/
theorem scan_step {arg : Option T} {t : Nat} {i : Fin (n + 1)} {least : Nat}
    (h : ProducerOk cap.toCapacity s (.scan arg t i least)) {j : Fin (n + 1)} (hj : j ≤ i) :
    scanLeast i least (s.cursors i) ≤ s.cursors j := by
  by_cases he : j = i
  · subst he
    exact scan_least_le _ _ _
  · have hlt : j < i := Nat.lt_of_le_of_ne hj (fun hval => he (Fin.ext hval))
    have hne : i ≠ 0 := by
      rintro rfl
      exact absurd hlt (Fin.not_lt_zero j)
    exact Nat.le_trans (scan_least_keeps hne _ _) (h.2 j hlt)

/-- The gate lets the producer on only with room behind every cursor. -/
theorem producer_move_ok (hcached : ∀ i, s.cachedMin ≤ s.cursors i)
    (hprod : ProducerOk cap.toCapacity s s.producer) {pc : ProducerPc n T}
    (hm : ProducerMove cap.toCapacity s pc es) :
    ProducerOk cap.toCapacity s pc ∧ limit (s.atProducer pc) = limit s := by
  cases hm with
  | call hp => exact ⟨trivial, by simp [limit, hp]⟩
  | rescan hp hfull =>
    refine ⟨⟨rfl, ?_⟩, by simp [limit, hp]⟩
    intro j hj
    exact absurd hj (Fin.not_lt_zero j)
  | room hp hroom =>
    refine ⟨⟨rfl, ?_⟩, by simp [limit, hp]⟩
    intro j
    have hj := hcached j
    omega
  | @next arg t i least hp h =>
    rw [hp] at hprod
    refine ⟨⟨hprod.1, ?_⟩, by simp [limit, hp]⟩
    intro j hj
    apply scan_step hprod
    exact Nat.lt_succ_iff.mp hj
  | threw hp => exact ⟨trivial, by simp [limit, hp]⟩
  | build hp =>
    rw [hp] at hprod
    exact ⟨hprod, by simp [limit, hp]⟩

/-- Cursors that move on leave the producer all the room it has seen. -/
theorem ProducerOk.grow {pc : ProducerPc n T} (h : ProducerOk cap.toCapacity s pc)
    (htail : s'.tail = s.tail) (hslots : s'.slots = s.slots)
    (hgrow : ∀ j, s.cursors j ≤ s'.cursors j) : ProducerOk cap.toCapacity s' pc := by
  cases pc with
  | idle | loadTail => trivial
  | scan arg t k least =>
    exact ⟨h.1.trans htail.symm, fun j hj => Nat.le_trans (h.2 j hj) (hgrow j)⟩
  | construct arg t | assign arg t =>
    refine ⟨h.1.trans htail.symm, ?_⟩
    intro j
    exact Nat.lt_of_lt_of_le (h.2 j) (Nat.add_le_add_right (hgrow j) _)
  | storeTail v t =>
    refine ⟨h.1.trans htail.symm, ?_⟩
    rw [State.item, hslots]
    exact h.2

theorem limit_quiet (h : ∀ v t, s.producer ≠ .storeTail v t) : limit s = s.tail := by
  unfold limit
  split
  · rename_i v t hp
    exact absurd hp (h v t)
  · rfl

theorem Inv.producer_move (hi : Inv cap.toCapacity log s) {pc : ProducerPc n T}
    (hm : ProducerMove cap.toCapacity s pc es) : Inv cap.toCapacity log (s.atProducer pc) := by
  obtain ⟨hok, hlimit⟩ := producer_move_ok hi.cached hi.producer hm
  exact hi.at_producer hok hlimit

theorem Inv.consumer_move (hi : Inv cap.toCapacity log s) {i : Fin (n + 1)}
    {stack : List (Frame T)} (hm : ConsumerMove cap.toCapacity s i stack es) :
    Inv cap.toCapacity log (s.atConsumer i stack) := by
  have hok := hi.consumer i
  apply hi.at_consumer
  cases hm with
  | call hc => exact ⟨trivial, by simp⟩
  | loadCursor hc =>
    rw [hc] at hok
    exact ⟨rfl, hok.2⟩
  | nothing hc _ | threw hc =>
    rw [hc] at hok
    exact hok.pop
  | found hc hlt =>
    rw [hc] at hok
    exact ⟨⟨hok.1, hi.tail ▸ hlt⟩, hok.2⟩
  | enter hc =>
    rw [hc] at hok
    exact ⟨⟨Nat.le_of_eq hok.1.1, hok.1.2⟩, hok.2⟩

/-- A nested call suspends the callback it is made from. -/
theorem Inv.nested (hi : Inv cap.toCapacity log s) {i : Fin (n + 1)} {call : ConsumeCall}
    {pos : Nat} {rest : List (Frame T)}
    (hc : s.consumers i = .callback .tryConsume pos :: rest) :
    Inv cap.toCapacity log
      (s.atConsumer i (.loadCursor call :: .callback .tryConsume pos :: rest)) := by
  have hok := hi.consumer i
  rw [hc] at hok
  apply hi.at_consumer
  refine ⟨trivial, ?_⟩
  intro g hg
  rcases List.mem_cons.mp hg with rfl | hg
  · exact hok.1
  · exact hok.2 g hg

/-- Nothing at or after a consumer's cursor has been overwritten. -/
theorem Inv.unread (hi : Inv cap.toCapacity log s) {i : Fin (n + 1)} {p : Nat}
    (hle : s.cursors i ≤ p) (hlt : p < log.length) :
    log[p]? = some (s.item cap.toCapacity p) := by
  have hroom := hi.room i
  exact hi.slot p hlt (by omega)

theorem Inv.deliver (hi : Inv cap.toCapacity log s) {i : Fin (n + 1)} {call : ConsumeCall}
    {pos : Nat} {rest : List (Frame T)} (hc : s.consumers i = .callback call pos :: rest)
    (hpos : s.cursors i = pos) :
    Inv cap.toCapacity log
      (s.atConsumer i (.storeCursor call pos (s.item cap.toCapacity pos) :: rest)) := by
  have hok := hi.consumer i
  rw [hc] at hok
  apply hi.at_consumer
  exact ⟨⟨hpos.symm, hi.unread (Nat.le_of_eq hpos) hok.1.2⟩, hok.2⟩

/-- The cursor store frees exactly the position that was consumed. -/
theorem Inv.consumed (hi : Inv cap.toCapacity log s) {i : Fin (n + 1)} {call : ConsumeCall}
    {pos : Nat} {v : T} {rest : List (Frame T)}
    (hc : s.consumers i = .storeCursor call pos v :: rest) :
    Inv cap.toCapacity log ((s.setCursor i (pos + 1)).atConsumer i rest) := by
  have hok := hi.consumer i
  rw [hc] at hok
  obtain ⟨rfl, hitem⟩ := hok.1
  have hlt : s.cursors i < log.length := (List.getElem?_eq_some_iff.mp hitem).1
  have hgrow : ∀ j, s.cursors j ≤ (s.setCursor i (s.cursors i + 1)).cursors j := by
    intro j
    rw [cursors_set_cursor]
    split
    · subst_vars
      exact Nat.le_succ _
    · exact Nat.le_refl _
  refine ⟨hi.tail, ?_, ?_, ?_, ?_, ?_, hi.slot⟩
  · intro j
    rw [cursors_at_consumer, cursors_set_cursor]
    split
    · exact hlt
    · exact hi.behind j
  · intro j
    exact Nat.le_trans (hi.cached j) (hgrow j)
  · intro j
    exact Nat.le_trans (hi.room j) (Nat.add_le_add_right (hgrow j) _)
  · exact hi.producer.grow rfl rfl hgrow
  · intro j
    by_cases he : j = i
    · subst he
      simpa [cursors_set_cursor] using hok.advance
    · simpa [he, cursors_set_cursor] using hi.consumer j

/-- The end of a scan installs a minimum that bounds every cursor. -/
theorem Inv.rescanned (hi : Inv cap.toCapacity log s) {c : Nat} (hc : ∀ j, c ≤ s.cursors j)
    (hold : ∀ v t, s.producer ≠ .storeTail v t) {pc : ProducerPc n T}
    (hok : ProducerOk cap.toCapacity s pc) (hnew : ∀ v t, pc ≠ .storeTail v t) :
    Inv cap.toCapacity log ({ s with cachedMin := c }.atProducer pc) := by
  have hbefore := limit_quiet hold
  have hafter := limit_quiet (s := { s with cachedMin := c }.atProducer pc) hnew
  refine ⟨hi.tail, hi.behind, hc, ?_, ?_, hi.consumer, ?_⟩
  · intro i
    rw [hafter, ← show limit s = s.tail from hbefore]
    exact hi.room i
  · cases pc <;> exact hok
  · rw [hafter, ← show limit s = s.tail from hbefore]
    exact hi.slot

/-- The slot written held an item every consumer has finished with. -/
theorem Inv.assign (hi : Inv cap.toCapacity log s) {v : T} {t : Nat}
    (hp : s.producer = .assign v t) :
    Inv cap.toCapacity log ((s.setItem cap.toCapacity t v).atProducer (.storeTail v t)) := by
  have hprod := hi.producer
  rw [hp] at hprod
  obtain ⟨rfl, hroom⟩ := hprod
  refine ⟨hi.tail, hi.behind, hi.cached, hroom, ⟨rfl, ?_⟩, hi.consumer, ?_⟩
  · simp [item_set_item]
  · intro p hlt hle
    have htail := hi.tail
    have hle' : s.tail + 1 ≤ p + cap.size := hle
    have hne : cap.index p ≠ cap.index s.tail := cap.index_ne (by omega) (by omega) (by omega)
    rw [item_at_producer, item_set_item, if_neg hne]
    apply hi.slot p hlt
    simp only [limit, hp]
    omega

theorem Inv.publish (hi : Inv cap.toCapacity log s) {v : T} {t : Nat}
    (hp : s.producer = .storeTail v t) :
    Inv cap.toCapacity (log ++ [v]) ({ s with tail := t + 1 }.atProducer .idle) := by
  have hprod := hi.producer
  rw [hp] at hprod
  obtain ⟨rfl, hitem⟩ := hprod
  have hlimit : limit s = s.tail + 1 := by simp [limit, hp]
  refine ⟨?_, ?_, hi.cached, ?_, trivial, ?_, ?_⟩
  · simpa using hi.tail
  · intro i
    simpa using Nat.le_succ_of_le (hi.behind i)
  · intro i
    have hroom := hi.room i
    rw [hlimit] at hroom
    exact hroom
  · intro i
    exact (hi.consumer i).extend
  · intro p hlt hle
    have htail := hi.tail
    simp only [List.length_append, List.length_singleton] at hlt
    by_cases he : p = log.length
    · subst he
      rw [List.getElem?_concat_length, ← htail]
      exact congrArg some hitem.symm
    · rw [List.getElem?_append_left (by omega)]
      apply hi.slot p (by omega)
      rw [hlimit]
      exact hle

theorem move_inv (hi : Inv cap.toCapacity log s) (hok : Steady s a)
    (hm : Move cap.toCapacity s a s' es) : Inv cap.toCapacity (log ++ published es) s' := by
  have hprod := hi.producer
  cases hm with
  | producer hm =>
    have hnone : published es = [] := by cases hm <;> rfl
    simpa [hnone] using hi.producer_move hm
  | consumer hm =>
    have hnone : published es = [] := by cases hm <;> rfl
    simpa [hnone] using hi.consumer_move hm
  | @full arg t i least hp hlast hfull =>
    rw [hp] at hprod
    have hleast : ∀ j, scanLeast i least (s.cursors i) ≤ s.cursors j :=
      fun j => scan_step hprod (by omega)
    have hidle : ProducerOk cap.toCapacity s .idle := trivial
    simpa [published] using hi.rescanned hleast (by simp [hp]) hidle (by simp)
  | @scanned arg t i least hp hlast hroom =>
    rw [hp] at hprod
    have hleast : ∀ j, scanLeast i least (s.cursors i) ≤ s.cursors j :=
      fun j => scan_step hprod (by omega)
    have hgate : ProducerOk cap.toCapacity s (.construct arg t) := by
      refine ⟨hprod.1, ?_⟩
      intro j
      have := hleast j
      omega
    simpa [published] using hi.rescanned hleast (by simp [hp]) hgate (by simp)
  | assign hp => simpa [published] using hi.assign hp
  | publish hp => exact hi.publish hp
  | nested hc => simpa [published] using hi.nested hc
  | deliver hc => simpa [published] using hi.deliver hc (hok _ _ _ hc)
  | consumed hc => simpa [published] using hi.consumed hc

theorem run_inv [Inhabited T] {tr : List (Event n T)}
    (hr : (machine n T none cap.toCapacity).RunWhere Steady tr s) :
    Inv cap.toCapacity (published tr) s := by
  refine Machine.Steps.invariant (I := fun tr s => Inv cap.toCapacity (published tr) s)
    initial_inv ?_ hr
  intro tr s a s' es _ hi hok hs
  have hnext := move_inv hi hok (step_moves hs)
  rwa [published, List.filterMap_append]

end Toolbox.Proofs.BroadcastCursors
