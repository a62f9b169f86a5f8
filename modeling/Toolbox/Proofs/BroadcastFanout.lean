import Toolbox.Proofs.BroadcastCursors

namespace Toolbox.Proofs.BroadcastFanout
open Base Broadcast BroadcastMoves BroadcastCursors

variable {n : Nat} {T : Type*} {cap : RingCapacity} {s s' : State n T} {a : Act n T}
  {tr es : List (Event n T)}

/-- At most one activation, working on the position at its consumer's cursor. -/
def Alone (c : Nat) : List (Frame T) → Prop
  | [] | [.loadCursor _] => True
  | [.loadTail _ pos] | [.enter _ pos] | [.callback _ pos] | [.storeCursor _ pos _] => pos = c
  | _ => False

theorem Alone.no_rest {c : Nat} {f : Frame T} {rest : List (Frame T)}
    (h : Alone c (f :: rest)) : rest = [] := by
  cases rest with
  | nil => rfl
  | cons g rest => cases f <;> exact h.elim

theorem alone_at_consumer {i : Fin (n + 1)} {stack : List (Frame T)}
    (h : ∀ j, Alone (s.cursors j) (s.consumers j)) (hstack : Alone (s.cursors i) stack)
    (j : Fin (n + 1)) :
    Alone ((s.atConsumer i stack).cursors j) ((s.atConsumer i stack).consumers j) := by
  by_cases he : j = i
  · subst he
    simpa using hstack
  · simpa [he] using h j

theorem move_alone (h : ∀ i, Alone (s.cursors i) (s.consumers i)) (hflat : Flat s a)
    (hm : Move cap.toCapacity s a s' es) : ∀ i, Alone (s'.cursors i) (s'.consumers i) := by
  cases hm with
  | producer | full | scanned | assign | publish => exact h
  | @consumer a i stack es hm =>
    have hi := h i
    apply alone_at_consumer h
    cases hm with
    | call hc => trivial
    | loadCursor hc =>
      rw [hc] at hi
      obtain rfl := hi.no_rest
      rfl
    | nothing hc _ | threw hc =>
      rw [hc] at hi
      obtain rfl := hi.no_rest
      trivial
    | found hc _ | enter hc =>
      rw [hc] at hi
      obtain rfl := hi.no_rest
      exact hi
  | nested hc =>
    rw [Flat, hc] at hflat
    cases hflat
  | @deliver i call pos rest hc =>
    have hi := h i
    rw [hc] at hi
    obtain rfl := hi.no_rest
    exact alone_at_consumer h hi
  | @consumed i call pos v rest hc =>
    have hi := h i
    rw [hc] at hi
    obtain rfl := hi.no_rest
    intro j
    by_cases he : j = i
    · subst he
      simp [Alone]
    · simpa [he, cursors_set_cursor] using h j

theorem alone_steady (h : ∀ i, Alone (s.cursors i) (s.consumers i)) : Steady s a := by
  cases a with
  | consumer i =>
    intro call pos rest hc
    have hi := h i
    rw [hc] at hi
    obtain rfl := hi.no_rest
    exact hi.symm
  | _ => trivial

/-- Without re-entrant callbacks every run is steady. -/
theorem flat_steady [Inhabited T] (hr : (machine n T none cap.toCapacity).RunWhere Flat tr s) :
    (machine n T none cap.toCapacity).RunWhere Steady tr s ∧
      ∀ i, Alone (s.cursors i) (s.consumers i) := by
  refine Machine.Steps.invariant (I := fun tr s =>
    (machine n T none cap.toCapacity).RunWhere Steady tr s ∧
      ∀ i, Alone (s.cursors i) (s.consumers i)) ⟨.refl, fun _ => trivial⟩ ?_ hr
  intro tr s a s' es _ ⟨hrun, halone⟩ hflat hs
  exact ⟨.step hrun (alone_steady halone) hs, move_alone halone hflat (step_moves hs)⟩

/-- The item whose callback has returned while its cursor store is still to come. -/
def inHand : List (Frame T) → List T
  | .storeCursor _ _ v :: _ => [v]
  | _ => []

theorem published_append : published (tr ++ es) = published tr ++ published es :=
  List.filterMap_append

theorem delivered_append (i : Fin (n + 1)) :
    delivered i (tr ++ es) = delivered i tr ++ delivered i es :=
  List.filterMap_append

/-- What each consumer was given is what its cursor has passed. -/
def Delivered (tr : List (Event n T)) (s : State n T) : Prop :=
  ∀ i, delivered i tr = (published tr).take (s.cursors i) ++ inHand (s.consumers i)

theorem Delivered.silent (h : Delivered tr s) (hpublished : published es = [])
    (hdelivered : ∀ i, delivered i es = []) (hcursors : s'.cursors = s.cursors)
    (hhand : ∀ i, inHand (s'.consumers i) = inHand (s.consumers i)) :
    Delivered (tr ++ es) s' := by
  intro i
  rw [delivered_append, published_append, hpublished, hdelivered, hcursors, hhand]
  simpa using h i

/-- Activations below the topmost one hold no delivered item. -/
theorem no_hand_below {c : Nat} {log : List T} {f : Frame T} {rest : List (Frame T)}
    (h : StackOk c log (f :: rest)) : inHand rest = [] := by
  cases rest with
  | nil => rfl
  | cons g rest =>
    have hg := h.2 g (by simp)
    cases g with
    | callback => rfl
    | _ => exact hg.elim

theorem in_hand_at_consumer {i : Fin (n + 1)} {stack : List (Frame T)}
    (hstack : inHand stack = inHand (s.consumers i)) (j : Fin (n + 1)) :
    inHand ((s.atConsumer i stack).consumers j) = inHand (s.consumers j) := by
  by_cases he : j = i
  · subst he
    simpa using hstack
  · simp [he]

theorem Delivered.consumer_move (hi : Inv cap.toCapacity (published tr) s) (h : Delivered tr s)
    {i : Fin (n + 1)} {stack : List (Frame T)}
    (hm : ConsumerMove cap.toCapacity s i stack es) :
    Delivered (tr ++ es) (s.atConsumer i stack) := by
  have hok := hi.consumer i
  cases hm with
  | call hc | loadCursor hc | found hc _ | enter hc =>
    refine h.silent rfl (fun _ => rfl) rfl (in_hand_at_consumer ?_)
    rw [hc]
    rfl
  | nothing hc _ | threw hc =>
    refine h.silent rfl (fun _ => rfl) rfl (in_hand_at_consumer ?_)
    rw [hc] at hok ⊢
    exact no_hand_below hok

theorem Delivered.publish (hi : Inv cap.toCapacity (published tr) s) (h : Delivered tr s)
    {v : T} {t : Nat} :
    Delivered (tr ++ [.published v]) ({ s with tail := t + 1 }.atProducer .idle) := by
  intro i
  have hbehind := hi.behind i
  rw [delivered_append, published_append, cursors_at_producer, consumers_at_producer,
    List.take_append_of_le_length hbehind]
  simpa [delivered] using h i

theorem Delivered.deliver (h : Delivered tr s) {i : Fin (n + 1)} {call : ConsumeCall}
    {pos : Nat} {v : T} {rest : List (Frame T)}
    (hc : s.consumers i = .callback call pos :: rest) :
    Delivered (tr ++ [.delivered i pos v])
      (s.atConsumer i (.storeCursor call pos v :: rest)) := by
  intro j
  rw [delivered_append, published_append]
  by_cases he : j = i
  · subst he
    have hold := h j
    rw [hc] at hold
    simpa [delivered, published, inHand] using hold
  · simpa [delivered, published, he, Ne.symm he] using h j

theorem Delivered.consumed (hi : Inv cap.toCapacity (published tr) s) (h : Delivered tr s)
    {i : Fin (n + 1)} {call : ConsumeCall} {pos : Nat} {v : T} {rest : List (Frame T)}
    (hc : s.consumers i = .storeCursor call pos v :: rest) :
    Delivered (tr ++ [.consumed i pos v])
      ((s.setCursor i (pos + 1)).atConsumer i rest) := by
  have hok := hi.consumer i
  rw [hc] at hok
  obtain ⟨rfl, hitem⟩ := hok.1
  intro j
  have hnone : delivered j [(.consumed i (s.cursors i) v : Event n T)] = [] := rfl
  have hsilent : published [(.consumed i (s.cursors i) v : Event n T)] = [] := rfl
  have hold := h j
  rw [delivered_append, published_append, hnone, hsilent, List.append_nil, List.append_nil,
    cursors_at_consumer, cursors_set_cursor, consumers_at_consumer]
  by_cases he : j = i
  · subst he
    rw [if_pos rfl, if_pos rfl, List.take_add_one, hitem, no_hand_below hok, hold, hc]
    simp [inHand]
  · rw [if_neg he, if_neg he]
    exact hold

theorem move_delivered (hi : Inv cap.toCapacity (published tr) s) (h : Delivered tr s)
    (hm : Move cap.toCapacity s a s' es) : Delivered (tr ++ es) s' := by
  cases hm with
  | producer hm =>
    have hnone : published es = [] ∧ ∀ i, delivered i es = [] := by
      cases hm <;> exact ⟨rfl, fun _ => rfl⟩
    exact h.silent hnone.1 hnone.2 rfl (fun _ => rfl)
  | full | scanned | assign => exact h.silent rfl (fun _ => rfl) rfl (fun _ => rfl)
  | publish hp => exact h.publish hi
  | consumer hm => exact h.consumer_move hi hm
  | nested hc =>
    refine h.silent rfl (fun _ => rfl) rfl (in_hand_at_consumer ?_)
    rw [hc]
    rfl
  | deliver hc => exact h.deliver hc
  | consumed hc => exact h.consumed hi hc

theorem run_delivered [Inhabited T]
    (hr : (machine n T none cap.toCapacity).RunWhere Steady tr s) : Delivered tr s := by
  refine Machine.Steps.invariant (I := Delivered) (fun _ => rfl) ?_ hr
  intro tr s a s' es hr h _ hs
  exact move_delivered (run_inv hr) h (step_moves hs)

/-- What becomes of the calls of one consumer. -/
def concerns (i : Fin (n + 1)) : Event n T → Bool
  | .nothing j | .entered j _ _ | .callbackThrew j _ | .delivered j _ _ | .consumed j _ _ =>
    j = i
  | _ => false

/-- On the way to a callback for `pos`. -/
def Approaching (pos : Nat) : List (Frame T) → Prop
  | [] | [.loadCursor _] => True
  | [.loadTail _ p] | [.enter _ p] => p = pos
  | _ => False

/-- The first thing consumer `i` gets to see is the item `v` of `pos`, or it is
still on the way to it. -/
def Next (i : Fin (n + 1)) (pos : Nat) (v : T) (tr : List (Event n T)) (s : State n T) : Prop :=
  (tr.filter (concerns i) = [] ∧ s.cursors i = pos ∧ Approaching pos (s.consumers i)) ∨
    ∃ rest, tr.filter (concerns i) = .entered i pos v :: rest

theorem Next.consumer_move {log : List T} (hi : Inv cap.toCapacity log s) {i j : Fin (n + 1)}
    {pos : Nat} {v : T} {stack : List (Frame T)} (hitem : log[pos]? = some v)
    (hquiet : tr.filter (concerns i) = []) (hcursor : s.cursors i = pos)
    (hnear : Approaching pos (s.consumers i)) (hm : ConsumerMove cap.toCapacity s j stack es) :
    Next i pos v (tr ++ es) (s.atConsumer j stack) := by
  have hlt : pos < log.length := (List.getElem?_eq_some_iff.mp hitem).1
  by_cases he : j = i
  · subst he
    unfold Next
    rw [List.filter_append, hquiet, List.nil_append, consumers_at_consumer, if_pos rfl]
    cases hm with
    | call hc => exact .inl ⟨rfl, hcursor, trivial⟩
    | @loadCursor call rest hc =>
      rw [hc] at hnear
      cases rest with
      | nil => exact .inl ⟨rfl, hcursor, hcursor⟩
      | cons => exact hnear.elim
    | @nothing call p _ hc hle =>
      rw [hc] at hnear
      cases stack with
      | nil =>
        obtain rfl : p = pos := hnear
        rw [hi.tail] at hle
        omega
      | cons => exact hnear.elim
    | @found call p rest hc _ =>
      rw [hc] at hnear
      cases rest with
      | nil => exact .inl ⟨rfl, hcursor, hnear⟩
      | cons => exact hnear.elim
    | @enter call p rest hc =>
      rw [hc] at hnear
      cases rest with
      | nil =>
        obtain rfl : p = pos := hnear
        have hread := hi.unread (Nat.le_of_eq hcursor) hlt
        rw [hitem] at hread
        obtain rfl := Option.some.inj hread
        exact .inr ⟨[], by simp [concerns]⟩
      | cons => exact hnear.elim
    | threw hc =>
      rw [hc] at hnear
      exact hnear.elim
  · refine .inl ⟨?_, hcursor, ?_⟩
    · rw [List.filter_append, hquiet, List.nil_append]
      cases hm <;> simp [concerns, he]
    · simpa [Ne.symm he] using hnear

theorem Next.move {log : List T} (hi : Inv cap.toCapacity log s) {i : Fin (n + 1)} {pos : Nat}
    {v : T} (hitem : log[pos]? = some v) (h : Next i pos v tr s)
    (hm : Move cap.toCapacity s a s' es) : Next i pos v (tr ++ es) s' := by
  rcases h with ⟨hquiet, hcursor, hnear⟩ | ⟨rest, hseen⟩
  · cases hm with
    | producer hm =>
      refine .inl ⟨?_, hcursor, hnear⟩
      rw [List.filter_append, hquiet]
      cases hm <;> rfl
    | full | scanned | assign | publish =>
      refine .inl ⟨?_, hcursor, hnear⟩
      rw [List.filter_append, hquiet]
      rfl
    | consumer hm => exact Next.consumer_move hi hitem hquiet hcursor hnear hm
    | @nested j _ _ _ hc | @deliver j _ _ _ hc | @consumed j _ _ _ _ hc =>
      have he : i ≠ j := by
        rintro rfl
        rw [hc] at hnear
        exact hnear.elim
      refine .inl ⟨?_, ?_, ?_⟩
      · rw [List.filter_append, hquiet]
        simp [concerns, Ne.symm he]
      · simpa [cursors_set_cursor, he] using hcursor
      · simpa [he] using hnear
  · exact .inr ⟨rest ++ es.filter (concerns i), by rw [List.filter_append, hseen]; rfl⟩

/-- After a callback threw, the next one of that consumer is given the same item. -/
theorem redelivered [Inhabited T] (hr : (machine n T none cap.toCapacity).RunWhere Flat tr s)
    {i : Fin (n + 1)} (hs : (machine n T none cap.toCapacity).step s (.throws i) = some (s', es))
    {later : List (Event n T)} {t : State n T}
    (ht : (machine n T none cap.toCapacity).Steps Flat s' later t) :
    ∃ pos v, es = [.callbackThrew i pos] ∧ (published tr)[pos]? = some v ∧
      Next i pos v later t := by
  obtain ⟨hsteady, halone⟩ := flat_steady hr
  have hi := run_inv hsteady
  have hstep := hs
  simp only [machine, step] at hs
  split at hs
  · rename_i call pos rest hc
    cases hs
    have hpinned := halone i
    rw [hc] at hpinned
    obtain rfl := hpinned.no_rest
    obtain rfl : pos = s.cursors i := hpinned
    have hok := hi.consumer i
    rw [hc] at hok
    have hitem := hi.unread (Nat.le_refl _) hok.1.2
    refine ⟨_, _, rfl, hitem, ?_⟩
    refine Machine.Steps.invariant (I := Next i _ _) ?_ ?_ ht
    · exact .inl ⟨rfl, rfl, by simp [Approaching]⟩
    · intro later t a u fs htu hnext hflat hu
      have hthrow : Flat s (.throws i) := trivial
      have hrun := Machine.Steps.trans (Machine.Steps.step hr hthrow hstep) htu
      have hinv := run_inv (flat_steady hrun).1
      refine Next.move hinv ?_ hnext (step_moves hu)
      rw [published_append, published_append, List.append_assoc,
        List.getElem?_append_left hok.1.2]
      exact hitem
  · cases hs

/-- The items given to a consumer, counting the one it is about to step past. -/
theorem delivered_prefix {log : List T} {c : Nat} {stack : List (Frame T)}
    (h : StackOk c log stack) :
    log.take c ++ inHand stack = log.take (c + (inHand stack).length) := by
  cases stack with
  | nil => simp [inHand]
  | cons f rest =>
    have hf := h.1
    cases f with
    | storeCursor call pos v =>
      obtain ⟨rfl, hitem⟩ := hf
      simp [inHand, List.take_add_one, hitem]
    | _ => simp [inHand]

/-- Lossless in-order fan-out while no callback re-enters the queue. -/
theorem fan_out [Inhabited T] (hr : (machine n T none cap.toCapacity).RunWhere Flat tr s) :
    (∀ i, s.cursors i + (inHand (s.consumers i)).length ≤ (published tr).length ∧
      delivered i tr =
        (published tr).take (s.cursors i + (inHand (s.consumers i)).length)) ∧
    (∀ v t, s.producer = .assign v t → ∀ i p, s.cursors i ≤ p → p < (published tr).length →
      cap.index p ≠ cap.index t) ∧
    (∀ i call pos rest, s.consumers i = .callback call pos :: rest →
      pos = s.cursors i ∧ (published tr)[pos]? = some (s.item cap.toCapacity pos)) ∧
    (∀ a s' es, (machine n T none cap.toCapacity).step s a = some (s', es) → .threw ∈ es →
      published es = [] ∧ s'.tail = s.tail ∧ s'.slots = s.slots ∧ s'.cursors = s.cursors) ∧
    (∀ i s' es, (machine n T none cap.toCapacity).step s (.throws i) = some (s', es) →
      s'.cursors = s.cursors ∧
      ∀ later t, (machine n T none cap.toCapacity).Steps Flat s' later t →
        ∃ pos v, es = [.callbackThrew i pos] ∧ (published tr)[pos]? = some v ∧
          Next i pos v later t) := by
  obtain ⟨hsteady, halone⟩ := flat_steady hr
  have hi := run_inv hsteady
  refine ⟨?_, ?_, ?_, ?_, ?_⟩
  · intro i
    have hprefix := delivered_prefix (hi.consumer i)
    have hbehind := hi.behind i
    have hlength := congrArg List.length hprefix
    rw [List.length_append, List.length_take, List.length_take] at hlength
    refine ⟨by omega, ?_⟩
    rw [run_delivered hsteady i]
    exact hprefix
  · intro v t hp i p hle hlt
    have hprod := hi.producer
    rw [hp] at hprod
    have hroom := hprod.2 i
    have htail := hi.tail
    have ht := hprod.1
    exact cap.index_ne (by omega) (by omega) (by omega)
  · intro i call pos rest hc
    have hpinned := halone i
    have hok := hi.consumer i
    rw [hc] at hpinned hok
    obtain rfl := hpinned.no_rest
    obtain rfl : pos = s.cursors i := hpinned
    exact ⟨rfl, hi.unread (Nat.le_refl _) hok.1.2⟩
  · intro a s' es hs hthrew
    cases step_moves hs with
    | producer hm =>
      refine ⟨?_, rfl, rfl, rfl⟩
      cases hm <;> rfl
    | consumer hm => cases hm <;> simp at hthrew
    | full | scanned | assign | publish | nested | deliver | consumed => simp at hthrew
  · intro i s' es hs
    refine ⟨?_, fun later t ht => redelivered hr hs ht⟩
    simp only [machine, step] at hs
    split at hs
    · cases hs
      rfl
    · cases hs

/-- One item published, its callback run once to a throw and once to the end. -/
def throwThenDeliver (i : Fin 1) : List (Act 0 Nat) :=
  [.publish (some 7), .producer, .producer, .producer, .producer,
   .consume i .tryConsume, .consumer i, .consumer i, .consumer i, .throws i,
   .consume i .tryCopy, .consumer i, .consumer i, .consumer i, .consumer i]

theorem fan_out_one_item : ∃ tr s, (machine 0 Nat none twoSlots.toCapacity).RunWhere Flat tr s ∧
    (inHand (s.consumers 0)).length = 1 ∧
    delivered 0 tr = (published tr).take (s.cursors 0 + (inHand (s.consumers 0)).length) := by
  have hr : (machine 0 Nat none twoSlots.toCapacity).RunWhere Flat _ _ :=
    Machine.run_where_of_exec (throwThenDeliver 0) rfl
  exact ⟨_, _, hr, rfl, ((fan_out hr).1 0).2⟩

/-- Between the end of its callback and its cursor store a consumer was given
one item more than its cursor says. -/
theorem delivered_past_cursor :
    ∃ tr s, (machine 0 Nat none twoSlots.toCapacity).RunWhere Flat tr s ∧
      delivered 0 tr ≠ (published tr).take (s.cursors 0) := by
  have hr : (machine 0 Nat none twoSlots.toCapacity).RunWhere Flat _ _ :=
    Machine.run_where_of_exec (throwThenDeliver 0) rfl
  refine ⟨_, _, hr, ?_⟩
  decide

end Toolbox.Proofs.BroadcastFanout
