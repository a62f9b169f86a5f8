import Toolbox.Proofs.SpmcAnswers
import Toolbox.Proofs.SpmcWrap

namespace Toolbox.Proofs.SpmcRetries
open Base Spmc SpmcMoves SpmcSlots SpmcClaims SpmcAnswers SpmcWrap

variable {n : Nat} {T : Type*} {cap : RingCapacity} {s s' : State n T} {a : Act n T}
  {es es' tr : List (Event n T)} {log : List T} {i : Fin n}

/-- Loop iterations that consumer `i` has begun. -/
def iterations (i : Fin n) (es : List (Event n T)) : Nat :=
  es.countP (fun | .looked j _ => j = i | _ => false)

/-- Compare-exchanges that consumer `i` has made. -/
def attempts (i : Fin n) (es : List (Event n T)) : Nat :=
  es.countP (fun | .casFailed j _ => j = i | .claimed j _ => j = i | _ => false)

def spuriousFailures (i : Fin n) (es : List (Event n T)) : Nat :=
  es.countP (fun | .casFailed j true => j = i | _ => false)

/-- Positions that consumers other than `i` have claimed. -/
def othersClaims (i : Fin n) (es : List (Event n T)) : Nat :=
  es.countP (fun | .claimed j _ => j ≠ i | _ => false)

/-- The choices that are steps of consumer `i`. -/
def own (i : Fin n) : Act n T → Bool
  | .consumer j => j = i
  | .casFails j => j = i
  | .notifyOne j _ => j = i
  | _ => false

def isCall (i : Fin n) : Event n T → Bool
  | .called j _ => j = i
  | _ => false

def isParked : ConsumerPc T → Bool
  | .parked _ _ => true
  | _ => false

/-- The step with which consumer `i` starts a call, or parks. -/
def begins (cap : Capacity) (i : Fin n) (s : State n T) (a : Act n T) : Bool :=
  match step none cap s a with
  | none => false
  | some (s', es) => es.any (isCall i) || (!isParked (s.consumers i) && isParked (s'.consumers i))

section Counts

variable (i)

theorem iterations_append : iterations i (es ++ es') = iterations i es + iterations i es' :=
  List.countP_append

theorem attempts_append : attempts i (es ++ es') = attempts i es + attempts i es' :=
  List.countP_append

theorem spurious_append :
    spuriousFailures i (es ++ es') = spuriousFailures i es + spuriousFailures i es' :=
  List.countP_append

theorem others_append : othersClaims i (es ++ es') = othersClaims i es + othersClaims i es' :=
  List.countP_append

end Counts

/-- The position a consumer has claimed in the call it is in. -/
def claimedAt : ConsumerPc T → Option Nat
  | .moveOut h | .storeSeq h _ | .notifyOne h _ => some h
  | _ => none

/-- How far a call has come within its iteration. -/
def progress : ConsumerPc T → Nat
  | .loadHead _ | .reload _ _ | .cas _ _ | .wait _ _ | .parked _ _ => 0
  | .loadSeq _ _ | .moveOut _ => 1
  | .storeSeq _ _ => 2
  | .notifyOne _ _ => 3
  | .idle => 4

/-- A step as consumer `i` sees it. -/
inductive View (cap : Capacity) (i : Fin n) (s s' : State n T) (es : List (Event n T)) : Prop
  | other (hpc : s'.consumers i = s.consumers i ∨ s'.consumers i = (s.consumers i).woken)
      (hhead : s'.head = s.head + othersClaims i es) (hlooks : iterations i es = 0)
      (hattempts : attempts i es = 0) (hspurious : spuriousFailures i es = 0)
      (hcall : es.any (isCall i) = false)
  | mine {pc} (hm : ConsumerMove cap s i pc es) (hpc : s'.consumers i = pc)
      (hhead : s'.head = s.head)
  | claim {call h} (hc : s.consumers i = .cas call h) (hh : s.head = h)
      (hpc : s'.consumers i = .moveOut h) (hhead : s'.head = h + 1) (hes : es = [.claimed i h])
  | after {h} (hc : claimedAt (s.consumers i) = some h)
      (hpc : claimedAt (s'.consumers i) = some h ∨ s'.consumers i = .idle)
      (hprogress : progress (s.consumers i) < progress (s'.consumers i))
      (hhead : s'.head = s.head) (hlooks : iterations i es = 0) (hattempts : attempts i es = 0)
      (hspurious : spuriousFailures i es = 0) (hothers : othersClaims i es = 0)
      (hcall : es.any (isCall i) = false)

theorem consumers_wake (s : State n T) (x : Waiter n) (i : Fin n) :
    (s.wake x).consumers i = s.consumers i ∨ (s.wake x).consumers i = (s.consumers i).woken := by
  cases x with
  | producer => exact .inl rfl
  | consumer j =>
    simp only [State.wake, consumers_at_consumer]
    split
    · rename_i h
      exact .inr (h ▸ rfl)
    · exact .inl rfl

theorem consumer_move_other {j : Fin n} {pc : ConsumerPc T} (hne : i ≠ j)
    (hm : ConsumerMove cap.toCapacity s j pc es) : iterations i es = 0 ∧ attempts i es = 0 ∧
      spuriousFailures i es = 0 ∧ othersClaims i es = 0 ∧ es.any (isCall i) = false := by
  cases hm <;> simp [iterations, attempts, spuriousFailures, othersClaims, isCall, hne.symm]

theorem move_view (i : Fin n) (hm : Move cap.toCapacity s a s' es) :
    View cap.toCapacity i s s' es := by
  cases hm with
  | producer hm =>
    cases hm <;> exact .other (.inl rfl) rfl rfl rfl rfl rfl
  | construct | produce | storeTail => exact .other (.inl rfl) rfl rfl rfl rfl rfl
  | notifyAll hp =>
    refine .other ?_ rfl rfl rfl rfl rfl
    simp only [State.wakeAll, State.atProducer]
    split
    · exact .inr rfl
    · exact .inl rfl
  | @consumer a j pc es hm =>
    rcases eq_or_ne i j with rfl | hne
    · exact .mine hm (by simp) rfl
    · obtain ⟨h1, h2, h3, h4, h5⟩ := consumer_move_other hne hm
      exact .other (.inl (by simp [hne])) (by rw [h4]; rfl) h1 h2 h3 h5
  | @claim j call h hc hhead =>
    rcases eq_or_ne i j with rfl | hne
    · exact .claim hc hhead (by simp [State.atConsumer]) rfl rfl
    · refine .other (.inl ?_) ?_ rfl ?_ rfl rfl
      · simp [State.atConsumer, hne]
      · simp [othersClaims, hne.symm, hhead]
      · simp [attempts, hne.symm]
  | @moveOut j h v hc _ =>
    rcases eq_or_ne i j with rfl | hne
    · exact .after (h := h) (by rw [hc]; rfl) (.inl (by simp [claimedAt]))
        (by simp [hc, progress]) rfl rfl rfl rfl rfl rfl
    · exact .other (.inl (by simp [hne])) rfl rfl rfl rfl rfl
  | @undefined j h hc _ =>
    rcases eq_or_ne i j with rfl | hne
    · exact .after (h := h) (by rw [hc]; rfl) (.inr (by simp))
        (by simp [hc, progress]) rfl rfl rfl rfl rfl rfl
    · exact .other (.inl (by simp [hne])) rfl rfl rfl rfl rfl
  | @release j h v hc =>
    rcases eq_or_ne i j with rfl | hne
    · exact .after (h := h) (by rw [hc]; rfl) (.inl (by simp [claimedAt]))
        (by simp [hc, progress]) rfl rfl rfl rfl rfl rfl
    · exact .other (.inl (by simp [hne])) rfl rfl rfl rfl rfl
  | @notifyNobody j h v hc _ =>
    rcases eq_or_ne i j with rfl | hne
    · exact .after (h := h) (by rw [hc]; rfl) (.inr (by simp))
        (by simp [hc, progress]) rfl rfl rfl rfl rfl rfl
    · exact .other (.inl (by simp [hne])) rfl rfl rfl rfl rfl
  | @notify j h v x hc _ =>
    rcases eq_or_ne i j with rfl | hne
    · exact .after (h := h) (by rw [hc]; rfl) (.inr (by simp))
        (by simp [hc, progress]) (by simp) rfl rfl rfl rfl rfl
    · refine .other ?_ (by simp [othersClaims]) rfl rfl rfl rfl
      rw [consumers_at_consumer, if_neg hne]
      exact consumers_wake s x i
  | @wake x => exact .other (consumers_wake s x i) (by simp [othersClaims]) rfl rfl rfl rfl

/-- The local `h` of a call. -/
def localH : ConsumerPc T → Option Nat
  | .loadSeq _ h | .reload _ h | .wait h _ | .parked h _ | .cas _ h | .moveOut h
  | .storeSeq h _ | .notifyOne h _ => some h
  | _ => none

theorem local_le (hi : Inv cap.toCapacity log s) {h : Nat}
    (hh : localH (s.consumers i) = some h) : h ≤ s.head := by
  have hok := hi.consumer i
  cases hc : s.consumers i <;> rw [hc] at hok hh
  all_goals cases hh
  case loadSeq | reload | wait | parked => exact hok
  case cas => exact hok.1
  case moveOut | storeSeq | notifyOne => exact Nat.le_of_lt hok.1

theorem claimed_lt (hi : Inv cap.toCapacity log s) {h : Nat}
    (hh : claimedAt (s.consumers i) = some h) : h < s.head := by
  have hok := hi.consumer i
  cases hc : s.consumers i <;> rw [hc] at hok hh <;> cases hh <;> exact hok.1

/-- At `head_` itself no slot shows more than `h + 1`: one that does has been passed. -/
theorem passed (hi : Inv cap.toCapacity log s) {h : Nat} (hle : h ≤ s.head)
    (hseq : h + 1 < s.seq cap.toCapacity h) : h < s.head := by
  refine Nat.lt_of_le_of_ne hle ?_
  rintro rfl
  have hhead := hi.head_le
  rcases Nat.lt_or_eq_of_le hhead with hlt | heq
  · have hfull := (hi.unclaimed (Nat.le_refl _) hlt).1
    omega
  · have htwo := cap.two_le
    have hnext := seq_next hi
    rw [← heq] at hnext
    omega

/-- A consumer only reloads `head_` when others have moved it on. -/
def Stale (s : State n T) : Prop := ∀ i call h, s.consumers i = .reload call h → h < s.head

theorem woken_reload {pc : ConsumerPc T} {call : PopCall} {h : Nat}
    (hpc : pc.woken = .reload call h) : pc = .reload call h := by
  cases pc <;> first | exact hpc | cases hpc

theorem move_stale (hi : Inv cap.toCapacity log s) (h : Stale s)
    (hm : Move cap.toCapacity s a s' es) : Stale s' := by
  intro i call p hp
  cases move_view i hm with
  | other hpc hhead _ _ _ _ =>
    have hlt : p < s.head := by
      rcases hpc with hsame | hwoken
      · exact h i call p (hsame ▸ hp)
      · exact h i call p (woken_reload (hwoken ▸ hp))
    omega
  | mine hm hpc hhead =>
    rw [hpc] at hp
    rw [hhead]
    cases hm with
    | stale hc hseq =>
      cases hp
      exact passed hi (local_le hi (by rw [hc]; rfl)) hseq
    | _ => cases hp
  | claim _ _ hpc _ _ =>
    rw [hpc] at hp
    cases hp
  | after _ hpc _ _ _ _ _ _ _ =>
    rw [hp] at hpc
    rcases hpc with hpc | hpc
    · cases hpc
    · cases hpc

theorem run_stale (hr : (machine n T none cap.toCapacity).Run tr s) : Stale s := by
  refine Machine.Run.invariant (I := fun _ s => Stale s) ?_ ?_ hr
  · intro i call h hp
    cases hp
  · intro tr s a s' es hr h hs
    exact move_stale (run_inv hr) h (step_moves hs)

/-- An iteration that ends in another one has raised `h`, unless the
compare-exchange failed spuriously. -/
theorem retry_increases (hi : Inv cap.toCapacity log s) (hstale : Stale s)
    (hm : Move cap.toCapacity s a s' es) {call call' : PopCall} {h h' : Nat}
    (hpc : s.consumers i = .reload call h ∨ s.consumers i = .cas call h)
    (hnext : s'.consumers i = .loadSeq call' h') (hreal : .casFailed i true ∉ es) : h < h' := by
  have hle : h ≤ s.head := by
    rcases hpc with hc | hc
    · exact local_le hi (by rw [hc]; rfl)
    · exact local_le hi (by rw [hc]; rfl)
  cases move_view i hm with
  | other hsame _ _ _ _ _ =>
    rw [hnext] at hsame
    rcases hpc with hc | hc
    · rw [hc] at hsame
      rcases hsame with h | h <;> cases h
    · rw [hc] at hsame
      rcases hsame with h | h <;> cases h
  | mine hm hmine _ =>
    rw [hmine] at hnext
    cases hm with
    | reload hc =>
      cases hnext
      rw [hc] at hpc
      rcases hpc with hpc | hpc
      · cases hpc
        exact hstale i _ _ hc
      · cases hpc
    | lost hc hne =>
      cases hnext
      rw [hc] at hpc
      rcases hpc with hpc | hpc
      · cases hpc
      · cases hpc
        exact Nat.lt_of_le_of_ne hle hne.symm
    | spurious => exact absurd List.mem_cons_self hreal
    | loadHead hc | changed hc _ =>
      rw [hc] at hpc
      rcases hpc with hpc | hpc <;> cases hpc
    | _ => cases hnext
  | claim _ _ hmine _ _ =>
    rw [hmine] at hnext
    cases hnext
  | after hc _ _ _ _ _ _ _ _ =>
    rcases hpc with hpc | hpc
    · rw [hpc] at hc
      cases hc
    · rw [hpc] at hc
      cases hc

/-- What is counted: the iterations of a `try_pop`, the claim attempts of a `pop_wait`. -/
def spent : PopCall → Fin n → List (Event n T) → Nat
  | .tryPop => iterations
  | .popWait => attempts

/-- The iteration under way between its slot load and the next `head_`. -/
def owed : PopCall → Nat
  | .tryPop => 1
  | .popWait => 0

/-- What consumer `i` has spent on a call, since `head_` was at `h₀`, is paid for by
its spurious failures and by how far its `h` has come. -/
def Within (call : PopCall) (h₀ head : Nat) (i : Fin n) (es : List (Event n T)) :
    ConsumerPc T → Prop
  | .idle => spent call i es ≤ 1 + spuriousFailures i es + othersClaims i es
  | .loadHead c => c = call ∧ head = h₀ + othersClaims i es ∧
      spent call i es ≤ spuriousFailures i es
  | .loadSeq c h => c = call ∧ head = h₀ + othersClaims i es ∧
      spent call i es + h₀ ≤ spuriousFailures i es + h
  | .reload c h | .cas c h => c = call ∧ head = h₀ + othersClaims i es ∧
      spent call i es + h₀ ≤ owed call + spuriousFailures i es + h
  | .wait h _ | .parked h _ => call = .popWait ∧ head = h₀ + othersClaims i es ∧
      spent call i es + h₀ ≤ spuriousFailures i es + h
  | .moveOut h | .storeSeq h _ | .notifyOne h _ => head = h₀ + othersClaims i es + 1 ∧
      spent call i es + h₀ ≤ 1 + spuriousFailures i es + h

variable {call : PopCall} {h₀ head : Nat}

theorem spent_append (call : PopCall) (i : Fin n) :
    spent call i (es ++ es') = spent call i es + spent call i es' := by
  cases call with
  | tryPop => exact iterations_append i
  | popWait => exact attempts_append i

theorem spent_zero (call : PopCall) (hlooks : iterations i es = 0) (hattempts : attempts i es = 0) :
    spent call i es = 0 := by
  cases call with
  | tryPop => exact hlooks
  | popWait => exact hattempts

theorem Within.woken {pc : ConsumerPc T} (h : Within call h₀ head i es pc) :
    Within call h₀ head i es pc.woken := by
  cases pc <;> exact h

/-- What others do only adds to what they have claimed. -/
theorem Within.other {pc : ConsumerPc T} (h : Within call h₀ head i es pc)
    (hspent : spent call i es' = 0) (hspurious : spuriousFailures i es' = 0) :
    Within call h₀ (head + othersClaims i es') i (es ++ es') pc := by
  cases pc <;> simp only [Within, spent_append, spurious_append, others_append, hspent,
    hspurious] at h ⊢
  case idle => omega
  case loadHead | loadSeq | reload | cas | wait | parked => exact ⟨h.1, by omega, by omega⟩
  case moveOut | storeSeq | notifyOne => exact ⟨by omega, by omega⟩

theorem spent_looked (call : PopCall) (h : Nat) :
    spent call i [(.looked i h : Event n T)] = owed call := by
  cases call <;> simp [spent, owed, iterations, attempts]

theorem spent_failed (call : PopCall) (b : Bool) :
    spent call i [(.casFailed i b : Event n T)] + owed call = 1 := by
  cases call <;> simp [spent, owed, iterations, attempts]

theorem owed_le (call : PopCall) : owed call ≤ 1 := by
  cases call <;> decide

/-- The consumer's own steps before the claim: `owed` is taken on at the slot load,
or paid back, when the next `head_` is greater. -/
theorem Within.mine (hi : Inv cap.toCapacity log s) (hstale : Stale s) {pc : ConsumerPc T}
    (h : Within call h₀ s.head i es (s.consumers i)) (hm : ConsumerMove cap.toCapacity s i pc es')
    (hcall : es'.any (isCall i) = false)
    (hpark : isParked (s.consumers i) = false → isParked pc = false) :
    Within call h₀ s.head i (es ++ es') pc := by
  have hlocal : ∀ h, localH (s.consumers i) = some h → h ≤ s.head := fun _ => local_le hi
  have howed := owed_le call
  cases hm with
  | call => simp [isCall] at hcall
  | park hc _ =>
    rw [hc] at hpark
    cases hpark rfl
  | loadHead hc =>
    rw [hc] at h
    obtain ⟨hcall, hhead, hle⟩ := h
    rw [List.append_nil]
    exact ⟨hcall, hhead, by omega⟩
  | changed hc _ =>
    rw [hc] at h
    obtain ⟨rfl, hhead, hle⟩ := h
    rw [List.append_nil]
    exact ⟨rfl, hhead, hle⟩
  | @ready c p hc hseq =>
    rw [hc] at h
    obtain ⟨hcall, hhead, hle⟩ := h
    have hone := spent_looked (T := T) (i := i) call p
    refine ⟨hcall, by simpa [othersClaims] using hhead, ?_⟩
    rw [spent_append, spurious_append]
    omega
  | @stale c p hc hseq =>
    rw [hc] at h
    obtain ⟨hcall, hhead, hle⟩ := h
    have hone := spent_looked (T := T) (i := i) call p
    refine ⟨hcall, by simpa [othersClaims] using hhead, ?_⟩
    rw [spent_append, spurious_append]
    omega
  | @empty p hc hseq =>
    have hp := hlocal p (by rw [hc]; rfl)
    rw [hc] at h
    obtain ⟨rfl, hhead, hle⟩ := h
    have hone : spent .tryPop i [(.looked i p : Event n T), .empty i] = 1 := by
      simp [spent, iterations]
    simp only [Within]
    rw [spent_append, spurious_append, others_append, hone]
    omega
  | @block p hc hseq =>
    rw [hc] at h
    obtain ⟨rfl, hhead, hle⟩ := h
    have hone := spent_looked (T := T) (i := i) .popWait p
    refine ⟨rfl, by simpa [othersClaims] using hhead, ?_⟩
    rw [spent_append, spurious_append, hone]
    simp only [owed]
    omega
  | @reload c p hc =>
    have hp := hstale i c p hc
    rw [hc] at h
    obtain ⟨hcall, hhead, hle⟩ := h
    rw [List.append_nil]
    exact ⟨hcall, hhead, by omega⟩
  | @lost c p hc hne =>
    have hp := hlocal p (by rw [hc]; rfl)
    rw [hc] at h
    obtain ⟨hcall, hhead, hle⟩ := h
    have hone := spent_failed (T := T) (i := i) call false
    refine ⟨hcall, by simpa [othersClaims] using hhead, ?_⟩
    rw [spent_append, spurious_append]
    omega
  | @spurious c p hc heq =>
    rw [hc] at h
    obtain ⟨hcall, hhead, hle⟩ := h
    have hone := spent_failed (T := T) (i := i) call true
    have hspurious : spuriousFailures i [(.casFailed i true : Event n T)] = 1 := by
      simp [spuriousFailures]
    refine ⟨hcall, by simpa [othersClaims] using hhead, ?_⟩
    rw [spent_append, spurious_append, hspurious]
    omega

theorem within_claimed {pc : ConsumerPc T} {p : Nat} (hc : claimedAt pc = some p) :
    Within call h₀ head i es pc ↔ head = h₀ + othersClaims i es + 1 ∧
      spent call i es + h₀ ≤ 1 + spuriousFailures i es + p := by
  cases pc <;> cases hc <;> exact Iff.rfl

theorem move_within (hi : Inv cap.toCapacity log s) (hstale : Stale s)
    (hm : Move cap.toCapacity s a s' es') (h : Within call h₀ s.head i es (s.consumers i))
    (hcall : es'.any (isCall i) = false)
    (hpark : isParked (s.consumers i) = false → isParked (s'.consumers i) = false) :
    Within call h₀ s'.head i (es ++ es') (s'.consumers i) := by
  cases move_view i hm with
  | other hpc hhead hlooks hattempts hspurious _ =>
    rw [hhead]
    refine Within.other ?_ (spent_zero call hlooks hattempts) hspurious
    rcases hpc with hpc | hpc
    · rwa [hpc]
    · rw [hpc]
      exact h.woken
  | mine hm hpc hhead =>
    rw [hpc] at hpark ⊢
    rw [hhead]
    exact h.mine hi hstale hm hcall hpark
  | @claim c p hc hh hpc hhead hes =>
    rw [hc] at h
    obtain ⟨_, hacc, hle⟩ := h
    have hone : spent call i [(.claimed i p : Event n T)] + owed call = 1 := by
      cases call <;> simp [spent, owed, iterations, attempts]
    have hnone : spuriousFailures i [(.claimed i p : Event n T)] = 0 ∧
        othersClaims i [(.claimed i p : Event n T)] = 0 := by
      simp [spuriousFailures, othersClaims]
    rw [hpc, hhead, hes]
    refine ⟨?_, ?_⟩
    · rw [others_append]
      omega
    · rw [spent_append, spurious_append]
      omega
  | @after p hc hpc _ hhead hlooks hattempts hspurious hothers _ =>
    have hlt := claimed_lt hi hc
    obtain ⟨hacc, hle⟩ := (within_claimed hc).mp h
    have hspent := spent_zero call hlooks hattempts
    rcases hpc with hpc | hpc
    · rw [within_claimed hpc, hhead, others_append, spent_append, spurious_append]
      omega
    · rw [hpc]
      simp only [Within]
      rw [spent_append, spurious_append, others_append]
      omega

/-- A stretch begins with nothing spent; one that parks is at `head_`. -/
theorem begin_within (hi : Inv cap.toCapacity log s) (hrecalls : Recalls cap.toCapacity s)
    (hm : Move cap.toCapacity s a s' es)
    (hb : es.any (isCall i) = true ∨ isParked (s.consumers i) = false ∧
      isParked (s'.consumers i) = true) :
    ∃ call, (call = .tryPop ↔ .called i .tryPop ∈ es) ∧
      Within call s'.head s'.head i [] (s'.consumers i) := by
  cases move_view i hm with
  | other hpc _ _ _ _ hcall =>
    rw [hcall] at hb
    rcases hb with hb | ⟨hbefore, hafter⟩
    · cases hb
    · rcases hpc with hpc | hpc
      · rw [hpc, hbefore] at hafter
        cases hafter
      · rw [hpc] at hafter
        cases hpc' : s.consumers i <;> rw [hpc'] at hafter <;> cases hafter
  | mine hm hpc hhead =>
    rw [hpc] at hb ⊢
    cases hm with
    | @call c hc => exact ⟨c, by simp [eq_comm], rfl, rfl, by cases c <;> exact Nat.le_refl 0⟩
    | @park p old hc hseq =>
      have hold := hrecalls.consumer i
      rw [hc] at hold
      have hle := local_le hi (i := i) (h := p) (by rw [hc]; rfl)
      have hat := (nothing_left hi hle (by rw [hseq]; exact Nat.lt_succ_of_le hold.2)).1
      refine ⟨.popWait, by simp, rfl, rfl, ?_⟩
      rw [hhead, hat]
      exact Nat.le_refl _
    | _ => simp [isCall, isParked] at hb
  | claim hc _ hpc _ hes =>
    rw [hpc, hes] at hb
    simp [isCall, isParked] at hb
  | @after p _ hpc _ _ _ _ _ _ hcall =>
    rw [hcall] at hb
    rcases hb with hb | ⟨_, hafter⟩
    · cases hb
    · rcases hpc with hpc | hpc
      · cases hpc' : s'.consumers i <;> rw [hpc'] at hafter hpc <;> cases hafter
        cases hpc
      · rw [hpc] at hafter
        cases hafter

theorem own_changes (hown : own i a = true) (hs : step none cap.toCapacity s a = some (s', es)) :
    isParked (s.consumers i) = false ∧ s'.consumers i ≠ s.consumers i := by
  cases a with
  | emplace | producer | pop | spurious => cases hown
  | consumer j =>
    obtain rfl : j = i := of_decide_eq_true hown
    simp only [step] at hs
    cases hc : s.consumers j <;> simp only [stepConsumer, hc] at hs
    all_goals repeat' split at hs
    all_goals cases hs
    all_goals exact ⟨rfl, by simp⟩
  | casFails j =>
    obtain rfl : j = i := of_decide_eq_true hown
    simp only [step] at hs
    repeat' split at hs
    all_goals cases hs
    rename_i hc _
    rw [hc]
    exact ⟨rfl, by simp⟩
  | notifyOne j woken =>
    obtain rfl : j = i := of_decide_eq_true hown
    simp only [step, stepNotifyOne] at hs
    repeat' split at hs
    all_goals cases hs
    · rename_i hc _ _ _
      rw [hc]
      exact ⟨rfl, by simp⟩
    · rename_i hc _ _
      rw [hc]
      exact ⟨rfl, by simp⟩

theorem woken_of_not_parked {pc : ConsumerPc T} (h : isParked pc = false) : pc.woken = pc := by
  cases pc <;> first | rfl | cases h

theorem progress_woken (pc : ConsumerPc T) : progress pc.woken = progress pc := by
  cases pc <;> rfl

/-- Each of the consumer's own steps takes its `try_pop` further, or on to the next
iteration. -/
theorem step_progress (hs : step none cap.toCapacity s a = some (s', es))
    (hcall : es.any (isCall i) = false)
    (hpark : isParked (s.consumers i) = false → isParked (s'.consumers i) = false) :
    progress (s.consumers i) + (own i a).toNat ≤
      progress (s'.consumers i) + 2 * iterations i es := by
  have hle := Bool.toNat_le (own i a)
  cases move_view i (step_moves hs) with
  | other hpc _ hlooks _ _ _ =>
    cases hown : own i a with
    | true =>
      obtain ⟨hparked, hne⟩ := own_changes hown hs
      rw [woken_of_not_parked hparked, or_self] at hpc
      exact absurd hpc hne
    | false =>
      rcases hpc with hpc | hpc
      · rw [hpc]
        exact Nat.le_add_right _ _
      · rw [hpc, progress_woken]
        exact Nat.le_add_right _ _
  | mine hm hpc _ =>
    rw [hpc] at hpark ⊢
    cases hm with
    | call => simp [isCall] at hcall
    | park hc _ =>
      rw [hc] at hpark
      cases hpark rfl
    | loadHead hc | ready hc _ | empty hc _ | block hc _ | stale hc _ | reload hc
    | changed hc _ | lost hc _ | spurious hc _ =>
      simp [hc, progress, iterations]
      omega
  | claim hc _ hpc _ hes =>
    rw [hc, hpc]
    simp only [progress]
    omega
  | after _ _ hprogress _ _ _ _ _ _ => omega

theorem begins_eq (hs : step none cap.toCapacity s a = some (s', es)) :
    begins cap.toCapacity i s a = (es.any (isCall i) ||
      (!isParked (s.consumers i) && isParked (s'.consumers i))) := by
  simp only [begins, hs]

/-- A step within a stretch: no call, and no parking. -/
theorem not_begins (hs : step none cap.toCapacity s a = some (s', es))
    (hb : begins cap.toCapacity i s a = false) : es.any (isCall i) = false ∧
      (isParked (s.consumers i) = false → isParked (s'.consumers i) = false) := by
  rw [begins_eq hs, Bool.or_eq_false_iff] at hb
  refine ⟨hb.1, ?_⟩
  intro hparked
  have hnext := hb.2
  rwa [hparked, Bool.not_false, Bool.true_and] at hnext

/-- One call, or the part of a `pop_wait` between two parkings. -/
theorem stretch_within (hr : (machine n T none cap.toCapacity).Run tr s)
    (hstart : Within call s.head s.head i [] (s.consumers i)) {x : Nat × State n T}
    (h : ((machine n T none cap.toCapacity).counting (own i)).Steps
      (fun x a => begins cap.toCapacity i x.2 a = false) (0, s) es x) :
    (∃ tr', (machine n T none cap.toCapacity).Run tr' x.2) ∧
      Within call s.head x.2.head i es (x.2.consumers i) ∧
      x.1 ≤ 2 * iterations i es + progress (x.2.consumers i) := by
  refine Machine.Steps.invariant (I := fun es x =>
    (∃ tr', (machine n T none cap.toCapacity).Run tr' x.2) ∧
      Within call s.head x.2.head i es (x.2.consumers i) ∧
      x.1 ≤ 2 * iterations i es + progress (x.2.consumers i)) ?_ ?_ h
  · exact ⟨⟨tr, hr⟩, hstart, Nat.zero_le _⟩
  · rintro es x a y es' _ ⟨⟨tr', hr'⟩, hwithin, hcount⟩ hok hs
    obtain ⟨hy, hs⟩ := Machine.counting_step hs
    obtain ⟨hcall, hpark⟩ := not_begins hs hok
    have hprogress := step_progress hs hcall hpark
    refine ⟨⟨_, hr'.next hs⟩, ?_, ?_⟩
    · exact move_within (run_inv hr') (run_stale hr') (step_moves hs) hwithin hcall hpark
    · rw [hy, iterations_append]
      omega

/-- The spending of a stretch is bounded wherever it stands. -/
theorem Within.spent_le (hi : Inv cap.toCapacity log s)
    (h : Within call h₀ s.head i es (s.consumers i)) :
    spent call i es ≤ 1 + spuriousFailures i es + othersClaims i es := by
  have howed := owed_le call
  have hle : ∀ p, localH (s.consumers i) = some p → p ≤ s.head := fun _ => local_le hi
  have hlt : ∀ p, claimedAt (s.consumers i) = some p → p < s.head := fun _ => claimed_lt hi
  cases hc : s.consumers i with
  | idle =>
    rw [hc] at h
    exact h
  | loadHead =>
    rw [hc] at h
    have hspent := h.2.2
    omega
  | loadSeq _ p | reload _ p | cas _ p | wait p _ | parked p _ =>
    rw [hc] at h hle
    have hp := hle p rfl
    obtain ⟨_, hhead, hspent⟩ := h
    omega
  | moveOut p | storeSeq p _ | notifyOne p _ =>
    rw [hc] at h hlt
    have hp := hlt p rfl
    obtain ⟨hhead, hspent⟩ := h
    omega

/-- A consumer inside `try_pop` can always make its next step. -/
theorem own_enabled (hbusy : s.consumers i ≠ .idle) (hwait : ∀ h old, s.consumers i ≠ .wait h old)
    (hparked : isParked (s.consumers i) = false) :
    ∃ a, own i a = true ∧ (step none cap.toCapacity s a).isSome := by
  cases hc : s.consumers i with
  | idle => exact absurd hc hbusy
  | wait h old => exact absurd hc (hwait h old)
  | parked h old =>
    rw [hc] at hparked
    cases hparked
  | loadHead | reload | storeSeq =>
    refine ⟨.consumer i, decide_eq_true rfl, ?_⟩
    simp only [step, stepConsumer, hc, Option.isSome_some]
  | loadSeq call h =>
    refine ⟨.consumer i, decide_eq_true rfl, ?_⟩
    simp only [step, stepConsumer, hc]
    split
    · rfl
    · cases call <;> rfl
    · rfl
  | cas | moveOut =>
    refine ⟨.consumer i, decide_eq_true rfl, ?_⟩
    simp only [step, stepConsumer, hc]
    split <;> rfl
  | notifyOne h v =>
    by_cases hx : ∃ x, s.ParkedOn cap.toCapacity h x
    · obtain ⟨x, hx⟩ := hx
      refine ⟨.notifyOne i (some x), decide_eq_true rfl, ?_⟩
      simp only [step, stepNotifyOne, hc, if_pos hx, Option.isSome_some]
    · refine ⟨.notifyOne i none, decide_eq_true rfl, ?_⟩
      have hnobody : ¬ (s.ParkedOn cap.toCapacity h .producer ∨
          ∃ j, s.ParkedOn cap.toCapacity h (.consumer j)) := by
        rintro (hp | ⟨j, hj⟩)
        · exact hx ⟨_, hp⟩
        · exact hx ⟨_, hj⟩
      simp only [step, stepNotifyOne, hc, if_neg hnobody, Option.isSome_some]

theorem progress_le (pc : ConsumerPc T) : progress pc ≤ 4 := by
  cases pc <;> simp [progress]

/-- A stretch that a step begins stays within its bounds. -/
theorem stretch_bounded (hr : (machine n T none cap.toCapacity).Run tr s)
    (hs : step none cap.toCapacity s a = some (s', es))
    (hb : begins cap.toCapacity i s a = true) {x : Nat × State n T} {fs : List (Event n T)}
    (h : ((machine n T none cap.toCapacity).counting (own i)).Steps
      (fun x a => begins cap.toCapacity i x.2 a = false) (0, s') fs x) :
    (.called i .tryPop ∈ es →
      iterations i fs ≤ 1 + spuriousFailures i fs + othersClaims i fs ∧
      x.1 ≤ 2 * iterations i fs + 4) ∧
    (.called i .tryPop ∉ es →
      attempts i fs ≤ 1 + spuriousFailures i fs + othersClaims i fs) := by
  rw [begins_eq hs, Bool.or_eq_true, Bool.and_eq_true, Bool.not_eq_true'] at hb
  obtain ⟨call, hcall, hstart⟩ := begin_within (run_inv hr) (run_recalls hr) (step_moves hs) hb
  obtain ⟨⟨_, hr'⟩, hwithin, hcount⟩ := stretch_within (hr.next hs) hstart h
  have hspent := hwithin.spent_le (run_inv hr')
  constructor
  · intro hmem
    obtain rfl := hcall.mpr hmem
    have hlast := progress_le (x.2.consumers i)
    exact ⟨hspent, by omega⟩
  · intro hmem
    cases call with
    | tryPop => exact absurd (hcall.mp rfl) hmem
    | popWait => exact hspent

/-- A pop retries only when others make progress: the local `h` never exceeds `head_`
and rises with every retry that no spurious failure caused; so the iterations and the
steps of a `try_pop`, and the claim attempts of a `pop_wait` from one parking to the
next, are bounded; and a `try_pop` always has a next step. -/
theorem retries_bounded (hr : (machine n T none cap.toCapacity).Run tr s) (i : Fin n) :
    (∀ h, localH (s.consumers i) = some h → h ≤ s.head) ∧
    (∀ a s' es call call' h h', step none cap.toCapacity s a = some (s', es) →
      s.consumers i = .reload call h ∨ s.consumers i = .cas call h →
      s'.consumers i = .loadSeq call' h' → .casFailed i true ∉ es → h < h') ∧
    (∀ a s' es, step none cap.toCapacity s a = some (s', es) →
      begins cap.toCapacity i s a = true → ∀ fs k t,
      ((machine n T none cap.toCapacity).counting (own i)).Steps
        (fun x a => begins cap.toCapacity i x.2 a = false) (0, s') fs (k, t) →
      (.called i .tryPop ∈ es →
        iterations i fs ≤ 1 + spuriousFailures i fs + othersClaims i fs ∧
        k ≤ 2 * iterations i fs + 4) ∧
      (.called i .tryPop ∉ es →
        attempts i fs ≤ 1 + spuriousFailures i fs + othersClaims i fs)) ∧
    (s.consumers i ≠ .idle → (∀ h old, s.consumers i ≠ .wait h old) →
      isParked (s.consumers i) = false →
      ∃ a, own i a = true ∧ (step none cap.toCapacity s a).isSome) := by
  refine ⟨fun _ => local_le (run_inv hr), ?_, ?_, own_enabled⟩
  · intro a s' es call call' h h' hs hpc hnext hreal
    exact retry_increases (run_inv hr) (run_stale hr) (step_moves hs) hpc hnext hreal
  · intro a s' es hs hb fs k t h
    exact stretch_bounded hr hs hb h

/-- Two items, and a consumer that stands before the claim of the first. -/
def beforeTheRace (j : Fin 2) : List (Act 2 Nat) :=
  [.emplace .tryEmplace (some 7), .producer, .producer, .producer, .producer, .producer, .producer,
   .emplace .tryEmplace (some 8), .producer, .producer, .producer, .producer, .producer, .producer,
   .pop j .tryPop, .consumer j, .consumer j]

/-- A `try_pop` of `i` that loses the first item to `j` and gets the second. -/
def theRace (i j : Fin 2) : List (Act 2 Nat) :=
  [.consumer i, .consumer i, .consumer j, .consumer i, .consumer i, .consumer i, .consumer i,
   .consumer i, .notifyOne i none]

theorem retries_bounded_race : ∃ tr s s' es fs k t,
    (machine 2 Nat none twoSlots.toCapacity).Run tr s ∧
    step none twoSlots.toCapacity s (.pop 0 .tryPop) = some (s', es) ∧
    ((machine 2 Nat none twoSlots.toCapacity).counting (own 0)).Steps
      (fun x a => begins twoSlots.toCapacity 0 x.2 a = false) (0, s') fs (k, t) ∧
    iterations 0 fs = 2 ∧ iterations 0 fs ≤ 1 + spuriousFailures 0 fs + othersClaims 0 fs := by
  have hr : (machine 2 Nat none twoSlots.toCapacity).Run _ _ :=
    Machine.run_of_exec (beforeTheRace 1) rfl
  have hcall := (retries_bounded hr 0).2.2.1 (.pop 0 .tryPop) _ _ rfl rfl
  have hbound := hcall _ _ _ (Machine.steps_of_exec_where (theRace 0 1) rfl)
  refine ⟨_, _, _, _, _, _, _, hr, rfl, Machine.steps_of_exec_where (theRace 0 1) rfl, rfl, ?_⟩
  exact (hbound.1 (by simp)).1

end Toolbox.Proofs.SpmcRetries
