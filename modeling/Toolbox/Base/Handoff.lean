import Mathlib.Algebra.Order.Group.Multiset
import Toolbox.Base.Count
import Toolbox.Base.Machine

namespace Toolbox.Base.Handoff

/-- Whether a call returns at once when the queue cannot serve it, or waits until it can. -/
inductive Manner where
  | tries
  | waits
  deriving DecidableEq

/-- Where the one pushing thread is: a call of it ends at once when it is refused
or throws, and returns some time after it has taken effect otherwise. `none` as
argument stands for one whose construction throws. -/
inductive PushPc (T : Type*) where
  | idle
  | offered (how : Manner) (arg : Option T)
  | stored

/-- Where a popping thread is: it takes the oldest item, gives the item's place free
and returns, each at a moment of its own. -/
inductive PopPc (T : Type*) where
  | idle
  | asked (how : Manner)
  | holds (p : Nat) (v : T)
  | released (v : T)

/-- The place that a pop keeps from being used again. -/
def held {T : Type*} : PopPc T → Option Nat
  | .holds p _ => some p
  | .idle | .asked _ | .released _ => none

/-- A queue from one thread to `n` others: all items ever stored, and how many of
them have been taken. -/
structure State (n : Nat) (T : Type*) where
  log : List T
  taken : Nat
  push : PushPc T
  pops : Fin n → PopPc T

inductive Act (n : Nat) (T : Type*) where
  | offer (how : Manner) (arg : Option T)
  | store
  | refuse
  | throw
  | finish
  | ask (i : Fin n) (how : Manner)
  | take (i : Fin n)
  | miss (i : Fin n)
  | release (i : Fin n)
  | give (i : Fin n)

/-- The calls and what they return. -/
inductive Event (n : Nat) (T : Type*) where
  | offered (how : Manner) (arg : Option T)
  | pushed
  | refused
  | threw
  | asked (i : Fin n) (how : Manner)
  | given (i : Fin n) (v : T)
  | nothing (i : Fin n)

variable {n : Nat} {T : Type*}

namespace State

def atPush (x : State n T) (pc : PushPc T) : State n T := { x with push := pc }

def atPop (x : State n T) (i : Fin n) (pc : PopPc T) : State n T :=
  { x with pops := Function.update x.pops i pc }

/-- There is a place for the next item: the item a lap before it has been taken and
no pop still keeps its place. -/
def Roomy (bound : Nat) (x : State n T) : Prop :=
  x.log.length < bound ∨ x.log.length < x.taken + bound ∧
    ∀ i, held (x.pops i) ≠ some (x.log.length - bound)

instance (bound : Nat) (x : State n T) : Decidable (x.Roomy bound) :=
  inferInstanceAs (Decidable (_ ∨ _ ∧ _))

end State

def step (bound : Nat) (x : State n T) : Act n T → Option (State n T × List (Event n T))
  | .offer how arg =>
    match x.push with
    | .idle => some (x.atPush (.offered how arg), [.offered how arg])
    | _ => none
  | .store =>
    match x.push with
    | .offered _ (some v) =>
      if x.Roomy bound then some ({ x with log := x.log ++ [v] }.atPush .stored, []) else none
    | _ => none
  | .refuse =>
    match x.push with
    | .offered .tries _ => if x.Roomy bound then none else some (x.atPush .idle, [.refused])
    | _ => none
  | .throw =>
    match x.push with
    | .offered _ none => if x.Roomy bound then some (x.atPush .idle, [.threw]) else none
    | _ => none
  | .finish =>
    match x.push with
    | .stored => some (x.atPush .idle, [.pushed])
    | _ => none
  | .ask i how =>
    match x.pops i with
    | .idle => some (x.atPop i (.asked how), [.asked i how])
    | _ => none
  | .take i =>
    match x.pops i, x.log[x.taken]? with
    | .asked _, some v =>
      some ({ x with taken := x.taken + 1 }.atPop i (.holds x.taken v), [])
    | _, _ => none
  | .miss i =>
    match x.pops i, x.log[x.taken]? with
    | .asked .tries, none => some (x.atPop i .idle, [.nothing i])
    | _, _ => none
  | .release i =>
    match x.pops i with
    | .holds _ v => some (x.atPop i (.released v), [])
    | _ => none
  | .give i =>
    match x.pops i with
    | .released v => some (x.atPop i .idle, [.given i v])
    | _ => none

/-- The queue with `bound` places, whose operations take effect in one step. -/
def machine (n : Nat) (T : Type*) (bound : Nat) : Machine (State n T) (Act n T) (Event n T) where
  init := ⟨[], 0, .idle, fun _ => .idle⟩
  step := step bound

/-- Everything a step can do. -/
inductive Move (bound : Nat) (x : State n T) : Act n T → State n T → List (Event n T) → Prop
  | offer {how arg} (hp : x.push = .idle) :
      Move bound x (.offer how arg) (x.atPush (.offered how arg)) [.offered how arg]
  | store {how v} (hp : x.push = .offered how (some v)) (hroom : x.Roomy bound) :
      Move bound x .store ({ x with log := x.log ++ [v] }.atPush .stored) []
  | refuse {arg} (hp : x.push = .offered .tries arg) (hroom : ¬ x.Roomy bound) :
      Move bound x .refuse (x.atPush .idle) [.refused]
  | throw {how} (hp : x.push = .offered how none) (hroom : x.Roomy bound) :
      Move bound x .throw (x.atPush .idle) [.threw]
  | finish (hp : x.push = .stored) : Move bound x .finish (x.atPush .idle) [.pushed]
  | ask {i how} (hc : x.pops i = .idle) :
      Move bound x (.ask i how) (x.atPop i (.asked how)) [.asked i how]
  | take {i how v} (hc : x.pops i = .asked how) (hv : x.log[x.taken]? = some v) :
      Move bound x (.take i) ({ x with taken := x.taken + 1 }.atPop i (.holds x.taken v)) []
  | miss {i} (hc : x.pops i = .asked .tries) (hv : x.log[x.taken]? = none) :
      Move bound x (.miss i) (x.atPop i .idle) [.nothing i]
  | release {i p v} (hc : x.pops i = .holds p v) :
      Move bound x (.release i) (x.atPop i (.released v)) []
  | give {i v} (hc : x.pops i = .released v) :
      Move bound x (.give i) (x.atPop i .idle) [.given i v]

variable {bound : Nat} {x x' : State n T} {a : Act n T} {tr es : List (Event n T)}

section Fields

variable (x : State n T) (pc : PushPc T) (i : Fin n) (c : PopPc T)

@[simp] theorem log_at_push : (x.atPush pc).log = x.log := rfl

@[simp] theorem taken_at_push : (x.atPush pc).taken = x.taken := rfl

@[simp] theorem push_at_push : (x.atPush pc).push = pc := rfl

@[simp] theorem pops_at_push : (x.atPush pc).pops = x.pops := rfl

@[simp] theorem log_at_pop : (x.atPop i c).log = x.log := rfl

@[simp] theorem taken_at_pop : (x.atPop i c).taken = x.taken := rfl

@[simp] theorem push_at_pop : (x.atPop i c).push = x.push := rfl

@[simp] theorem pops_at_pop (j : Fin n) :
    (x.atPop i c).pops j = if j = i then c else x.pops j := by
  simp only [State.atPop, Function.update_apply]

end Fields

theorem step_moves (h : step bound x a = some (x', es)) : Move bound x a x' es := by
  cases a <;> simp only [step] at h
  all_goals repeat' split at h
  all_goals cases h
  all_goals constructor <;> assumption

/-- What the pops returned, in order, and what those of one thread did. -/
def given (tr : List (Event n T)) : List (Fin n × T) :=
  tr.filterMap (fun | .given i v => some (i, v) | _ => none)

def givenTo (i : Fin n) (tr : List (Event n T)) : List T :=
  tr.filterMap (fun | .given j v => if j = i then some v else none | _ => none)

@[simp] theorem given_append : given (tr ++ es) = given tr ++ given es := List.filterMap_append

@[simp] theorem given_to_append (i : Fin n) :
    givenTo i (tr ++ es) = givenTo i tr ++ givenTo i es := List.filterMap_append

/-- The item that a pop has taken and not yet returned. -/
def carried : PopPc T → List T
  | .holds _ v | .released v => [v]
  | .idle | .asked _ => []

/-- Every item taken has been returned by one pop or is carried by one, and no
thread takes items out of order. -/
structure Accounted (tr : List (Event n T)) (x : State n T) : Prop where
  taken : x.taken ≤ x.log.length
  items : ((given tr).map Prod.snd : Multiset T) + ∑ i, (carried (x.pops i) : Multiset T) =
    (x.log.take x.taken : Multiset T)
  order : ∀ i, (givenTo i tr ++ carried (x.pops i)).Sublist (x.log.take x.taken)

theorem Accounted.silent (h : Accounted tr x) (hgiven : given es = [])
    (hto : ∀ i, givenTo i es = []) : Accounted (tr ++ es) x :=
  ⟨h.taken, by simpa [hgiven] using h.items, fun i => by simpa [hto i] using h.order i⟩

theorem Accounted.at_push (h : Accounted tr x) (pc : PushPc T) : Accounted tr (x.atPush pc) :=
  ⟨h.taken, h.items, h.order⟩

theorem Accounted.at_pop (h : Accounted tr x) {i : Fin n} {c : PopPc T}
    (hc : carried c = carried (x.pops i)) : Accounted tr (x.atPop i c) := by
  refine ⟨h.taken, ?_, ?_⟩
  · have hsum := sum_update (fun c => (carried c : Multiset T)) x.pops i c
    rw [hc, add_left_inj] at hsum
    exact (congrArg _ hsum).trans h.items
  · intro j
    rw [pops_at_pop]
    split
    · rename_i hj
      rw [hc, hj]
      exact h.order i
    · exact h.order j

theorem Accounted.store (h : Accounted tr x) (v : T) :
    Accounted tr { x with log := x.log ++ [v] } := by
  have htake : (x.log ++ [v]).take x.taken = x.log.take x.taken :=
    List.take_append_of_le_length h.taken
  refine ⟨?_, ?_, ?_⟩
  · have htaken := h.taken
    simp only [List.length_append]
    omega
  · simpa only [htake] using h.items
  · simpa only [htake] using h.order

/-- A pop takes the oldest item left: it carries none before. -/
theorem Accounted.take (h : Accounted tr x) {i : Fin n} {how : Manner}
    (hc : x.pops i = .asked how)
    (hlt : x.taken < x.log.length) : Accounted tr
      ({ x with taken := x.taken + 1 }.atPop i (.holds x.taken x.log[x.taken])) := by
  have htake := List.take_succ_eq_append_getElem hlt
  refine ⟨hlt, ?_, ?_⟩
  · have hsum := sum_update (fun c => (carried c : Multiset T)) x.pops i
      (.holds x.taken x.log[x.taken])
    simp only [hc, show carried (T := T) (.asked how) = [] from rfl, Multiset.coe_nil,
      add_zero] at hsum
    simp only [State.atPop]
    rw [hsum, ← add_assoc, h.items, htake]
    rfl
  · intro j
    have horder := h.order j
    simp only [pops_at_pop, taken_at_pop, log_at_pop, htake]
    split
    · rename_i hj
      rw [hj, hc, show carried (T := T) (.asked how) = [] from rfl, List.append_nil] at horder
      rw [hj]
      exact horder.append (List.Sublist.refl _)
    · exact horder.trans (List.sublist_append_left _ _)

theorem Accounted.give (h : Accounted tr x) {i : Fin n} {v : T} (hc : x.pops i = .released v) :
    Accounted (tr ++ [.given i v]) (x.atPop i .idle) := by
  refine ⟨h.taken, ?_, ?_⟩
  · have hsum := sum_update (fun c => (carried c : Multiset T)) x.pops i .idle
    simp only [hc, show carried (T := T) .idle = [] from rfl, Multiset.coe_nil, add_zero] at hsum
    rw [taken_at_pop, log_at_pop, ← h.items, ← hsum, given_append, List.map_append,
      ← Multiset.coe_add, add_assoc, add_comm (∑ j, _)]
    rfl
  · intro j
    have horder := h.order j
    by_cases hj : j = i
    · rw [hj, hc] at horder
      rw [hj, given_to_append, pops_at_pop, if_pos rfl]
      simpa [givenTo, carried] using horder
    · rw [given_to_append, pops_at_pop, if_neg hj]
      simpa [givenTo, Ne.symm hj] using horder

theorem move_accounted (h : Accounted tr x) (hm : Move bound x a x' es) :
    Accounted (tr ++ es) x' := by
  cases hm with
  | offer | refuse | throw | finish => exact (h.at_push _).silent rfl (fun _ => rfl)
  | store hp hroom => exact ((h.store _).at_push _).silent rfl (fun _ => rfl)
  | ask hc => exact (h.at_pop (by rw [hc]; rfl)).silent rfl (fun _ => rfl)
  | miss hc hv => exact (h.at_pop (by rw [hc]; rfl)).silent rfl (fun _ => rfl)
  | release hc => exact (h.at_pop (by rw [hc]; rfl)).silent rfl (fun _ => rfl)
  | @take i how v hc hv =>
    obtain ⟨hlt, rfl⟩ := List.getElem?_eq_some_iff.mp hv
    exact (h.take hc hlt).silent rfl (fun _ => rfl)
  | give hc => exact h.give hc

theorem run_accounted (hr : (machine n T bound).Run tr x) : Accounted tr x := by
  refine Machine.Run.invariant (I := fun tr x => Accounted tr x) ?_ ?_ hr
  · exact ⟨Nat.le_refl 0, by simp [machine, given, carried], fun _ => List.Sublist.refl _⟩
  · intro tr x a x' es _ h hs
    exact move_accounted h (step_moves hs)

end Toolbox.Base.Handoff
