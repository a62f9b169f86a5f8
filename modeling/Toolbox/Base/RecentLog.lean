import Mathlib.Data.Nat.Notation

namespace Toolbox.Base.RecentLog

/-- Where a reader stands: the position it reads next, counted from 1, and how
many positions it was told it missed. -/
structure Reader where
  pos : Nat
  missed : Nat

/-- What a read of a log that keeps only its last items tells. -/
inductive Answer (α : Type*) where
  | item (pos : Nat) (a : α)
  | nothing
  | skipped (target : Nat)

variable {α : Type*} {C : Nat} {log : List α} {r : Reader}

/-- The first position that a log of its last `C` items still has. -/
def oldest (C : Nat) (log : List α) : Nat := log.length - C + 1

def read (C : Nat) (log : List α) (r : Reader) : Answer α × Reader :=
  if r.pos < oldest C log then
    (.skipped (oldest C log), ⟨oldest C log, r.missed + (oldest C log - r.pos)⟩)
  else
    match log[r.pos - 1]? with
    | some a => (.item r.pos a, ⟨r.pos + 1, r.missed⟩)
    | none => (.nothing, r)

/-- The answers of `k` reads in a row and where they leave the reader. -/
def reads (C : Nat) (log : List α) (r : Reader) : Nat → List (Answer α) × Reader
  | 0 => ([], r)
  | k + 1 =>
    ((reads C log r k).1 ++ [(read C log (reads C log r k).2).1],
      (read C log (reads C log r k).2).2)

theorem read_skipped (h1 : 1 ≤ r.pos) (h : r.pos + C ≤ log.length) :
    read C log r = (.skipped (log.length - C + 1),
      ⟨log.length - C + 1, r.missed + (log.length - C + 1 - r.pos)⟩) := by
  have hlt : r.pos < oldest C log := by
    unfold oldest
    omega
  unfold read
  rw [if_pos hlt]
  rfl

theorem read_item {a : α} (h1 : 1 ≤ r.pos) (h : log.length < r.pos + C) (ha : log[r.pos - 1]? = some a) :
    read C log r = (.item r.pos a, ⟨r.pos + 1, r.missed⟩) := by
  have hge : ¬ r.pos < oldest C log := by
    unfold oldest
    omega
  simp only [read, if_neg hge, ha]

theorem read_nothing (h : r.pos = log.length + 1) : read C log r = (.nothing, r) := by
  have hge : ¬ r.pos < oldest C log := by
    unfold oldest
    omega
  have hnone : log[r.pos - 1]? = none := List.getElem?_eq_none (by omega)
  simp only [read, if_neg hge, hnone]

/-- Which of the three answers a read gives is a matter of the position alone. -/
theorem read_exact {r' : Reader} {ans : Answer α} (hC : 0 < C) (h1 : 1 ≤ r.pos)
    (hle : r.pos ≤ log.length + 1) (hread : read C log r = (ans, r')) :
    ((∃ a, log[r.pos - 1]? = some a ∧ ans = .item r.pos a ∧ r'.pos = r.pos + 1 ∧
      r'.missed = r.missed) ↔ log.length - C + 1 ≤ r.pos ∧ r.pos ≤ log.length) ∧
    ((ans = .nothing ∧ r'.pos = r.pos ∧ r'.missed = r.missed) ↔ r.pos = log.length + 1) ∧
    ((ans = .skipped (log.length - C + 1) ∧ r'.pos = log.length - C + 1 ∧
      r'.missed = r.missed + (log.length - C + 1 - r.pos)) ↔ r.pos + C ≤ log.length) := by
  rcases Nat.lt_or_ge log.length (r.pos + C) with hlt | hge
  · rcases Nat.lt_or_eq_of_le hle with hin | hend
    · have ha : log[r.pos - 1]? = some log[r.pos - 1] := List.getElem?_eq_getElem (by omega)
      rw [read_item h1 hlt ha] at hread
      cases hread
      refine ⟨⟨fun _ => by omega, fun _ => ⟨_, ha, rfl, rfl, rfl⟩⟩, ⟨?_, fun h => by omega⟩,
        ⟨?_, fun h => by omega⟩⟩
      · rintro ⟨h, _⟩
        cases h
      · rintro ⟨h, _⟩
        cases h
    · rw [read_nothing hend] at hread
      cases hread
      refine ⟨⟨?_, fun h => by omega⟩, ⟨fun _ => hend, fun _ => ⟨rfl, rfl, rfl⟩⟩,
        ⟨?_, fun h => by omega⟩⟩
      · rintro ⟨a, _, h, _⟩
        cases h
      · rintro ⟨h, _⟩
        cases h
  · rw [read_skipped h1 hge] at hread
    cases hread
    refine ⟨⟨?_, fun h => by omega⟩, ⟨?_, fun h => by omega⟩,
      ⟨fun _ => hge, fun _ => ⟨rfl, rfl, rfl⟩⟩⟩
    · rintro ⟨a, _, h, _⟩
      cases h
    · rintro ⟨h, _⟩
      cases h

theorem reads_cons (k : Nat) : reads C log r (k + 1) =
    ((read C log r).1 :: (reads C log (read C log r).2 k).1,
      (reads C log (read C log r).2 k).2) := by
  induction k with
  | zero => rfl
  | succ k ih =>
    rw [reads, ih]
    rfl

/-- The items from position `p` on. -/
def itemsFrom (log : List α) (p : Nat) : List (Answer α) :=
  ((log.drop (p - 1)).zipIdx p).map (fun x => .item x.2 x.1)

theorem items_from_some {p : Nat} {a : α} (h1 : 1 ≤ p) (ha : log[p - 1]? = some a) :
    itemsFrom log p = .item p a :: itemsFrom log (p + 1) := by
  obtain ⟨hlt, rfl⟩ := List.getElem?_eq_some_iff.mp ha
  have hsucc : p - 1 + 1 = p + 1 - 1 := by omega
  unfold itemsFrom
  rw [List.drop_eq_getElem_cons hlt, List.zipIdx_cons, List.map_cons, hsucc]

theorem items_from_none {p : Nat} (h : log[p - 1]? = none) : itemsFrom log p = [] := by
  have hle := List.getElem?_eq_none_iff.mp h
  simp [itemsFrom, List.drop_eq_nil_of_le hle]

/-- From a position that is still kept on, reads give every item that is left,
in order, and then nothing for ever. -/
theorem reads_current {k N : Nat} (hN : k ≤ N) (h1 : 1 ≤ r.pos)
    (h : oldest C log ≤ r.pos) :
    (reads C log r k).1 = (itemsFrom log r.pos ++ List.replicate N Answer.nothing).take k := by
  induction k generalizing r with
  | zero => simp [reads]
  | succ k ih =>
    have hge : ¬ r.pos < oldest C log := by omega
    rw [reads_cons]
    cases ha : log[r.pos - 1]? with
    | some a =>
      have hread : read C log r = (.item r.pos a, ⟨r.pos + 1, r.missed⟩) := by
        simp only [read, if_neg hge, ha]
      rw [hread, ih (by omega) (Nat.le_add_left _ _) (Nat.le_succ_of_le h),
        items_from_some h1 ha]
      rfl
    | none =>
      have hread : read C log r = (.nothing, r) := by
        simp only [read, if_neg hge, ha]
      rw [hread, ih (by omega) h1 h, items_from_none ha, List.nil_append, List.take_replicate,
        List.take_replicate, Nat.min_eq_left (by omega), Nat.min_eq_left hN]
      rfl

/-- At most one skip, then every surviving item in order, then nothing for ever. -/
theorem reads_all {k N : Nat} (hN : k ≤ N) (h1 : 1 ≤ r.pos) :
    (reads C log r k).1 =
      ((if r.pos < oldest C log then [Answer.skipped (oldest C log)] else []) ++
        itemsFrom log (max r.pos (oldest C log)) ++
        List.replicate N Answer.nothing).take k := by
  by_cases hlt : r.pos < oldest C log
  · rw [if_pos hlt, Nat.max_eq_right (Nat.le_of_lt hlt)]
    cases k with
    | zero => simp [reads]
    | succ k =>
      have hread : (read C log r).1 = .skipped (oldest C log) ∧
          (read C log r).2.pos = oldest C log := by
        simp only [read, if_pos hlt, and_self]
      rw [reads_cons, hread.1, reads_current (Nat.le_of_succ_le hN) (by omega)
        (Nat.le_of_eq hread.2.symm), hread.2]
      rfl
  · rw [if_neg hlt, Nat.max_eq_left (Nat.le_of_not_lt hlt), List.nil_append]
    exact reads_current hN h1 (Nat.le_of_not_lt hlt)

end Toolbox.Base.RecentLog
