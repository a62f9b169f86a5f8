import Mathlib.Logic.Function.Iterate
import Toolbox.Tune

namespace Toolbox.Proofs.TuneRestore
open Tune

variable {h h₀ : Host} {cores : List Nat} {c x m n : Nat} {fd : Cpufreq}
  {g g' : Nat → Option Cpufreq} {lines : List SavedFloor}

/-- The core has no `cpufreq` directory, or its floor is at its maximum. -/
def PinnedAt (g : Nat → Option Cpufreq) (c : Nat) : Prop :=
  ∀ fd, g c = some fd → fd.scalingMinFreq = fd.scalingMaxFreq

def Pinned (cores : List Nat) (h : Host) : Prop := ∀ c ∈ cores, PinnedAt h.cpufreq c

theorem write_min_self (hg : g c = some fd) : writeMin g c m c = some (fd.setMin m) := by
  simp [writeMin, hg]

theorem write_min_of_ne (hne : x ≠ c) : writeMin g c m x = g x := by
  simp [writeMin, hne]

theorem write_min_congr (hg : g x = g' x) : writeMin g c m x = writeMin g' c m x := by
  rcases eq_or_ne x c with rfl | hne
  · simp [writeMin, hg]
  · rw [write_min_of_ne hne, write_min_of_ne hne, hg]

theorem restore_line_eq (g : Nat → Option Cpufreq) (line : SavedFloor) :
    restoreLine g line = writeMin g line.core line.origMin := by
  unfold restoreLine
  cases hg : g line.core with
  | none =>
    have habsent : writeMin g line.core line.origMin = g := by
      rw [writeMin, hg]
      exact Function.update_eq_self_iff.mpr hg.symm
    exact habsent.symm
  | some fd => rfl

theorem restore_congr (hg : g x = g' x) :
    lines.foldl restoreLine g x = lines.foldl restoreLine g' x := by
  induction lines generalizing g g' with
  | nil => exact hg
  | cons line lines ih =>
    refine ih ?_
    rw [restore_line_eq, restore_line_eq]
    exact write_min_congr hg

theorem restore_unsaved (hx : ∀ line ∈ lines, line.core ≠ x) :
    lines.foldl restoreLine g x = g x := by
  induction lines generalizing g with
  | nil => rfl
  | cons line lines ih =>
    rw [List.foldl_cons, ih (fun l hl => hx l (List.mem_cons_of_mem _ hl)), restore_line_eq]
    exact write_min_of_ne (hx line List.mem_cons_self).symm

/-- After the cores so far: the file holds what leads back to `h₀`, and only cores
that are pinned by now. -/
def Saved (h₀ h : Host) : Prop :=
  ∃ lines, h.freqStateFile = some lines ∧ lines.foldl restoreLine h.cpufreq = h₀.cpufreq ∧
    ∀ line ∈ lines, PinnedAt h.cpufreq line.core

theorem pin_core_pinned (h : Host) (c : Nat) : PinnedAt (pinCore h c).cpufreq c := by
  intro fd hfd
  unfold pinCore at hfd
  split at hfd
  · rename_i hnone
    rw [hnone] at hfd
    cases hfd
  · rename_i fd' hsome
    split at hfd
    · have hself : writeMin h.cpufreq c fd'.scalingMaxFreq c = some fd := hfd
      rw [write_min_self hsome] at hself
      cases hself
      rfl
    · rename_i heq
      rw [hsome] at hfd
      cases hfd
      exact not_not.mp heq

/-- A core that is pinned stays so. -/
theorem pin_core_keeps (hp : PinnedAt h.cpufreq x) : PinnedAt (pinCore h c).cpufreq x := by
  rcases eq_or_ne x c with rfl | hne
  · exact pin_core_pinned h x
  · unfold pinCore
    split
    · exact hp
    · split
      · intro fd hfd
        have hother : writeMin h.cpufreq c _ x = some fd := hfd
        rw [write_min_of_ne hne] at hother
        exact hp fd hother
      · exact hp

theorem pin_core_of_pinned (hp : PinnedAt h.cpufreq c) : pinCore h c = h := by
  unfold pinCore
  split
  · rfl
  · rename_i fd hfd
    rw [if_neg (not_not.mpr (hp fd hfd))]

theorem pin_core_unpinned (hp : ¬ PinnedAt h.cpufreq c) : ∃ fd, h.cpufreq c = some fd ∧
    pinCore h c = ⟨writeMin h.cpufreq c fd.scalingMaxFreq,
      some (h.freqStateFile.getD [] ++ [⟨c, fd.scalingMinFreq⟩])⟩ := by
  obtain ⟨fd, hfd, hne⟩ : ∃ fd, h.cpufreq c = some fd ∧
      fd.scalingMinFreq ≠ fd.scalingMaxFreq := by
    simpa [PinnedAt] using hp
  refine ⟨fd, hfd, ?_⟩
  simp only [pinCore, hfd, if_pos hne]

/-- One core: its line is new, since the cores in the file are pinned already. -/
theorem Saved.pin_core (hs : Saved h₀ h) (c : Nat) : Saved h₀ (pinCore h c) := by
  by_cases hp : PinnedAt h.cpufreq c
  · rw [pin_core_of_pinned hp]
    exact hs
  · obtain ⟨lines, hfile, hback, hpinned⟩ := hs
    obtain ⟨fd, hfd, hpin⟩ := pin_core_unpinned hp
    rw [hfile, Option.getD_some] at hpin
    have hnew : ∀ line ∈ lines, line.core ≠ c := by
      rintro line hline rfl
      exact hp (hpinned line hline)
    refine ⟨lines ++ [⟨c, fd.scalingMinFreq⟩], by rw [hpin], ?_, ?_⟩
    · rw [hpin, List.foldl_append, List.foldl_cons, List.foldl_nil, ← hback]
      funext x
      rcases eq_or_ne x c with rfl | hx
      · have hgot : lines.foldl restoreLine (writeMin h.cpufreq x fd.scalingMaxFreq) x =
            some (fd.setMin fd.scalingMaxFreq) := by
          rw [restore_unsaved hnew, write_min_self hfd]
        rw [restore_line_eq, write_min_self hgot, restore_unsaved hnew, hfd]
        rfl
      · rw [restore_line_eq, write_min_of_ne hx]
        exact restore_congr (write_min_of_ne hx)
    · intro line hline
      rcases List.mem_append.mp hline with hl | hl
      · exact pin_core_keeps (hpinned line hl)
      · obtain rfl := List.mem_singleton.mp hl
        exact pin_core_pinned h c

theorem Saved.pin_cores (hs : Saved h₀ h) : Saved h₀ (cores.foldl pinCore h) := by
  induction cores generalizing h with
  | nil => exact hs
  | cons c cores ih => exact ih (hs.pin_core c)

theorem apply_saved (cores : List Nat) (h : Host) : Saved h (apply cores h) :=
  Saved.pin_cores ⟨[], rfl, rfl, by simp⟩

theorem pin_cores_keep (hp : PinnedAt h.cpufreq x) :
    PinnedAt (cores.foldl pinCore h).cpufreq x := by
  induction cores generalizing h with
  | nil => exact hp
  | cons c cores ih => exact ih (pin_core_keeps hp)

theorem apply_pinned (cores : List Nat) (h : Host) : Pinned cores (apply cores h) := by
  unfold apply
  generalize { h with freqStateFile := some [] } = h'
  induction cores generalizing h' with
  | nil => simp [Pinned]
  | cons c cores ih =>
    intro x hx
    rcases List.mem_cons.mp hx with rfl | hx
    · exact pin_cores_keep (h := pinCore h' x) (pin_core_pinned h' x)
    · exact ih (pinCore h' c) x hx

/-- An apply that finds every core pinned does nothing but empty the file. -/
theorem apply_of_pinned (hp : Pinned cores h) :
    apply cores h = { h with freqStateFile := some [] } := by
  unfold apply
  have hp' : Pinned cores { h with freqStateFile := some [] } := hp
  revert hp'
  generalize { h with freqStateFile := some [] } = h'
  intro hp'
  induction cores with
  | nil => rfl
  | cons c cores ih =>
    rw [List.foldl_cons, pin_core_of_pinned (hp' c List.mem_cons_self)]
    exact ih (fun x hx => hp x (List.mem_cons_of_mem _ hx))
      (fun x hx => hp' x (List.mem_cons_of_mem _ hx))

/-- From the second apply on the file is empty, and nothing else changes any more. -/
theorem apply_again (cores : List Nat) (h : Host) (n : Nat) :
    (apply cores)^[n + 2] h = { apply cores h with freqStateFile := some [] } := by
  induction n with
  | zero => exact apply_of_pinned (apply_pinned cores h)
  | succ n ih =>
    rw [Function.iterate_succ_apply', ih]
    exact apply_of_pinned (apply_pinned cores h)

theorem undo_apply (cores : List Nat) (h : Host) :
    (undo (apply cores h)).cpufreq = h.cpufreq := by
  obtain ⟨lines, hfile, hback, _⟩ := apply_saved cores h
  simp only [undo, hfile]
  exact hback

theorem undo_apply_again (cores : List Nat) (h : Host) (n : Nat) :
    (undo ((apply cores)^[n + 2] h)).cpufreq = (apply cores h).cpufreq := by
  rw [apply_again]
  rfl

theorem pin_core_max (h : Host) (c x : Nat) :
    ((pinCore h c).cpufreq x).map Cpufreq.scalingMaxFreq =
      (h.cpufreq x).map Cpufreq.scalingMaxFreq := by
  by_cases hp : PinnedAt h.cpufreq c
  · rw [pin_core_of_pinned hp]
  · obtain ⟨fd, hfd, hpin⟩ := pin_core_unpinned hp
    rw [hpin]
    rcases eq_or_ne x c with rfl | hne
    · simp only [write_min_self hfd, hfd]
      rfl
    · simp only [write_min_of_ne hne]

theorem apply_max (cores : List Nat) (h : Host) (x : Nat) :
    ((apply cores h).cpufreq x).map Cpufreq.scalingMaxFreq =
      (h.cpufreq x).map Cpufreq.scalingMaxFreq := by
  unfold apply
  change _ = ((Host.mk h.cpufreq (some [])).cpufreq x).map Cpufreq.scalingMaxFreq
  generalize Host.mk h.cpufreq (some []) = h'
  induction cores generalizing h' with
  | nil => rfl
  | cons c cores ih => exact (ih (pinCore h' c)).trans (pin_core_max h' c x)

/-- Had a core not been at its maximum, the first apply would have raised its floor. -/
theorem pinned_of_apply (hmin : ∀ c, (apply cores h).minFreq c = h.minFreq c) :
    Pinned cores h := by
  intro c hc fd hfd
  have hminc := hmin c
  have hmaxc := apply_max cores h c
  simp only [Host.minFreq, hfd, Option.map_some] at hminc hmaxc
  obtain ⟨fd', hfd', heq⟩ := Option.map_eq_some_iff.mp hminc
  rw [hfd', Option.map_some, Option.some.injEq] at hmaxc
  rw [← heq, ← hmaxc]
  exact apply_pinned cores h c hc fd' hfd'

theorem restores_iff (hn : 1 ≤ n) :
    (∀ c, (undo ((apply cores)^[n] h)).minFreq c = h.minFreq c) ↔ n = 1 ∨ Pinned cores h := by
  obtain rfl | ⟨k, rfl⟩ : n = 1 ∨ ∃ k, n = k + 2 := by
    rcases Nat.eq_or_lt_of_le hn with h1 | h2
    · exact .inl h1.symm
    · exact .inr ⟨n - 2, by omega⟩
  · refine iff_of_true ?_ (.inl rfl)
    intro c
    rw [Function.iterate_one, Host.minFreq, undo_apply]
    rfl
  · have hlast : ∀ c, (undo ((apply cores)^[k + 2] h)).minFreq c = (apply cores h).minFreq c := by
      intro c
      rw [Host.minFreq, undo_apply_again]
      rfl
    simp only [hlast]
    constructor
    · exact fun hmin => .inr (pinned_of_apply hmin)
    · rintro (hone | hp) c
      · omega
      · rw [apply_of_pinned hp]
        rfl

theorem twice_iff : (apply cores)^[2] h = apply cores h ↔ Pinned cores h := by
  rw [apply_again cores h 0]
  constructor
  · intro heq
    have hfile : (apply cores h).freqStateFile = some [] := by rw [← heq]
    obtain ⟨lines, hlines, hback, _⟩ := apply_saved cores h
    cases hfile.symm.trans hlines
    have hp := apply_pinned cores h
    intro c hc
    rw [← hback]
    exact hp c hc
  · intro hp
    rw [apply_of_pinned hp]

/-- When undo gives every core its first floor back after `n` applies, and when a
second apply changes nothing. -/
theorem undo_restores_iff (cores : List Nat) (h : Host) (hn : 1 ≤ n) :
    ((∀ c, (undo ((apply cores)^[n] h)).minFreq c = h.minFreq c) ↔ n = 1 ∨ Pinned cores h) ∧
    ((apply cores)^[2] h = apply cores h ↔ Pinned cores h) :=
  ⟨restores_iff hn, twice_iff⟩

/-- Core 0 at 800 MHz of 4 GHz, core 1 already at its maximum, no other cores. -/
def oneUnpinned : Host where
  cpufreq
    | 0 => some ⟨800000, 4000000⟩
    | 1 => some ⟨3600000, 3600000⟩
    | _ => none
  freqStateFile := none

theorem undo_restores_after_one :
    (apply [0, 1, 3] oneUnpinned).minFreq 0 = some 4000000 ∧
    (undo ((apply [0, 1, 3])^[1] oneUnpinned)).minFreq 0 = some 800000 := by
  refine ⟨by decide, ?_⟩
  exact (undo_restores_iff [0, 1, 3] oneUnpinned (Nat.le_refl 1)).1.mpr (.inl rfl) 0

/-- The second apply finds core 0 pinned and empties the file. -/
theorem second_apply_forgets :
    (undo ((apply [0, 1, 3])^[2] oneUnpinned)).minFreq 0 = some 4000000 ∧
    oneUnpinned.minFreq 0 = some 800000 ∧
    (apply [0, 1, 3])^[2] oneUnpinned ≠ apply [0, 1, 3] oneUnpinned := by
  refine ⟨by decide, by decide, ?_⟩
  rw [ne_eq, twice_iff]
  intro hp
  exact absurd (hp 0 (by decide) _ rfl) (by decide)

end Toolbox.Proofs.TuneRestore
