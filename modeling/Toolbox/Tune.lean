import Mathlib.Logic.Function.Basic

namespace Toolbox.Tune

/-- A core's `cpufreq` directory. -/
structure Cpufreq where
  scalingMinFreq : Nat
  scalingMaxFreq : Nat

/-- A line `cpu<N> <original_min_freq>` of `FREQ_STATE_FILE`. -/
structure SavedFloor where
  core : Nat
  origMin : Nat

/-- What step 2 and its undo read and write. A core may lack the directory, and the
state file may not be there. -/
structure Host where
  cpufreq : Nat → Option Cpufreq
  freqStateFile : Option (List SavedFloor)

def Cpufreq.setMin (minFreq : Nat) (fd : Cpufreq) : Cpufreq :=
  { fd with scalingMinFreq := minFreq }

/-- `echo "$minFreq" > "$fd/scaling_min_freq"`. -/
def writeMin (cpufreq : Nat → Option Cpufreq) (c minFreq : Nat) : Nat → Option Cpufreq :=
  Function.update cpufreq c ((cpufreq c).map (Cpufreq.setMin minFreq))

/-- The body of the loop over `CORES`. -/
def pinCore (h : Host) (c : Nat) : Host :=
  match h.cpufreq c with
  | none => h
  | some fd =>
    if fd.scalingMinFreq ≠ fd.scalingMaxFreq then
      { cpufreq := writeMin h.cpufreq c fd.scalingMaxFreq
        freqStateFile := some (h.freqStateFile.getD [] ++ [⟨c, fd.scalingMinFreq⟩]) }
    else h

/-- Step 2 of an apply run. The state file is emptied first, then written line by line. -/
def apply (cores : List Nat) (h : Host) : Host :=
  cores.foldl pinCore { h with freqStateFile := some [] }

/-- The body of the loop over the state file's lines. -/
def restoreLine (cpufreq : Nat → Option Cpufreq) (line : SavedFloor) : Nat → Option Cpufreq :=
  match cpufreq line.core with
  | none => cpufreq
  | some _ => writeMin cpufreq line.core line.origMin

/-- `Undo 2`. -/
def undo (h : Host) : Host :=
  match h.freqStateFile with
  | none => h
  | some lines => { cpufreq := lines.foldl restoreLine h.cpufreq, freqStateFile := none }

/-- `scaling_min_freq` of a core, where there is one. -/
def Host.minFreq (h : Host) (c : Nat) : Option Nat := (h.cpufreq c).map Cpufreq.scalingMinFreq

end Toolbox.Tune
