import Mathlib.Data.List.Perm.Subperm

namespace Toolbox.Base.Keyed

variable {κ β : Type*} {xs ys : List (κ × β)}

theorem nodup_values_of_subperm (h : List.Subperm xs ys) (hys : (ys.map Prod.snd).Nodup) :
    (xs.map Prod.snd).Nodup := by
  obtain ⟨zs, hperm, hsub⟩ := h
  have hzs : (zs.map Prod.snd).Nodup := hys.sublist (hsub.map Prod.snd)
  exact (hperm.map Prod.snd).nodup_iff.mp hzs

variable [DecidableEq κ]

/-- The entries of one key, in order. -/
def entries (i : κ) (xs : List (κ × β)) : List (κ × β) := xs.filter (fun x => x.1 = i)

theorem entries_append (i : κ) : entries i (xs ++ ys) = entries i xs ++ entries i ys :=
  List.filter_append ..

theorem mem_entries {i : κ} {b : β} : (i, b) ∈ entries i xs ↔ (i, b) ∈ xs := by
  simp [entries]

/-- The values of a key tell its entries. -/
theorem entries_of_values {i : κ} (h : (entries i xs).map Prod.snd = (entries i ys).map Prod.snd) :
    entries i xs = entries i ys := by
  have hrebuild : ∀ zs : List (κ × β), entries i zs =
      ((entries i zs).map Prod.snd).map (fun b => (i, b)) := by
    intro zs
    rw [List.map_map]
    refine (List.map_id _).symm.trans (List.map_congr_left ?_)
    intro z hz
    have hkey : z.1 = i := by simpa using (List.mem_filter.mp hz).2
    exact Prod.ext hkey rfl
  rw [hrebuild xs, h, ← hrebuild ys]

variable [DecidableEq β]

theorem count_entries (i : κ) (b : β) : (entries i xs).count (i, b) = xs.count (i, b) :=
  List.count_filter (by simp)

/-- Lists that agree key by key have the same entries. -/
theorem perm_of_entries (h : ∀ i, entries i xs = entries i ys) : xs.Perm ys := by
  apply List.perm_iff_count.mpr
  rintro ⟨i, b⟩
  rw [← count_entries, h i, count_entries]

/-- A list that lags behind another one key by key has no entry that is not there. -/
theorem subperm_of_entries (h : ∀ i, entries i xs <+: entries i ys) : List.Subperm xs ys := by
  apply List.subperm_ext_iff.mpr
  rintro ⟨i, b⟩ _
  have hle := (h i).sublist.count_le (i, b)
  rwa [count_entries, count_entries] at hle

end Toolbox.Base.Keyed
