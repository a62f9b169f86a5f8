import Toolbox.Proofs.OverwriteSeqlock
import Toolbox.Proofs.OverwriteSerial

namespace Toolbox.Proofs.OverwriteWrap
open Base RecentLog Overwrite OverwriteMoves OverwriteSerial

variable {n m w : Nat} {D : Type*} {cap : Capacity}

/-- Twice the ring fits into the half range that is left to positions. -/
structure Fits (w : Nat) (cap : Capacity) : Prop where
  half : 2 ^ w = 2 * 2 ^ (w - 1)
  size : 2 * cap.size ≤ 2 ^ (w - 1)
  bits : cap.bits ≤ w

theorem accepted_fits {N : Nat} {cap : RingCapacity}
    (h : checkAndRoundCapacity w N = .ok cap) : Fits w cap.toCapacity := by
  obtain ⟨_, _, _, hle⟩ := round_capacity_ok h
  have htwo := cap.two_le
  have hbits := round_capacity_bits h
  have hw : 3 ≤ w := by
    by_contra hlt
    have hzero : w - 2 = 0 := by omega
    rw [hzero] at hle
    omega
  have hquarter := Width.two_pow_pred (w := w - 1) (by omega)
  have hsub : w - 1 - 1 = w - 2 := by omega
  rw [hsub] at hquarter
  exact ⟨Width.two_pow_pred (by omega), by omega, by omega⟩

section Positions

variable {pos P : Nat}

/-- The encoded position has lost all but the lower `w - 1` bits. -/
theorem stable_wrap (hfit : Fits w cap) (pos : Nat) :
    stable (some w) (Width.wrap (some w) pos) = 2 * (pos % 2 ^ (w - 1)) := by
  have hdvd : 2 ^ (w - 1) ∣ 2 ^ w := ⟨2, by rw [hfit.half, Nat.mul_comm]⟩
  simp only [stable, Width.wrap, Nat.shiftLeft_eq, Nat.pow_one]
  rw [Nat.mul_comm, hfit.half, Nat.mul_mod_mul_left, ← hfit.half, Nat.mod_mod_of_dvd _ hdvd]

theorem mod_half (hfit : Fits w cap) (pos : Nat) :
    pos % 2 ^ (w - 1) = pos % 2 ^ w % 2 ^ (w - 1) := by
  have hdvd : 2 ^ (w - 1) ∣ 2 ^ w := ⟨2, by rw [hfit.half, Nat.mul_comm]⟩
  exact (Nat.mod_mod_of_dvd _ hdvd).symm

/-- The slot of the next position holds an older one, which looks older unless a
wrap lies between them. -/
theorem leftover (hfit : Fits w cap) (h1 : 1 ≤ pos) :
    ((pos < 2 ^ w ∨ cap.size ≤ pos % 2 ^ w) → (pos - cap.size) % 2 ^ (w - 1) < pos % 2 ^ w) ∧
    (¬ (pos < 2 ^ w ∨ cap.size ≤ pos % 2 ^ w) →
      pos % 2 ^ w < (pos - cap.size) % 2 ^ (w - 1)) := by
  have hpos := cap.size_pos
  have hhalf := hfit.half
  have hsize := hfit.size
  have hdiv := Nat.div_add_mod pos (2 ^ w)
  have hmod := Nat.mod_lt pos (Nat.two_pow_pos w)
  constructor
  · rintro (hlt | hge)
    · rw [Nat.mod_eq_of_lt hlt]
      exact Nat.lt_of_le_of_lt (Nat.mod_le _ _) (by omega)
    · have hsplit : pos - cap.size =
          2 ^ (w - 1) * (2 * (pos / 2 ^ w)) + (pos % 2 ^ w - cap.size) := by
        rw [← Nat.mul_assoc, Nat.mul_comm (2 ^ (w - 1)) 2, ← hhalf]
        omega
      rw [hsplit, Nat.mul_add_mod]
      exact Nat.lt_of_le_of_lt (Nat.mod_le _ _) (by omega)
  · intro h
    obtain ⟨hge, hlow⟩ := not_or.mp h
    have hlap : 1 ≤ pos / 2 ^ w := (Nat.one_le_div_iff (Nat.two_pow_pos w)).mpr (by omega)
    have hsplit : pos - cap.size = 2 ^ (w - 1) * (2 * (pos / 2 ^ w) - 1) +
        (2 ^ (w - 1) + pos % 2 ^ w - cap.size) := by
      rw [Nat.mul_sub, ← Nat.mul_assoc, Nat.mul_comm (2 ^ (w - 1)) 2, ← hhalf, Nat.mul_one]
      have hle : 2 ^ w ≤ 2 ^ w * (pos / 2 ^ w) := Nat.le_mul_of_pos_right _ hlap
      omega
    have hlt : 2 ^ (w - 1) + pos % 2 ^ w - cap.size < 2 ^ (w - 1) := by omega
    rw [hsplit, Nat.mul_add_mod, Nat.mod_eq_of_lt hlt]
    omega

/-- A position in the ring is recognised in the lower half of the range only. -/
theorem in_ring (hfit : Fits w cap) (pos : Nat) :
    (pos % 2 ^ w < 2 ^ (w - 1) → pos % 2 ^ (w - 1) = pos % 2 ^ w) ∧
    (¬ pos % 2 ^ w < 2 ^ (w - 1) → pos % 2 ^ (w - 1) < pos % 2 ^ w) := by
  rw [mod_half hfit]
  refine ⟨Nat.mod_eq_of_lt, ?_⟩
  intro hge
  exact Nat.lt_of_lt_of_le (Nat.mod_lt _ (Nat.two_pow_pos _)) (Nat.le_of_not_lt hge)

/-- Where `lapped_to` resumes, whatever `published_` has become. -/
theorem lapped_target_wrap (hfit : Fits w cap) (pos newest : Nat) {pub : Nat} (hpub : pub < 2 ^ w) :
    lappedTarget (some w) cap pos newest pub =
      if pub - cap.size + 1 ≤ pos then newest else pub - cap.size + 1 := by
  have hsize := hfit.size
  have hhalf := hfit.half
  have hcap := cap.size_pos
  unfold lappedTarget
  by_cases hlt : cap.size < pub
  · have hsub := Width.sub_wrap_of_le (w := w) (Nat.le_of_lt hlt) (by omega)
    have hwrap : Width.wrap (some w) (pub - cap.size + 1) = pub - cap.size + 1 :=
      Nat.mod_eq_of_lt (by omega)
    have hp : Width.wrap (some w) pub = pub := Nat.mod_eq_of_lt hpub
    have hc : Width.wrap (some w) cap.size = cap.size := Nat.mod_eq_of_lt (by omega)
    rw [hp, hc] at hsub
    simp only [hlt, ↓reduceIte, hsub, hwrap]
  · have hzero : pub - cap.size = 0 := by omega
    simp only [hlt, ↓reduceIte, hzero, Nat.zero_add]

/-- What `lapped_to` makes of a position that was overwritten `published_` laps of
the counter later or in the same lap. -/
theorem resume_iff (hfit : Fits w cap) {newest : Nat} (hold : pos + cap.size ≤ P)
    (hlt : pos % 2 ^ w < newest) (hnewest : newest < 2 ^ (w - 1)) :
    (pos / 2 ^ w = P / 2 ^ w →
      lappedTarget (some w) cap (pos % 2 ^ w) newest (P % 2 ^ w) = (P - cap.size + 1) % 2 ^ w ∧
      lappedTarget (some w) cap (pos % 2 ^ w) newest (P % 2 ^ w) - pos % 2 ^ w =
        P - cap.size + 1 - pos) ∧
    (pos / 2 ^ w ≠ P / 2 ^ w →
      lappedTarget (some w) cap (pos % 2 ^ w) newest (P % 2 ^ w) - pos % 2 ^ w ≠
        P - cap.size + 1 - pos) := by
  have hsize := hfit.size
  have hhalf := hfit.half
  have hcap := cap.size_pos
  have hposdiv := Nat.div_add_mod pos (2 ^ w)
  have hPdiv := Nat.div_add_mod P (2 ^ w)
  have hPlt := Nat.mod_lt P (Nat.two_pow_pos w)
  rw [lapped_target_wrap hfit _ _ hPlt]
  constructor
  · intro hlap
    rw [hlap] at hposdiv
    have hsplit : P - cap.size + 1 = 2 ^ w * (P / 2 ^ w) + (P % 2 ^ w - cap.size + 1) := by omega
    have hmod : (P - cap.size + 1) % 2 ^ w = P % 2 ^ w - cap.size + 1 := by
      rw [hsplit, Nat.mul_add_mod, Nat.mod_eq_of_lt (by omega)]
    rw [if_neg (by omega), hmod]
    omega
  · intro hlap
    have hle : pos / 2 ^ w + 1 ≤ P / 2 ^ w := by
      have := Nat.div_le_div_right (c := 2 ^ w) (Nat.le_trans (Nat.le_add_right pos cap.size) hold)
      omega
    have hgap : 2 ^ w * (pos / 2 ^ w) + 2 ^ w ≤ 2 ^ w * (P / 2 ^ w) := by
      rw [← Nat.mul_succ]
      exact Nat.mul_le_mul_left _ hle
    split <;> omega

end Positions

variable {s : State n m D} {x : Feed n m D} {i : Fin n} {r : Reader}

/-- `s` is the queue in `w` bits after the calls that made `x`. -/
structure Tracks (w : Nat) (cap : Capacity) (s : State n m D) (x : Feed n m D) : Prop where
  writePos : s.writePos = x.log.length % 2 ^ w
  published : s.published = x.log.length % 2 ^ w
  held : ∀ p v, 1 ≤ p → x.log.length < p + cap.size → x.log[p - 1]? = some v →
    cap.get s.slots p = ⟨2 * (p % 2 ^ (w - 1)), v⟩
  fresh : ∀ p, x.log.length < p → p ≤ cap.size → s.seq cap p = 0
  consumers : ∀ i, s.consumers i =
    (x.readers i).map (fun r => ⟨r.pos % 2 ^ w, r.missed % 2 ^ w, .idle⟩)
  readers : ∀ i r, x.readers i = some r → 1 ≤ r.pos ∧ r.pos ≤ x.log.length + 1

theorem initial_tracks [Inhabited D] :
    Tracks w cap (machine n m D (some w) cap).init Feed.init where
  writePos := (Nat.zero_mod _).symm
  published := (Nat.zero_mod _).symm
  held p v _ _ h := by simp [Feed.init] at h
  fresh p _ _ := rfl
  consumers i := rfl
  readers i r h := by cases h

theorem Tracks.publish (h : Tracks w cap s x) (hfit : Fits w cap) (v : Words m D) :
    Tracks w cap (publish (some w) cap s v).1 (x.call cap.size (.publish v)).1 := by
  have hpos : Width.wrap (some w) (s.writePos + 1) = (x.log.length + 1) % 2 ^ w := by
    rw [h.writePos, Width.wrap, Nat.mod_add_mod]
  have hlength : (x.log ++ [v]).length = x.log.length + 1 := by simp
  have hindex := Width.index_wrap hfit.bits (x.log.length + 1)
  have hseq := stable_wrap hfit (x.log.length + 1)
  rw [Width.wrap] at hindex hseq
  have hget : ∀ p, cap.get (cap.set s.slots ((x.log.length + 1) % 2 ^ w)
      ⟨2 * ((x.log.length + 1) % 2 ^ (w - 1)), v⟩) p =
        if cap.index p = cap.index (x.log.length + 1) then
          ⟨2 * ((x.log.length + 1) % 2 ^ (w - 1)), v⟩
        else cap.get s.slots p := by
    intro p
    rw [cap.get_set, hindex]
  simp only [Overwrite.publish, Feed.call, hpos, hseq]
  refine ⟨?_, ?_, ?_, ?_, h.consumers, ?_⟩
  · rw [hlength]
  · rw [hlength]
  · intro p u h1 hlap hu
    rw [hlength] at hlap
    obtain ⟨hlt, _⟩ := List.getElem?_eq_some_iff.mp hu
    rw [hlength] at hlt
    rw [hget]
    by_cases hnew : p = x.log.length + 1
    · subst hnew
      rw [Nat.add_sub_cancel, List.getElem?_concat_length] at hu
      obtain rfl := Option.some.inj hu
      exact if_pos rfl
    · rw [List.getElem?_append_left (by omega)] at hu
      rw [if_neg (cap.index_ne hnew (by omega) (by omega))]
      exact h.held p u h1 (by omega) hu
  · intro p hlt hle
    rw [hlength] at hlt
    rw [State.seq, hget, if_neg (cap.index_ne (by omega) (by omega) (by omega))]
    exact h.fresh p (by omega) hle
  · intro i r hr
    obtain ⟨h1, hle⟩ := h.readers i r hr
    exact ⟨h1, by rw [hlength]; exact Nat.le_succ_of_le hle⟩

/-- A change to one handle. -/
theorem Tracks.set_reader (h : Tracks w cap s x) (h1 : 1 ≤ r.pos)
    (hle : r.pos ≤ x.log.length + 1) :
    Tracks w cap (s.setConsumer i ⟨r.pos % 2 ^ w, r.missed % 2 ^ w, .idle⟩) (x.setReader i r) := by
  refine ⟨h.writePos, h.published, h.held, h.fresh, ?_, ?_⟩
  · intro j
    simp only [consumers_set_consumer, Feed.setReader, Function.update_apply]
    split
    · rfl
    · exact h.consumers j
  · intro j q hq
    simp only [Feed.setReader, Function.update_apply] at hq
    split at hq
    · obtain rfl := Option.some.inj hq
      exact ⟨h1, hle⟩
    · exact h.readers j q hq

theorem Tracks.make_consumer (h : Tracks w cap s x) (C : Nat) (i : Fin n) :
    Tracks w cap (makeConsumer (some w) s i).1 (x.call C (.makeConsumer i)).1 := by
  have hc := h.consumers i
  cases hr : x.readers i with
  | none =>
    rw [hr] at hc
    have hstart : Width.wrap (some w) (s.published + 1) = (x.log.length + 1) % 2 ^ w := by
      rw [h.published, Width.wrap, Nat.mod_add_mod]
    have hnew := h.set_reader (i := i) (r := ⟨x.log.length + 1, 0⟩) (Nat.le_add_left _ _) (Nat.le_refl _)
    simp only [Nat.zero_mod] at hnew
    simp only [makeConsumer, hc, Option.map_none, Feed.call, hr, hstart]
    exact hnew
  | some r =>
    rw [hr] at hc
    simp only [makeConsumer, hc, Option.map_some, Feed.call, hr]
    exact h

section Reads

variable {c : Consumer m D} {out : Words m D} {k : Nat}

/-- `try_read` compares the position decoded from the slot with its own. -/
theorem read_outcome {w : Width} (hc : s.consumers i = some c) (hseq : s.seq cap c.pos = 2 * k) :
    tryRead w cap s i out = if k < c.pos then (s, [.empty i out])
      else if c.pos < k then lappedTo w cap s i c k out
      else (s.setConsumer i ⟨w.wrap (c.pos + 1), c.missed, .idle⟩,
        [.ok i c.pos (s.data cap c.pos)]) := by
  have heven : ¬ 2 * k &&& 1 = 1 := by
    rw [Nat.and_one_is_mod]
    omega
  have hshift : (2 * k) >>> 1 = k := by
    rw [Nat.shiftRight_eq_div_pow]
    omega
  simp only [tryRead, hc, hseq, hshift, if_neg heven]

/-- A reader that finds a later position is repositioned ahead. -/
theorem lapped_outcome (hfit : Fits w cap) (hpub : s.published < 2 ^ w) (hlt : c.pos < k)
    (hk : k < 2 ^ (w - 1)) (out : Words m D) :
    lappedTo (some w) cap s i c k out =
      (s.setConsumer i ⟨lappedTarget (some w) cap c.pos k s.published,
          (c.missed + (lappedTarget (some w) cap c.pos k s.published - c.pos)) % 2 ^ w, .idle⟩,
        [.lapped i c.pos (lappedTarget (some w) cap c.pos k s.published) s.writePos out]) ∧
    (lappedTo (some w) cap s i c k out).2.filterMap (Event.result (some w)) =
      [.missed (lappedTarget (some w) cap c.pos k s.published - c.pos)] := by
  have hhalf := hfit.half
  have hcap := cap.size_pos
  have htarget := lapped_target_wrap hfit c.pos k hpub
  have hrange : c.pos < lappedTarget (some w) cap c.pos k s.published ∧
      lappedTarget (some w) cap c.pos k s.published < 2 ^ w := by
    rw [htarget]
    split <;> omega
  have hsub : Width.sub (some w) (lappedTarget (some w) cap c.pos k s.published) c.pos =
      lappedTarget (some w) cap c.pos k s.published - c.pos := by
    have hwhole := Width.sub_wrap_of_le (w := w) (Nat.le_of_lt hrange.1) (by omega)
    have hp : Width.wrap (some w) c.pos = c.pos := Nat.mod_eq_of_lt (by omega)
    rwa [show Width.wrap (some w) (lappedTarget (some w) cap c.pos k s.published) = _ from
      Nat.mod_eq_of_lt hrange.2, hp] at hwhole
  have hmoved : lappedTo (some w) cap s i c k out =
      (s.setConsumer i ⟨lappedTarget (some w) cap c.pos k s.published,
          (c.missed + (lappedTarget (some w) cap c.pos k s.published - c.pos)) % 2 ^ w, .idle⟩,
        [.lapped i c.pos (lappedTarget (some w) cap c.pos k s.published) s.writePos out]) := by
    unfold lappedTo
    simp only [if_pos hrange.1, hsub]
    rfl
  refine ⟨hmoved, ?_⟩
  rw [hmoved]
  simp only [List.filterMap_cons, Event.result, hsub, List.filterMap_nil]

/-- The cell of a position of the last lap. -/
theorem Tracks.cell (h : Tracks w cap s x) (hfit : Fits w cap) {p pos : Nat} (h1 : 1 ≤ p)
    (hle : p ≤ x.log.length) (hlap : x.log.length < p + cap.size)
    (hsame : cap.index pos = cap.index p) : ∃ v, x.log[p - 1]? = some v ∧
      cap.get s.slots (pos % 2 ^ w) = ⟨2 * (p % 2 ^ (w - 1)), v⟩ := by
  have hindex := Width.index_wrap hfit.bits pos
  rw [Width.wrap] at hindex
  have hlt : p - 1 < x.log.length := by omega
  have hv : x.log[p - 1]? = some x.log[p - 1] := List.getElem?_eq_getElem hlt
  refine ⟨_, hv, ?_⟩
  rw [cap.get_congr _ (hindex.trans hsame)]
  exact h.held p _ h1 hlap hv

/-- With nothing to read the slot still holds the position of a lap ago. -/
theorem Tracks.cell_next (h : Tracks w cap s x) (hfit : Fits w cap) {pos : Nat}
    (hend : pos = x.log.length + 1) :
    s.seq cap (pos % 2 ^ w) = 2 * ((pos - cap.size) % 2 ^ (w - 1)) := by
  by_cases hfirst : pos ≤ cap.size
  · have hindex := Width.index_wrap hfit.bits pos
    have hzero : pos - cap.size = 0 := by omega
    rw [Width.wrap] at hindex
    rw [State.seq, cap.get_congr _ hindex, hzero, Nat.zero_mod]
    exact h.fresh pos (by omega) hfirst
  · have hcap := cap.size_pos
    have hlap : cap.index pos = cap.index (pos - cap.size) := by
      rw [← cap.index_add_size (pos - cap.size), Nat.sub_add_cancel (by omega)]
    obtain ⟨v, _, hcell⟩ := h.cell hfit (p := pos - cap.size) (by omega) (by omega) (by omega) hlap
    rw [State.seq, hcell]

/-- The position that the slot of an overwritten one holds. -/
theorem later_in_lap {L pos : Nat} (hold : pos + cap.size ≤ L) :
    pos ≤ L - (L - pos) % cap.size ∧ L < L - (L - pos) % cap.size + cap.size ∧
      cap.index pos = cap.index (L - (L - pos) % cap.size) := by
  have hmod := Nat.mod_lt (L - pos) cap.size_pos
  have hdiv := Nat.div_add_mod (L - pos) cap.size
  refine ⟨by omega, by omega, ?_⟩
  have hsplit : L - (L - pos) % cap.size = pos + cap.size * ((L - pos) / cap.size) := by omega
  rw [hsplit, cap.index_eq_mod, cap.index_eq_mod, Nat.add_mul_mod_self_left]

end Reads

/-- The call leaves queue and feed in step and tells the same. -/
def Agree (w : Nat) (cap : Capacity) (s : State n m D) (x : Feed n m D) (c : Call n m D) : Prop :=
  Tracks w cap (call (some w) cap s c).1 (x.call cap.size c).1 ∧
    (call (some w) cap s c).2.filterMap (Event.result (some w)) = (x.call cap.size c).2

def Differ (w : Nat) (cap : Capacity) (s : State n m D) (x : Feed n m D) (c : Call n m D) : Prop :=
  ∃ a b, a ≠ b ∧ (call (some w) cap s c).2.filterMap (Event.result (some w)) = [a] ∧
    (x.call cap.size c).2 = [b]

theorem set_reader_self (hr : x.readers i = some r) : x.setReader i r = x := by
  rw [Feed.setReader, ← hr, Function.update_eq_self]

section Calls

variable {out : Words m D}

theorem Tracks.consumer (h : Tracks w cap s x) (hr : x.readers i = some r) :
    s.consumers i = some ⟨r.pos % 2 ^ w, r.missed % 2 ^ w, .idle⟩ := by
  rw [h.consumers, hr, Option.map_some]

theorem feed_read (C : Nat) (out : Words m D) (hr : x.readers i = some r) :
    x.call C (.tryRead i out) =
      (x.setReader i (read C x.log r).2, [Feed.result r (read C x.log r).1]) := by
  simp only [Feed.call, hr]

theorem read_end (h : Tracks w cap s x) (hfit : Fits w cap) (hr : x.readers i = some r)
    (hend : r.pos = x.log.length + 1) :
    (Readable w cap.size x.log.length r.pos → Agree w cap s x (.tryRead i out)) ∧
    (¬ Readable w cap.size x.log.length r.pos → Differ w cap s x (.tryRead i out)) := by
  have hseq := h.cell_next hfit hend
  have hc := h.consumer hr
  have hfeed : x.call cap.size (.tryRead i out) = (x, [.nothing]) := by
    rw [feed_read _ _ hr, read_nothing hend, set_reader_self hr]
    rfl
  obtain ⟨hfresh, hstale⟩ := leftover hfit (h.readers i r hr).1
  rw [Readable, if_pos (by omega)]
  constructor
  · intro hok
    have hread : call (some w) cap s (.tryRead i out) = (s, [.empty i out]) := by
      rw [call, read_outcome hc hseq, if_pos (hfresh hok)]
    rw [Agree, hread, hfeed]
    exact ⟨h, rfl⟩
  · intro hbad
    have hlt := hstale hbad
    have hread : call (some w) cap s (.tryRead i out) = lappedTo (some w) cap s i
        ⟨r.pos % 2 ^ w, r.missed % 2 ^ w, .idle⟩ ((r.pos - cap.size) % 2 ^ (w - 1)) out := by
      rw [call, read_outcome hc hseq, if_neg (Nat.lt_asymm hlt), if_pos hlt]
    have hpub : s.published < 2 ^ w := by
      rw [h.published]
      exact Nat.mod_lt _ (Nat.two_pow_pos w)
    rw [Differ, hread, hfeed, (lapped_outcome hfit hpub hlt (Nat.mod_lt _ (Nat.two_pow_pos _)) out).2]
    exact ⟨_, _, by simp, rfl, rfl⟩

theorem read_held (h : Tracks w cap s x) (hfit : Fits w cap) (hr : x.readers i = some r)
    (hle : r.pos ≤ x.log.length) (hlap : x.log.length < r.pos + cap.size) :
    (Readable w cap.size x.log.length r.pos → Agree w cap s x (.tryRead i out)) ∧
    (¬ Readable w cap.size x.log.length r.pos → Differ w cap s x (.tryRead i out)) := by
  obtain ⟨h1, _⟩ := h.readers i r hr
  obtain ⟨v, hv, hcell⟩ := h.cell hfit h1 hle hlap rfl
  have hseq : s.seq cap (r.pos % 2 ^ w) = 2 * (r.pos % 2 ^ (w - 1)) := by
    rw [State.seq, hcell]
  have hdata : s.data cap (r.pos % 2 ^ w) = v := by
    rw [State.data, hcell]
  have hc := h.consumer hr
  have hfeed : x.call cap.size (.tryRead i out) =
      (x.setReader i ⟨r.pos + 1, r.missed⟩, [.item v]) := by
    rw [feed_read _ _ hr, read_item h1 hlap hv]
    rfl
  obtain ⟨hlow, hhigh⟩ := in_ring hfit r.pos
  rw [Readable, if_neg (by omega), if_pos hlap]
  constructor
  · intro hok
    have hread : call (some w) cap s (.tryRead i out) = (s.setConsumer i
        ⟨(r.pos + 1) % 2 ^ w, r.missed % 2 ^ w, .idle⟩, [.ok i (r.pos % 2 ^ w) v]) := by
      rw [call, read_outcome hc hseq, hlow hok, if_neg (Nat.lt_irrefl _),
        if_neg (Nat.lt_irrefl _), hdata, Width.wrap, Nat.mod_add_mod]
    rw [Agree, hread, hfeed]
    exact ⟨h.set_reader (r := ⟨r.pos + 1, r.missed⟩) (Nat.le_add_left _ _) (by simp only; omega),
      rfl⟩
  · intro hbad
    have hread : call (some w) cap s (.tryRead i out) = (s, [.empty i out]) := by
      rw [call, read_outcome hc hseq, if_pos (hhigh hbad)]
    rw [Differ, hread, hfeed]
    exact ⟨_, _, by simp, rfl, rfl⟩

theorem read_lost (h : Tracks w cap s x) (hfit : Fits w cap) (hr : x.readers i = some r)
    (hold : r.pos + cap.size ≤ x.log.length) :
    (Readable w cap.size x.log.length r.pos → Agree w cap s x (.tryRead i out)) ∧
    (¬ Readable w cap.size x.log.length r.pos → Differ w cap s x (.tryRead i out)) := by
  obtain ⟨h1, _⟩ := h.readers i r hr
  obtain ⟨hge, hlap, hindex⟩ := later_in_lap hold
  obtain ⟨v, _, hcell⟩ := h.cell hfit (Nat.le_trans h1 hge) (Nat.sub_le _ _) hlap hindex
  have hcap := cap.size_pos
  generalize hk : (x.log.length - (x.log.length - r.pos) % cap.size) % 2 ^ (w - 1) = k at hcell
  have hlow : k < 2 ^ (w - 1) := by
    rw [← hk]
    exact Nat.mod_lt _ (Nat.two_pow_pos _)
  have hseq : s.seq cap (r.pos % 2 ^ w) = 2 * k := by
    rw [State.seq, hcell]
  have hc := h.consumer hr
  have hpub : s.published < 2 ^ w := by
    rw [h.published]
    exact Nat.mod_lt _ (Nat.two_pow_pos w)
  have hfeed : x.call cap.size (.tryRead i out) =
      (x.setReader i ⟨x.log.length - cap.size + 1,
        r.missed + (x.log.length - cap.size + 1 - r.pos)⟩,
        [.missed (x.log.length - cap.size + 1 - r.pos)]) := by
    rw [feed_read _ _ hr, read_skipped h1 hold]
    rfl
  have hlapped : r.pos % 2 ^ w < k → call (some w) cap s (.tryRead i out) =
      lappedTo (some w) cap s i ⟨r.pos % 2 ^ w, r.missed % 2 ^ w, .idle⟩ k out := by
    intro hlt
    rw [call, read_outcome hc hseq, if_neg (Nat.lt_asymm hlt), if_pos hlt]
  rw [Readable, if_neg (by omega), if_neg (by omega), hk]
  constructor
  · intro hok
    obtain ⟨hlt, hsame⟩ := hok
    obtain ⟨htarget, hgrown⟩ := (resume_iff hfit hold hlt hlow).1 hsame
    rw [← h.published] at htarget hgrown
    obtain ⟨hstate, htold⟩ := lapped_outcome (i := i)
      (c := ⟨r.pos % 2 ^ w, r.missed % 2 ^ w, .idle⟩) hfit hpub hlt hlow out
    have hmoved : (lappedTo (some w) cap s i ⟨r.pos % 2 ^ w, r.missed % 2 ^ w, .idle⟩ k out).1 =
        s.setConsumer i ⟨(x.log.length - cap.size + 1) % 2 ^ w,
          (r.missed + (x.log.length - cap.size + 1 - r.pos)) % 2 ^ w, .idle⟩ := by
      rw [hstate]
      simp only [hgrown]
      rw [htarget, Nat.mod_add_mod]
    rw [Agree, hlapped hlt, hfeed, htold, hgrown, hmoved]
    refine ⟨?_, rfl⟩
    exact h.set_reader (r := ⟨x.log.length - cap.size + 1,
      r.missed + (x.log.length - cap.size + 1 - r.pos)⟩) (Nat.le_add_left _ _)
      (by simp only; omega)
  · intro hbad
    rcases Nat.lt_trichotomy k (r.pos % 2 ^ w) with hlt | heq | hgt
    · have hread : call (some w) cap s (.tryRead i out) = (s, [.empty i out]) := by
        rw [call, read_outcome hc hseq, if_pos hlt]
      rw [Differ, hread, hfeed]
      exact ⟨_, _, by simp, rfl, rfl⟩
    · have hread : call (some w) cap s (.tryRead i out) = (s.setConsumer i
          ⟨Width.wrap (some w) (r.pos % 2 ^ w + 1), r.missed % 2 ^ w, .idle⟩,
          [.ok i (r.pos % 2 ^ w) (s.data cap (r.pos % 2 ^ w))]) := by
        rw [call, read_outcome hc hseq, if_neg (Nat.not_lt_of_le (Nat.le_of_eq heq.symm)),
          if_neg (Nat.not_lt_of_le (Nat.le_of_eq heq))]
      rw [Differ, hread, hfeed]
      exact ⟨_, _, by simp, rfl, rfl⟩
    · have hother := (resume_iff hfit hold hgt hlow).2 (fun hsame => hbad ⟨hgt, hsame⟩)
      rw [← h.published] at hother
      rw [Differ, hlapped hgt, hfeed, (lapped_outcome hfit hpub hgt hlow out).2]
      exact ⟨_, _, by simpa using hother, rfl, rfl⟩

theorem read_exact (h : Tracks w cap s x) (hfit : Fits w cap) (hr : x.readers i = some r) :
    (Readable w cap.size x.log.length r.pos → Agree w cap s x (.tryRead i out)) ∧
    (¬ Readable w cap.size x.log.length r.pos → Differ w cap s x (.tryRead i out)) := by
  obtain ⟨_, hle⟩ := h.readers i r hr
  by_cases hold : r.pos + cap.size ≤ x.log.length
  · exact read_lost h hfit hr hold
  · by_cases hin : r.pos ≤ x.log.length
    · exact read_held h hfit hr hin (by omega)
    · exact read_end h hfit hr (by omega)

end Calls

theorem usable_agrees (h : Tracks w cap s x) (hfit : Fits w cap) {c : Call n m D}
    (hok : Usable w cap.size x c) : Agree w cap s x c := by
  cases c with
  | publish v => exact ⟨h.publish hfit v, rfl⟩
  | makeConsumer i =>
    refine ⟨h.make_consumer cap.size i, ?_⟩
    have hc := h.consumers i
    cases hr : x.readers i with
    | none =>
      rw [hr] at hc
      simp only [call, makeConsumer, hc, Feed.call, hr]
      rfl
    | some r =>
      rw [hr] at hc
      simp only [call, makeConsumer, hc, Feed.call, hr]
      rfl
  | tryRead i out =>
    cases hr : x.readers i with
    | none =>
      have hc := h.consumers i
      rw [hr] at hc
      simp only [Agree, call, tryRead, hc, Feed.call, hr]
      exact ⟨h, rfl⟩
    | some r => exact (read_exact h hfit hr).1 (hok r hr)

theorem unusable_differs (h : Tracks w cap s x) (hfit : Fits w cap) {c : Call n m D}
    (hok : ¬ Usable w cap.size x c) : Differ w cap s x c := by
  cases c with
  | publish v => exact absurd trivial hok
  | makeConsumer i => exact absurd trivial hok
  | tryRead i out =>
    obtain ⟨r, hbad⟩ := not_forall.mp hok
    obtain ⟨hr, hbad⟩ := Classical.not_imp.mp hbad
    exact (read_exact h hfit hr).2 hbad

theorem agree_iff [Inhabited D] (hfit : Fits w cap) (cs : List (Call n m D)) :
    results (some w) cap cs = Feed.results cap.size cs ↔
      Throughout (Feed.call cap.size) (Usable w cap.size) Feed.init cs := by
  have htold : Feed.results cap.size cs =
      (serial (Feed.call cap.size) Feed.init cs).2.filterMap some := List.filterMap_some.symm
  rw [htold]
  refine serial_agree_iff (R := Tracks w cap) (Event.result (some w)) some ?_ ?_ initial_tracks cs
  · intro s x c h hok
    rw [List.filterMap_some]
    exact usable_agrees h hfit hok
  · intro s x c h hok
    obtain ⟨a, b, hne, hs, hx⟩ := unusable_differs h hfit hok
    exact ⟨a, b, [], [], hne, hs, by rw [List.filterMap_some, hx]⟩

/-- No reader is ahead of what comes next. -/
def Placed (x : Feed n m D) : Prop :=
  ∀ i r, x.readers i = some r → r.pos ≤ x.log.length + 1

theorem Placed.set_reader (h : Placed x) (hr : r.pos ≤ x.log.length + 1) :
    Placed (x.setReader i r) := by
  intro j q hq
  simp only [Feed.setReader, Function.update_apply] at hq
  split at hq
  · obtain rfl := Option.some.inj hq
    exact hr
  · exact h j q hq

theorem Placed.call (h : Placed x) (C : Nat) (c : Call n m D) : Placed (x.call C c).1 := by
  cases c with
  | publish v =>
    intro i r hr
    simp only [Feed.call, List.length_append]
    exact Nat.le_trans (h i r hr) (Nat.add_le_add_right (Nat.le_add_right _ _) 1)
  | makeConsumer i =>
    simp only [Feed.call]
    cases hr : x.readers i with
    | none => exact h.set_reader (Nat.le_refl _)
    | some r => exact h
  | tryRead i out =>
    simp only [Feed.call]
    cases hr : x.readers i with
    | none => exact h
    | some r =>
      refine h.set_reader ?_
      have hle := h i r hr
      simp only [RecentLog.read]
      split
      · simp only [oldest]
        omega
      · split
        · rename_i hv
          obtain ⟨hlt, _⟩ := List.getElem?_eq_some_iff.mp hv
          simp only
          omega
        · exact hle

/-- Until the published positions reach the upper half, all is as it should be. -/
theorem readable_early (hfit : Fits w cap) {P pos : Nat} (hle : pos ≤ P + 1)
    (hP : P < 2 ^ (w - 1)) : Readable w cap.size P pos := by
  have hhalf := hfit.half
  have hpos : pos % 2 ^ w = pos := Nat.mod_eq_of_lt (by omega)
  unfold Readable
  split
  · exact .inl (by omega)
  · split
    · omega
    · have hold : pos + cap.size ≤ P := by omega
      obtain ⟨hge, _, _⟩ := later_in_lap hold
      have hcap := cap.size_pos
      have hmod := Nat.mod_lt (P - pos) hcap
      have hlater : pos < P - (P - pos) % cap.size := by omega
      rw [hpos, Nat.mod_eq_of_lt (Nat.lt_of_le_of_lt (Nat.sub_le _ _) hP)]
      refine ⟨hlater, ?_⟩
      rw [Nat.div_eq_of_lt (by omega), Nat.div_eq_of_lt (by omega)]

/-- A consumer reads once after every publish. -/
def rounds (v : Words m D) (i : Fin 1) : Nat → List (Call 1 m D)
  | 0 => [.makeConsumer i]
  | k + 1 => rounds v i k ++ [.publish v, .tryRead i v]

/-- Everything published has been read. -/
structure Level (x : Feed 1 m D) (i : Fin 1) (k : Nat) : Prop where
  log : x.log.length = k
  reader : x.readers i = some ⟨k + 1, 0⟩

theorem Level.publish {x : Feed 1 m D} {i : Fin 1} {k : Nat} (h : Level x i k) (C : Nat)
    (v : Words m D) : (x.call C (.publish v)).1.log.length = k + 1 ∧
      (x.call C (.publish v)).1.readers i = some ⟨k + 1, 0⟩ := by
  refine ⟨?_, h.reader⟩
  simp only [Feed.call, List.length_append, h.log]
  rfl

theorem Level.round {x : Feed 1 m D} {i : Fin 1} {C k : Nat} (h : Level x i k) (hC : 0 < C)
    (v : Words m D) : Level (serial (Feed.call C) x [.publish v, .tryRead i v]).1 i (k + 1) := by
  obtain ⟨hlog, hreader⟩ := h.publish C v
  have hv : (x.log ++ [v])[k + 1 - 1]? = some v := by
    rw [Nat.add_sub_cancel, ← h.log, List.getElem?_concat_length]
  have hread : read C (x.log ++ [v]) ⟨k + 1, 0⟩ = (.item (k + 1) v, ⟨k + 2, 0⟩) :=
    read_item (r := ⟨k + 1, 0⟩) (Nat.le_add_left _ _)
      (by rw [List.length_append, h.log]; simp only [List.length_singleton]; omega) hv
  simp only [serial, feed_read C v hreader]
  refine ⟨hlog, ?_⟩
  simp only [Feed.call, hread, Feed.setReader, Function.update_self]

theorem rounds_level {C : Nat} (hC : 0 < C) (v : Words m D) (i : Fin 1) (k : Nat) :
    Level (serial (Feed.call C) Feed.init (rounds v i k)).1 i k := by
  induction k with
  | zero => exact ⟨rfl, Function.update_self _ _ _⟩
  | succ k ih =>
    rw [rounds, serial_append]
    exact ih.round hC v

/-- The read of round `2 ^ (w - 1)` is the first one that fails. -/
theorem rounds_usable (hfit : Fits w cap) (v : Words m D) (i : Fin 1) (k : Nat) :
    Throughout (Feed.call cap.size) (Usable w cap.size) Feed.init (rounds v i k) ↔
      k < 2 ^ (w - 1) := by
  have hcap := cap.size_pos
  have hhalf := hfit.half
  have hpos := Nat.two_pow_pos (w - 1)
  induction k with
  | zero => exact iff_of_true ⟨trivial, trivial⟩ hpos
  | succ k ih =>
    obtain ⟨hlog, hreader⟩ := (rounds_level hcap v i k).publish cap.size v
    have hread : Throughout (Feed.call cap.size) (Usable w cap.size)
        (serial (Feed.call cap.size) Feed.init (rounds v i k)).1 [.publish v, .tryRead i v] ↔
          (k + 1) % 2 ^ w < 2 ^ (w - 1) := by
      simp only [Throughout, Usable, hlog, hreader, true_and, and_true, Option.some.injEq,
        forall_eq', Readable]
      rw [if_neg (Nat.lt_irrefl _), if_pos (by omega)]
    rw [rounds, throughout_append, hread]
    refine (and_congr_left fun _ => ih).trans ?_
    constructor
    · intro h
      obtain ⟨hk, hlt⟩ := h
      rwa [Nat.mod_eq_of_lt (by omega)] at hlt
    · intro h
      exact ⟨by omega, by rwa [Nat.mod_eq_of_lt (by omega)]⟩

/-- In `w` bits the queue tells its consumers what a log of the last items would
exactly as long as every read is of a readable position. -/
theorem lossless_exact [Inhabited D] {N : Nat} {cap : RingCapacity}
    (hcap : checkAndRoundCapacity w N = .ok cap) (cs : List (Call n m D)) :
    results (some w) cap.toCapacity cs = Feed.results cap.size cs ↔
      Throughout (Feed.call cap.size) (Usable w cap.size) Feed.init cs :=
  agree_iff (accepted_fits hcap) cs

theorem lossless_exact_two_rounds :
    results (some 64) twoSlots.toCapacity (rounds (fun _ : Fin 1 => 7) 0 2) =
      Feed.results twoSlots.size (rounds (fun _ : Fin 1 => 7) 0 2) :=
  (lossless_exact (N := 2) rfl (rounds (fun _ : Fin 1 => 7) 0 2)).mpr
    ((rounds_usable (accepted_fits (N := 2)
      (show checkAndRoundCapacity 64 2 = .ok twoSlots from rfl)) _ 0 2).mpr
      (Nat.lt_two_pow_self.trans' (by decide)))

/-- Fewer than `2 ^ (w - 1)` items have been published when a consumer reads. -/
def Early (w : Nat) (x : Feed n m D) : Call n m D → Prop
  | .tryRead _ _ => x.log.length < 2 ^ (w - 1)
  | .publish _ | .makeConsumer _ => True

theorem lossless_early [Inhabited D] {N : Nat} {cap : RingCapacity}
    (hcap : checkAndRoundCapacity w N = .ok cap) {cs : List (Call n m D)}
    (h : Throughout (Feed.call cap.size) (Early w) Feed.init cs) :
    results (some w) cap.toCapacity cs = Feed.results cap.size cs := by
  have hfit := accepted_fits hcap
  refine (agree_iff hfit cs).mpr (h.imp (I := Placed) ?_ (fun _ c hx => hx.call cap.size c) ?_)
  · intro i r hr
    cases hr
  · intro x c hx hok
    cases c with
    | publish | makeConsumer => trivial
    | tryRead i out => exact fun r hr => readable_early hfit (hx i r hr) hok

theorem rounds_differ [Inhabited D] {N : Nat} {cap : RingCapacity}
    (hcap : checkAndRoundCapacity w N = .ok cap) (v : Words m D) (i : Fin 1) :
    results (some w) cap.toCapacity (rounds v i (2 ^ (w - 1))) ≠
      Feed.results cap.size (rounds v i (2 ^ (w - 1))) := by
  intro hsame
  have husable := (agree_iff (accepted_fits hcap) _).mp hsame
  exact Nat.lt_irrefl _ ((rounds_usable (accepted_fits hcap) v i _).mp husable)

/-- With 32-bit positions a consumer that reads after every publish is not told of
the item at position `2 ^ 31`. -/
theorem upper_half_silent :
    checkAndRoundCapacity 32 2 = .ok twoSlots ∧
    results (some 32) twoSlots.toCapacity (rounds (fun _ : Fin 1 => 7) 0 (2 ^ (32 - 1))) ≠
      Feed.results twoSlots.size (rounds (fun _ : Fin 1 => 7) 0 (2 ^ (32 - 1))) :=
  ⟨rfl, rounds_differ (N := 2) rfl _ 0⟩

section Half

variable {s : State n m D} {args : List (Option (Words m D))} {i : Fin n} {c : Consumer m D}

theorem wrap_of_lt {k : Nat} (hlt : k < 2 ^ w) : Width.wrap (some w) k = k := Nat.mod_eq_of_lt hlt

theorem stable_of_lt {pos : Nat} (hlt : 2 * pos < 2 ^ w) :
    stable (some w) pos = stable none pos := by
  rw [stable_none, stable, Nat.shiftLeft_eq, Nat.pow_one, Nat.mul_comm]
  exact wrap_of_lt hlt

theorem in_progress_of_lt {pos : Nat} (hlt : 2 * pos < 2 ^ w) :
    inProgress (some w) pos = inProgress none pos := by
  rw [inProgress, inProgress, stable_of_lt hlt]

theorem sub_of_le {a b : Nat} (hle : b ≤ a) (hlt : a < 2 ^ w) : Width.sub (some w) a b = a - b := by
  have hsub := Width.sub_wrap_of_le (w := w) hle (by omega)
  rwa [wrap_of_lt hlt, wrap_of_lt (Nat.lt_of_le_of_lt hle hlt)] at hsub

theorem lapped_target_of_lt {pos newest pub : Nat} (hlt : pub + 1 < 2 ^ w) :
    lappedTarget (some w) cap pos newest pub = lappedTarget none cap pos newest pub := by
  have hpos := cap.size_pos
  unfold lappedTarget
  by_cases hpub : cap.size < pub
  · rw [sub_of_le (Nat.le_of_lt hpub) (by omega), wrap_of_lt (by omega)]
    rfl
  · rw [if_neg hpub, if_neg hpub]

theorem lapped_target_le {pos newest pub : Nat} :
    lappedTarget none cap pos newest pub ≤ max newest (pub + 1) := by
  simp only [lappedTarget, Width.wrap_none, Width.sub_none]
  repeat' split
  all_goals omega

/-- The counters of a queue whose positions stay in the lower half of the range. -/
structure Lower (w : Nat) (s : State n m D) : Prop where
  range : 4 ≤ 2 ^ w
  here : 2 * s.writePos < 2 ^ w
  next : ∀ arg, s.producer = .advance arg → 2 * (s.writePos + 1) < 2 ^ w
  missed : ∀ i c, s.consumers i = some c → c.missed ≤ c.pos

variable (hi : OverwriteSeqlock.Inv cap args s) (h : Lower w s)

include hi h

theorem producer_lower : stepProducer (some w) cap s = stepProducer none cap s := by
  have hhere := h.here
  have hprod := hi.producer
  unfold stepProducer
  cases hp : s.producer with
  | advance arg =>
    have hnext := h.next arg hp
    simp only [Width.wrap_none, wrap_of_lt (show s.writePos + 1 < 2 ^ w by omega)]
  | mark arg pos =>
    rw [hp] at hprod
    obtain ⟨rfl, _⟩ := hprod
    simp only [in_progress_of_lt hhere]
  | copy v pos done =>
    rw [hp] at hprod
    obtain ⟨rfl, _⟩ := hprod
    simp only [stable_of_lt hhere]
  | construct arg pos => cases arg <;> rfl
  | idle | announce => rfl

theorem reader_lower (hc : s.consumers i = some c) :
    stepReader (some w) cap s i c = stepReader none cap s i c := by
  have hrange := h.range
  have hhere := h.here
  have hannounced := hi.announced
  have hmissed := h.missed i c hc
  have hreader := hi.reader i c hc
  obtain ⟨_, hplace⟩ := hi.place i c hc
  unfold stepReader
  cases hpc : c.pc with
  | copy s1 done out =>
    simp only [Width.wrap_none, wrap_of_lt (show c.pos + 1 < 2 ^ w by omega)]
  | loadPublished newest out =>
    rw [hpc] at hreader
    obtain ⟨_, hnewest, _⟩ := hreader
    have htarget : lappedTarget none cap c.pos newest s.published < 2 ^ w :=
      Nat.lt_of_le_of_lt lapped_target_le (by omega)
    simp only [lappedTo, lapped_target_of_lt (show s.published + 1 < 2 ^ w by omega),
      Width.wrap_none, Width.sub_none]
    split
    · rename_i hlt
      rw [sub_of_le (Nat.le_of_lt hlt) htarget, wrap_of_lt (by omega)]
    · rfl
  | idle | loadSeq => rfl

/-- There the width does not show. -/
theorem step_lower (a : Act n m D) : step (some w) cap s a = step none cap s a := by
  have hrange := h.range
  have hhere := h.here
  have hannounced := hi.announced
  cases a with
  | producer => exact producer_lower hi h
  | makeConsumer i =>
    simp only [step, Width.wrap_none, wrap_of_lt (show s.published + 1 < 2 ^ w by omega)]
  | reader i =>
    simp only [step]
    cases hc : s.consumers i with
    | none => rfl
    | some c => exact reader_lower hi h hc
  | publish | producerWord | tryRead | readerWord => rfl

end Half

end Toolbox.Proofs.OverwriteWrap
