import Mathlib.Order.Bounds.Basic
import Mathlib.Data.List.Induction
import Mcap.GoJournal

/-! # Time ranges of the Go writer

`WriteMessage` and `WriteChunkWithIndexes` both keep the time range of the file, and they do not
agree on what a start time of 0 means.  A message takes 0 for a time: it lowers the start, and sets
it if it is the first message.  A chunk takes a start of 0 for unset, and overwrites it.

`leastTime` and `greatestTime`, the two ends as a chunk keeps them, are the least and the greatest
of its times.  `Starts` says what is known of the start of the file: it is right as long as no
message is at time 0, and otherwise it is 0 just when a certain condition holds.  Each step of the
writer is one lemma, which says what becomes of that condition.
-/
namespace Mcap
namespace Go

/-! ## Time ranges -/

/-- `start` and `end_` are the least and the greatest of the times, and 0 where there is none. -/
structure IsRange (ts : List UInt64) (start end_ : UInt64) : Prop where
  none : ts = [] → start = 0 ∧ end_ = 0
  start : ts ≠ [] → IsLeast {t | t ∈ ts} start
  end_ : ts ≠ [] → IsGreatest {t | t ∈ ts} end_

variable {ts : List UInt64} {start t : UInt64}

theorem isLeast_append (h : IsLeast {t | t ∈ ts} start) :
    IsLeast {x | x ∈ ts ++ [t]} (if t < start then t else start) := by
  refine ⟨?_, ?_⟩
  · split
    · exact List.mem_append_right _ (List.mem_singleton_self t)
    · exact List.mem_append_left _ h.1
  · intro x hx
    rcases List.mem_append.mp hx with hmem | hmem
    · have hle := h.2 hmem
      split
      · rename_i hlt
        exact UInt64.le_trans (UInt64.le_of_lt hlt) hle
      · exact hle
    · obtain rfl := List.mem_singleton.mp hmem
      split
      · exact UInt64.le_refl _
      · rename_i hlt
        exact UInt64.not_lt.mp hlt

theorem isGreatest_append {end_ : UInt64} (h : IsGreatest {t | t ∈ ts} end_) :
    IsGreatest {x | x ∈ ts ++ [t]} (if end_ < t then t else end_) := by
  refine ⟨?_, ?_⟩
  · split
    · exact List.mem_append_right _ (List.mem_singleton_self t)
    · exact List.mem_append_left _ h.1
  · intro x hx
    rcases List.mem_append.mp hx with hmem | hmem
    · have hle := h.2 hmem
      split
      · rename_i hlt
        exact UInt64.le_trans hle (UInt64.le_of_lt hlt)
      · exact hle
    · obtain rfl := List.mem_singleton.mp hmem
      split
      · exact UInt64.le_refl _
      · rename_i hlt
        exact UInt64.not_lt.mp hlt

theorem isLeast_singleton_list (t : UInt64) : IsLeast {x | x ∈ [t]} t := by
  refine ⟨List.mem_singleton_self t, fun x hx => ?_⟩
  rw [List.mem_singleton.mp hx]
  exact UInt64.le_refl _

theorem isGreatest_singleton_list (t : UInt64) : IsGreatest {x | x ∈ [t]} t := by
  refine ⟨List.mem_singleton_self t, fun x hx => ?_⟩
  rw [List.mem_singleton.mp hx]
  exact UInt64.le_refl _

theorem isLeast_leastTime (h : ts ≠ []) :
    IsLeast {t | t ∈ ts} (leastTime ts) := by
  induction ts using List.reverseRecOn with
  | nil => exact absurd rfl h
  | append_singleton ts t ih =>
    rw [leastTime_append]
    by_cases hts : ts = []
    · subst hts
      have hle : t ≤ maxUint64 := by
        rw [UInt64.le_iff_toNat_le]
        have hlt := t.toNat_lt
        show t.toNat ≤ 0xFFFFFFFFFFFFFFFF
        omega
      have hmin : (if t < leastTime [] then t else leastTime []) = t := by
        show (if t < maxUint64 then t else maxUint64) = t
        split
        · rfl
        · rename_i hlt
          exact UInt64.le_antisymm (UInt64.not_lt.mp hlt) hle
      rw [hmin]
      exact isLeast_singleton_list t
    · exact isLeast_append (ih hts)

theorem isGreatest_greatestTime (h : ts ≠ []) :
    IsGreatest {t | t ∈ ts} (greatestTime ts) := by
  induction ts using List.reverseRecOn with
  | nil => exact absurd rfl h
  | append_singleton ts t ih =>
    rw [greatestTime_append]
    by_cases hts : ts = []
    · subst hts
      have hmax : (if greatestTime [] < t then t else greatestTime []) = t := by
        show (if 0 < t then t else 0) = t
        split
        · rfl
        · rename_i hlt
          exact UInt64.le_antisymm UInt64.zero_le (UInt64.not_lt.mp hlt)
      rw [hmax]
      exact isGreatest_singleton_list t
    · exact isGreatest_append (ih hts)

/-! ## The start time -/

/-- What is known of the start time: it is 0 if there is no message, it is right if no message is
at time 0, and otherwise it is 0 just when `seen` holds. -/
structure Starts (ts : List UInt64) (seen : Prop) (start : UInt64) : Prop where
  none : ts = [] → start = 0
  least : ts ≠ [] → 0 ∉ ts → IsLeast {t | t ∈ ts} start
  zero : 0 ∈ ts → (start = 0 ↔ seen)

theorem Starts.congr {seen seen' : Prop} (h : Starts ts seen start)
    (hseen : 0 ∈ ts → (seen ↔ seen')) : Starts ts seen' start where
  none := h.none
  least := h.least
  zero hz := (h.zero hz).trans (hseen hz)

theorem Starts.isLeast_iff {seen : Prop} (h : Starts ts seen start)
    (hts : ts ≠ []) : IsLeast {t | t ∈ ts} start ↔ (0 ∈ ts → seen) := by
  constructor
  · intro hleast hz
    exact (h.zero hz).mp (UInt64.le_antisymm (hleast.2 hz) UInt64.zero_le)
  · intro hseen
    by_cases hz : 0 ∈ ts
    · have hzero := (h.zero hz).mpr (hseen hz)
      rw [hzero]
      exact ⟨hz, fun x _ => UInt64.zero_le⟩
    · exact h.least hts hz

/-- The start time once a message at `t` is counted. -/
def startAfter (first : Bool) (start t : UInt64) : UInt64 :=
  if t < start ∨ first = true then t else start

/-- The start time once a chunk that starts at `t` is written. -/
def startCovered (start t : UInt64) : UInt64 := if start = 0 ∨ t < start then t else start

theorem Starts.message {seen : Prop} (h : Starts ts seen start) :
    Starts (ts ++ [t]) (t = 0 ∨ seen) (startAfter (decide (ts = [])) start t) where
  none hnil := by simp at hnil
  least _ hz := by
    by_cases hts : ts = []
    · subst hts
      simpa [startAfter] using isLeast_singleton_list t
    · have hleast := h.least hts fun hmem => hz (List.mem_append_left _ hmem)
      simpa [startAfter, hts] using isLeast_append (t := t) hleast
  zero hz := by
    by_cases hts : ts = []
    · subst hts
      have ht : t = 0 := by simpa [eq_comm] using hz
      simp [startAfter, ht]
    · have hafter : startAfter (decide (ts = [])) start t = if t < start then t else start := by
        simp [startAfter, hts]
      rw [hafter]
      by_cases ht : t = 0
      · subst ht
        have hmin : (if (0 : UInt64) < start then 0 else start) = 0 := by
          split
          · rfl
          · rename_i hlt
            exact UInt64.le_antisymm (UInt64.not_lt.mp hlt) UInt64.zero_le
        simp [hmin]
      · have hmem : 0 ∈ ts := by
          rcases List.mem_append.mp hz with hmem | hmem
          · exact hmem
          · exact absurd (List.mem_singleton.mp hmem).symm ht
        have hzero := h.zero hmem
        split
        · rename_i hlt
          have hne : start ≠ 0 := by
            rintro rfl
            exact absurd hlt (UInt64.not_lt.mpr UInt64.zero_le)
          simp [ht, hzero.not.mp hne]
        · simp [ht, hzero]

theorem Starts.covered {chunk : List UInt64} {seen : Prop} {first : UInt64}
    (h : Starts ts seen start) (hts : ts ≠ []) (hsub : ∀ t ∈ chunk, t ∈ ts)
    (hfirst : IsLeast {t | t ∈ chunk} first) :
    Starts ts (0 ∈ chunk) (startCovered start first) where
  none hnil := absurd hnil hts
  least _ hz := by
    have hleast := h.least hts hz
    have hne : start ≠ 0 := by
      rintro rfl
      exact hz hleast.1
    have hle : ¬ first < start := UInt64.not_lt.mpr (hleast.2 (hsub _ hfirst.1))
    rw [startCovered, if_neg (by tauto)]
    exact hleast
  zero _ := by
    have hmem : 0 ∈ chunk ↔ first = 0 := by
      constructor
      · exact fun hz => UInt64.le_antisymm (hfirst.2 hz) UInt64.zero_le
      · rintro rfl
        exact hfirst.1
    rw [hmem, startCovered]
    by_cases hstart : start = 0
    · rw [if_pos (.inl hstart)]
    · by_cases hlt : first < start
      · rw [if_pos (.inr hlt)]
      · rw [if_neg (by tauto)]
        constructor
        · exact fun h0 => absurd h0 hstart
        · rintro rfl
          exact absurd (UInt64.lt_of_le_of_ne UInt64.zero_le (Ne.symm hstart)) hlt

theorem Starts.filled {chunk : List UInt64} {seen : Prop} {first : UInt64}
    (h : Starts ts seen start) (hsub : ∀ x ∈ chunk, x ∈ ts ++ [t]) (ht : t ∈ chunk)
    (hfirst : IsLeast {x | x ∈ chunk} first) :
    Starts (ts ++ [t]) (0 ∈ chunk) (startAfter (decide (ts = [])) (startCovered start first) t) := by
  have hmem : 0 ∈ chunk ↔ first = 0 := by
    constructor
    · exact fun hz => UInt64.le_antisymm (hfirst.2 hz) UInt64.zero_le
    · rintro rfl
      exact hfirst.1
  have hle : first ≤ t := hfirst.2 ht
  by_cases hts : ts = []
  · subst hts
    have hall : ∀ x ∈ chunk, x = t := fun x hx => by simpa using hsub x hx
    have hft : first = t := hall first hfirst.1
    have hafter : startAfter (decide (([] : List UInt64) = [])) (startCovered start first) t = t := by
      simp [startAfter]
    rw [hafter]
    exact
      { none := fun hnil => by simp at hnil
        least := fun _ _ => isLeast_singleton_list t
        zero := fun _ => by rw [hmem, hft] }
  · have hafter : startAfter (decide (ts = [])) (startCovered start first) t =
        if t < startCovered start first then t else startCovered start first := by
      simp [startAfter, hts]
    rw [hafter]
    refine ⟨fun hnil => by simp at hnil, fun _ hz => ?_, fun _ => ?_⟩
    · -- no message at time 0: the chunk lowers the start at most to a time of its own
      have hleast := h.least hts fun hm => hz (List.mem_append_left _ hm)
      have hne : start ≠ 0 := by
        rintro rfl
        exact hz (List.mem_append_left _ hleast.1)
      have hcov : startCovered start first = if first < start then first else start := by
        simp [startCovered, hne]
      rw [hcov]
      by_cases hfs : first < start
      · rw [if_pos hfs, if_neg (UInt64.not_lt.mpr hle)]
        refine ⟨hsub _ hfirst.1, fun x hx => ?_⟩
        rcases List.mem_append.mp hx with hm | hm
        · exact UInt64.le_trans (UInt64.le_of_lt hfs) (hleast.2 hm)
        · rwa [List.mem_singleton.mp hm]
      · rw [if_neg hfs]
        exact isLeast_append hleast
    · rw [hmem]
      -- the start is 0 behind the chunk just when the chunk starts at 0
      have hcov : startCovered start first = 0 ↔ first = 0 := by
        rw [startCovered]
        by_cases hstart : start = 0
        · rw [if_pos (.inl hstart)]
        · by_cases hlt : first < start
          · rw [if_pos (.inr hlt)]
          · rw [if_neg (by tauto)]
            constructor
            · exact fun h0 => absurd h0 hstart
            · rintro rfl
              exact absurd (UInt64.lt_of_le_of_ne UInt64.zero_le (Ne.symm hstart)) hlt
      split
      · rename_i hlt
        have hne : startCovered start first ≠ 0 := by
          intro h0
          rw [h0] at hlt
          exact absurd hlt (UInt64.not_lt.mpr UInt64.zero_le)
        have hfne := hcov.not.mp hne
        constructor
        · rintro rfl
          exact absurd (UInt64.le_antisymm hle UInt64.zero_le) hfne
        · exact fun h0 => absurd h0 hfne
      · exact hcov

theorem startCovered_zero (start : UInt64) : startCovered start 0 = 0 := by
  rw [startCovered]
  by_cases hstart : start = 0
  · rw [if_pos (.inl hstart)]
  · rw [if_pos (.inr (UInt64.lt_of_le_of_ne UInt64.zero_le (Ne.symm hstart)))]

end Go
end Mcap
