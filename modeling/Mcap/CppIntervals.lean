import Mcap.CppReadJobs

/-! # Intervals of the C++ library

`McapReader::readSummary` puts the chunk indexes into an interval tree over the times of their messages
(`intervaltree.hpp`), and `byteRange` asks it for the chunks of a range of times.  The center of a node is
computed with overflow, which does no harm: every center splits the intervals (`Valid`).

`std::sort` is taken to be stable; no result depends on the order of equal starts.
-/
namespace Mcap
namespace Cpp

/-! ## The tree -/

structure Interval (α : Type) where
  start : Nat
  stop : Nat
  value : α

/-- The constructor of `Interval` puts the ends in order. -/
def Interval.of {α : Type} (s e : Nat) (value : α) : Interval α := ⟨min s e, max s e, value⟩

/-- A tree, or a null pointer. -/
inductive IntervalTree (α : Type) where
  | null
  | node (intervals : List (Interval α)) (left right : IntervalTree α) (center : Nat)

namespace IntervalTree
variable {α : Type}

def sortByStart (ivals : List (Interval α)) : List (Interval α) :=
  ivals.mergeSort fun a b => decide (a.start ≤ b.start)

/-- The least start and the greatest stop. -/
def extremes : List (Interval α) → Nat × Nat
  | [] => (0, 0)
  | i :: ivals => ivals.foldl (fun e j => (min e.1 j.start, max e.2 j.stop)) (i.start, i.stop)

/-- The constructor, where `depth` has been decremented; `minbucket` is 64 and `maxbucket` 512.  Without
intervals there is no center, and none is looked at. -/
def build : Nat → Nat → Nat → List (Interval α) → IntervalTree α
  | depth, leftextent, rightextent, ivals =>
    let center := ((extremes ivals).1 + (extremes ivals).2) % 2 ^ 64 / 2
    let sorted := if leftextent = 0 ∧ rightextent = 0 then sortByStart ivals else ivals
    match depth with
    | 0 => node (sortByStart sorted) null null center
    | depth + 1 =>
      if sorted.length < 64 ∧ sorted.length < 512 then
        node (sortByStart sorted) null null center
      else
        let leftp := if leftextent ≠ 0 ∨ rightextent ≠ 0 then leftextent else (extremes sorted).1
        let rightp := if leftextent ≠ 0 ∨ rightextent ≠ 0 then rightextent else (extremes sorted).2
        let lefts := sorted.filter fun i => decide (i.stop < center)
        let others := sorted.filter fun i => !decide (i.stop < center)
        let rights := others.filter fun i => decide (center < i.start)
        node (others.filter fun i => !decide (center < i.start))
          (if lefts.isEmpty then null else build depth leftp center lefts)
          (if rights.isEmpty then null else build depth center rightp rights) center

/-- `IntervalTree{std::move(ivals)}`, with the depth of 16 that is the default. -/
def ofIntervals (ivals : List (Interval α)) : IntervalTree α := build 15 0 0 ivals

/-- `visit_all`. -/
def all : IntervalTree α → List (Interval α)
  | null => []
  | node intervals left right _ => left.all ++ intervals ++ right.all

/-- `visit_near`: what is visited. -/
def near (start stop : Nat) : IntervalTree α → List (Interval α)
  | null => []
  | node intervals left right center =>
    (if intervals.head?.any fun i => !decide (stop < i.start) then intervals else []) ++
      (if start ≤ center then left.near start stop else []) ++
      (if center ≤ stop then right.near start stop else [])

def overlaps (start stop : Nat) (i : Interval α) : Bool := decide (start ≤ i.stop ∧ i.start ≤ stop)

def findOverlapping (start stop : Nat) (t : IntervalTree α) : List (Interval α) :=
  (t.near start stop).filter (overlaps start stop)

/-! ## What a tree holds -/

def ByStart (ivals : List (Interval α)) : Prop := ivals.Pairwise fun a b => a.start ≤ b.start

/-- What a constructed tree satisfies. -/
def Valid : IntervalTree α → Prop
  | null => True
  | node intervals left right center =>
    ByStart intervals ∧ (∀ i ∈ left.all, i.stop < center) ∧ (∀ i ∈ right.all, center < i.start) ∧
      left.Valid ∧ right.Valid

theorem byStart_sortByStart (ivals : List (Interval α)) : ByStart (sortByStart ivals) := by
  have h : (sortByStart ivals).Pairwise fun a b => decide (a.start ≤ b.start) = true :=
    List.pairwise_mergeSort
      (fun a b c hab hbc => decide_eq_true ((of_decide_eq_true hab).trans (of_decide_eq_true hbc)))
      (fun a b => by simpa using Nat.le_total a.start b.start) ivals
  exact h.imp of_decide_eq_true

theorem sortByStart_perm (ivals : List (Interval α)) : (sortByStart ivals).Perm ivals :=
  List.mergeSort_perm ..

theorem leaf_spec (ivals : List (Interval α)) (center : Nat) :
    (node (sortByStart ivals) null null center).all.Perm ivals ∧
      (node (sortByStart ivals) null null center).Valid := by
  constructor
  · simpa [all] using sortByStart_perm ivals
  · simp [Valid, all, byStart_sortByStart]

theorem child_spec {t : IntervalTree α} {ivals : List (Interval α)}
    (h : t.all.Perm ivals ∧ t.Valid) :
    (if ivals.isEmpty then null else t).all.Perm ivals ∧ (if ivals.isEmpty then null else t).Valid := by
  cases ivals with
  | nil => exact ⟨.refl _, trivial⟩
  | cons i ivals => exact h

/-- The constructor splits its intervals; they are in order, or are sorted first. -/
theorem build_spec (depth leftextent rightextent : Nat) (ivals : List (Interval α))
    (h : leftextent = 0 ∧ rightextent = 0 ∨ ByStart ivals) :
    (build depth leftextent rightextent ivals).all.Perm ivals ∧
      (build depth leftextent rightextent ivals).Valid := by
  induction depth generalizing leftextent rightextent ivals with
  | zero =>
    rw [build]
    split
    · exact ⟨(leaf_spec _ _).1.trans (sortByStart_perm ivals), (leaf_spec _ _).2⟩
    · exact leaf_spec _ _
  | succ depth ih =>
    rw [build]
    generalize ((extremes ivals).1 + (extremes ivals).2) % 2 ^ 64 / 2 = center
    have hsorted : ∃ sorted : List (Interval α), sorted.Perm ivals ∧ ByStart sorted ∧
        (if leftextent = 0 ∧ rightextent = 0 then sortByStart ivals else ivals) = sorted := by
      by_cases hz : leftextent = 0 ∧ rightextent = 0
      · exact ⟨_, sortByStart_perm ivals, byStart_sortByStart ivals, if_pos hz⟩
      · exact ⟨ivals, .refl _, h.resolve_left hz, if_neg hz⟩
    obtain ⟨sorted, hperm, hby, heq⟩ := hsorted
    simp only [heq]
    split
    · exact ⟨(leaf_spec _ _).1.trans hperm, (leaf_spec _ _).2⟩
    generalize (if leftextent ≠ 0 ∨ rightextent ≠ 0 then leftextent else _) = leftp
    generalize (if leftextent ≠ 0 ∨ rightextent ≠ 0 then rightextent else _) = rightp
    have hothers : ByStart (sorted.filter fun i => !decide (i.stop < center)) := hby.filter _
    have hleft := child_spec (ih leftp center _ (.inr (hby.filter fun i => decide (i.stop < center))))
    have hright := child_spec
      (ih center rightp _ (.inr (hothers.filter fun i => decide (center < i.start))))
    refine ⟨?_, hothers.filter _, fun i hi => ?_, fun i hi => ?_, hleft.2, hright.2⟩
    · -- The intervals in front of the center, those around it and those behind it are all of them.
      refine (((hleft.1.append_right _).append hright.1).trans ?_).trans hperm
      rw [List.append_assoc]
      refine (List.Perm.append_left _ ?_).trans (List.filter_append_perm _ sorted)
      exact List.perm_append_comm.trans (List.filter_append_perm _ _)
    · exact of_decide_eq_true (List.mem_filter.mp (hleft.1.mem_iff.mp hi)).2
    · exact of_decide_eq_true (List.mem_filter.mp (hright.1.mem_iff.mp hi)).2

/-- A tree holds what was put in. -/
theorem ofIntervals_spec (ivals : List (Interval α)) :
    (ofIntervals ivals).all.Perm ivals ∧ (ofIntervals ivals).Valid :=
  build_spec 15 0 0 ivals (.inl ⟨rfl, rfl⟩)

/-! ## Searches -/

/-- What is left unvisited does not matter where nothing in it is looked for. -/
theorem filter_unvisited {p : Interval α → Bool} {c : Prop} [Decidable c] {ivals : List (Interval α)}
    (h : ¬ c → ∀ i ∈ ivals, ¬ p i = true) : (if c then ivals else []).filter p = ivals.filter p := by
  by_cases hc : c
  · rw [if_pos hc]
  · rw [if_neg hc, List.filter_eq_nil_iff.mpr (h hc), List.filter_nil]

theorem filter_near {t : IntervalTree α} (h : t.Valid) (start stop : Nat) {p : Interval α → Bool}
    (hp : ∀ i, p i = true → start ≤ i.stop ∧ i.start ≤ stop) :
    ((t.near start stop).filter p).Perm (t.all.filter p) := by
  induction t with
  | null => exact .refl _
  | node intervals left right center ihl ihr =>
    obtain ⟨hby, hleft, hright, hl, hr⟩ := h
    have near_left : ¬ start ≤ center → ∀ i ∈ left.near start stop, ¬ p i = true := fun hlt i hi hpi => by
      have hmem := (ihl hl).mem_iff.mp (List.mem_filter.mpr ⟨hi, hpi⟩)
      have := hleft i (List.mem_filter.mp hmem).1
      have := (hp i hpi).1
      omega
    have near_right : ¬ center ≤ stop → ∀ i ∈ right.near start stop, ¬ p i = true := fun hlt i hi hpi => by
      have hmem := (ihr hr).mem_iff.mp (List.mem_filter.mpr ⟨hi, hpi⟩)
      have := hright i (List.mem_filter.mp hmem).1
      have := (hp i hpi).2
      omega
    have around : ¬ (intervals.head?.any fun i => !decide (stop < i.start)) = true →
        ∀ i ∈ intervals, ¬ p i = true := by
      intro hhead i hi hpi
      cases intervals with
      | nil => cases hi
      | cons first intervals =>
        -- The first interval starts first.
        have hfirst : first.start ≤ i.start := by
          rcases List.mem_cons.mp hi with rfl | hi
          · exact Nat.le_refl _
          · exact List.rel_of_pairwise_cons hby hi
        have := (hp i hpi).2
        simp only [List.head?_cons, Option.any_some, Bool.not_eq_true', decide_eq_false_iff_not,
          not_not] at hhead
        omega
    rw [near, all, List.filter_append, List.filter_append, List.filter_append, List.filter_append,
      filter_unvisited around, filter_unvisited near_left, filter_unvisited near_right]
    exact (((ihl hl).append_left _).trans List.perm_append_comm).append (ihr hr)

theorem findOverlapping_perm (ivals : List (Interval α)) (start stop : Nat) :
    ((ofIntervals ivals).findOverlapping start stop).Perm (ivals.filter (overlaps start stop)) := by
  obtain ⟨hperm, hvalid⟩ := ofIntervals_spec ivals
  exact (filter_near hvalid start stop fun i hi => of_decide_eq_true hi).trans (hperm.filter _)

/-- Whatever the intervals are, a tree of them is valid, and a search finds exactly the intervals that
overlap, each as often as it was put in. -/
theorem search_exact (ivals : List (Interval α)) (start stop : Nat) :
    (ofIntervals ivals).Valid ∧ (ofIntervals ivals).all.Perm ivals ∧
      ((ofIntervals ivals).findOverlapping start stop).Perm (ivals.filter (overlaps start stop)) :=
  ⟨(ofIntervals_spec ivals).2, (ofIntervals_spec ivals).1, findOverlapping_perm ivals start stop⟩

def empty : IntervalTree α → Bool
  | null => true
  | node intervals left right _ => left.empty && intervals.isEmpty && right.empty

theorem empty_iff (t : IntervalTree α) : t.empty = true ↔ t.all = [] := by
  induction t with
  | null => simp [empty, all]
  | node intervals left right center ihl ihr => simp [empty, all, ihl, ihr, and_assoc]

end IntervalTree

/-! ## The bytes of a range of times -/

/-- `McapReader`: what `byteRange` reads. -/
structure McapReader where
  dataStart_ : UInt64
  dataEnd_ : UInt64
  parsedSummary_ : Bool
  chunkRanges_ : IntervalTree ChunkIndex

def chunkInterval (c : ChunkIndex) : Interval ChunkIndex :=
  .of c.messageStartTime.toNat c.messageEndTime.toNat c

/-- The end of `McapReader::readSummary`. -/
def McapReader.indexed (dataStart dataEnd : UInt64) (chunkIndexes : List ChunkIndex) : McapReader :=
  ⟨dataStart, dataEnd, true, .ofIntervals (chunkIndexes.map chunkInterval)⟩

/-- A chunk widens the range; its end is computed with overflow. -/
def widen (range : Nat × Nat) (i : Interval ChunkIndex) : Nat × Nat :=
  (min range.1 i.value.chunkStartOffset.toNat,
    max range.2 (i.value.chunkStartOffset + i.value.chunkLength).toNat)

def McapReader.byteRange (r : McapReader) (startTime endTime : Nat) : Nat × Nat :=
  if !r.parsedSummary_ || r.chunkRanges_.empty then (r.dataStart_.toNat, r.dataEnd_.toNat)
  else
    let range := (r.chunkRanges_.findOverlapping startTime endTime).foldl widen
      (r.dataEnd_.toNat, r.dataStart_.toNat)
    let dataEnd := max range.2 range.1
    if range.1 = dataEnd then (0, 0) else (range.1, dataEnd)

theorem foldl_widen (ivals : List (Interval ChunkIndex)) (range : Nat × Nat) :
    ((ivals.foldl widen range).1 ≤ range.1 ∧ range.2 ≤ (ivals.foldl widen range).2) ∧
      ∀ i ∈ ivals, (ivals.foldl widen range).1 ≤ i.value.chunkStartOffset.toNat ∧
        (i.value.chunkStartOffset + i.value.chunkLength).toNat ≤ (ivals.foldl widen range).2 := by
  induction ivals generalizing range with
  | nil => simp
  | cons i ivals ih =>
    obtain ⟨hrange, hall⟩ := ih (widen range i)
    simp only [widen, Nat.le_min, Nat.max_le] at hrange
    refine ⟨⟨hrange.1.1, hrange.2.1⟩, fun j hj => ?_⟩
    rcases List.mem_cons.mp hj with rfl | hj
    · exact ⟨hrange.1.2, hrange.2.2⟩
    · exact hall j hj

/-- The times of a chunk index, in either order, meet a range of times. -/
def Meets (c : ChunkIndex) (startTime endTime : Nat) : Prop :=
  startTime ≤ max c.messageStartTime.toNat c.messageEndTime.toNat ∧
    min c.messageStartTime.toNat c.messageEndTime.toNat ≤ endTime

/-- The range that the reader picks covers every chunk that may hold a message of these times, if the
chunk has an end at all. -/
theorem byteRange_covers (dataStart dataEnd : UInt64) (chunkIndexes : List ChunkIndex)
    (startTime endTime : Nat) :
    let range := (McapReader.indexed dataStart dataEnd chunkIndexes).byteRange startTime endTime
    (chunkIndexes ≠ [] → range.1 ≤ range.2) ∧ ∀ c ∈ chunkIndexes, Meets c startTime endTime →
      0 < c.chunkLength.toNat → c.chunkStartOffset.toNat + c.chunkLength.toNat < 2 ^ 64 →
        range.1 ≤ c.chunkStartOffset.toNat ∧
          c.chunkStartOffset.toNat + c.chunkLength.toNat ≤ range.2 := by
  have hperm := (IntervalTree.ofIntervals_spec (chunkIndexes.map chunkInterval)).1
  have hsearch := IntervalTree.findOverlapping_perm (chunkIndexes.map chunkInterval) startTime endTime
  rw [McapReader.byteRange, McapReader.indexed]
  dsimp only
  generalize IntervalTree.ofIntervals (chunkIndexes.map chunkInterval) = t at hperm hsearch
  split
  · next hempty =>
    rw [(t.empty_iff).mp (by simpa using hempty)] at hperm
    simp [List.map_eq_nil_iff.mp hperm.symm.eq_nil]
  obtain ⟨-, hall⟩ := foldl_widen (t.findOverlapping startTime endTime) (dataEnd.toNat, dataStart.toNat)
  generalize (t.findOverlapping startTime endTime).foldl widen (dataEnd.toNat, dataStart.toNat) = widened
    at hall
  have covers : ∀ c ∈ chunkIndexes, Meets c startTime endTime →
      c.chunkStartOffset.toNat + c.chunkLength.toNat < 2 ^ 64 → widened.1 ≤ c.chunkStartOffset.toNat ∧
        c.chunkStartOffset.toNat + c.chunkLength.toNat ≤ widened.2 := by
    intro c hc hmeets hend
    rw [← Nat.mod_eq_of_lt hend, ← UInt64.toNat_add]
    exact hall (chunkInterval c) (hsearch.mem_iff.mpr
      (List.mem_filter.mpr ⟨List.mem_map_of_mem hc, decide_eq_true hmeets⟩))
  split
  · refine ⟨fun _ => Nat.le_refl _, fun c hc hmeets hpos hend => ?_⟩
    have := covers c hc hmeets hend
    omega
  · refine ⟨fun _ => Nat.le_max_right _ _, fun c hc hmeets _ hend => ?_⟩
    have := covers c hc hmeets hend
    exact ⟨this.1, this.2.trans (Nat.le_max_left _ _)⟩

end Cpp
end Mcap
