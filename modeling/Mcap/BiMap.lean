import Mathlib.Data.List.Basic
import Mathlib.Data.List.Nodup

/-! # Two-way maps

A map that can be looked up from both sides.  Neither side has an entry twice, so
the two lookups are inverse to each other (`getByRight_eq_some_iff`), and an entry
is added only if both sides of it are new (`insertNoOverwrite`).
-/
namespace Mcap

/-- A bijection between finitely many `L` and `R`. -/
structure BiMap (L R : Type) where
  entries : List (L × R)
  nodup_left : (entries.map Prod.fst).Nodup
  nodup_right : (entries.map Prod.snd).Nodup

namespace BiMap
variable {L R : Type}

/-- No entries. -/
def empty : BiMap L R := ⟨[], List.nodup_nil, List.nodup_nil⟩

section
variable [DecidableEq L] [DecidableEq R] {m : BiMap L R}

/-- Look up by the left side. -/
def getByLeft (m : BiMap L R) (l : L) : Option R :=
  (m.entries.find? fun e => e.1 = l).map Prod.snd

/-- Look up by the right side. -/
def getByRight (m : BiMap L R) (r : R) : Option L :=
  (m.entries.find? fun e => e.2 = r).map Prod.fst

omit [DecidableEq R] in
theorem getByLeft_eq_some_iff {l : L} {r : R} :
    m.getByLeft l = some r ↔ (l, r) ∈ m.entries := by
  constructor
  · intro h
    obtain ⟨e, he, rfl⟩ := Option.map_eq_some_iff.mp h
    have hl : e.1 = l := by simpa using List.find?_some he
    rw [← hl]
    exact List.mem_of_find?_eq_some he
  · intro h
    cases hf : m.entries.find? fun e => e.1 = l with
    | none =>
      have := List.find?_eq_none.mp hf _ h
      simp at this
    | some e =>
      have he : e.1 = l := by simpa using List.find?_some hf
      have heq := List.inj_on_of_nodup_map m.nodup_left (List.mem_of_find?_eq_some hf) h he
      rw [getByLeft, hf, heq]
      rfl

omit [DecidableEq L] in
theorem getByRight_eq_some_iff_mem {l : L} {r : R} :
    m.getByRight r = some l ↔ (l, r) ∈ m.entries := by
  constructor
  · intro h
    obtain ⟨e, he, rfl⟩ := Option.map_eq_some_iff.mp h
    have hr : e.2 = r := by simpa using List.find?_some he
    rw [← hr]
    exact List.mem_of_find?_eq_some he
  · intro h
    cases hf : m.entries.find? fun e => e.2 = r with
    | none =>
      have := List.find?_eq_none.mp hf _ h
      simp at this
    | some e =>
      have he : e.2 = r := by simpa using List.find?_some hf
      have heq := List.inj_on_of_nodup_map m.nodup_right (List.mem_of_find?_eq_some hf) h he
      rw [getByRight, hf, heq]
      rfl

/-- **The two lookups are inverse to each other.** -/
theorem getByRight_eq_some_iff {l : L} {r : R} :
    m.getByRight r = some l ↔ m.getByLeft l = some r := by
  rw [getByRight_eq_some_iff_mem, getByLeft_eq_some_iff]

omit [DecidableEq R] in
theorem not_mem_left {l : L} (h : m.getByLeft l = none) :
    l ∉ m.entries.map Prod.fst := by
  intro hl
  obtain ⟨⟨l', r⟩, he, rfl⟩ := List.mem_map.mp hl
  rw [getByLeft_eq_some_iff.mpr he] at h
  cases h

omit [DecidableEq L] in
theorem not_mem_right {r : R} (h : m.getByRight r = none) :
    r ∉ m.entries.map Prod.snd := by
  intro hr
  obtain ⟨⟨l, r'⟩, he, rfl⟩ := List.mem_map.mp hr
  rw [getByRight_eq_some_iff_mem.mpr he] at h
  cases h

/-- Add an entry, unless one of its sides is there already. -/
def insertNoOverwrite (m : BiMap L R) (l : L) (r : R) : Option (BiMap L R) :=
  if h : m.getByLeft l = none ∧ m.getByRight r = none then
    some
      { entries := m.entries ++ [(l, r)]
        nodup_left := by
          rw [List.map_append, List.nodup_append]
          refine ⟨m.nodup_left, by simp, fun a ha b hb heq => not_mem_left h.1 ?_⟩
          have hb : b = _ := List.mem_singleton.mp hb
          rwa [heq, hb] at ha
        nodup_right := by
          rw [List.map_append, List.nodup_append]
          refine ⟨m.nodup_right, by simp, fun a ha b hb heq => not_mem_right h.2 ?_⟩
          have hb : b = _ := List.mem_singleton.mp hb
          rwa [heq, hb] at ha }
  else none

theorem insertNoOverwrite_of_new {l : L} {r : R} (hl : m.getByLeft l = none)
    (hr : m.getByRight r = none) :
    ∃ m', m.insertNoOverwrite l r = some m' ∧ m'.entries = m.entries ++ [(l, r)] :=
  ⟨_, dif_pos ⟨hl, hr⟩, rfl⟩

end

section
variable [DecidableEq L] [DecidableEq R] {m m' : BiMap L R} {l : L} {r : R}

omit [DecidableEq R] in
theorem getByLeft_insert (h : m'.entries = m.entries ++ [(l, r)]) {l' : L} {r' : R} :
    m'.getByLeft l' = some r' ↔ m.getByLeft l' = some r' ∨ l' = l ∧ r' = r := by
  rw [getByLeft_eq_some_iff, getByLeft_eq_some_iff, h, List.mem_append, List.mem_singleton,
    Prod.mk.injEq]

theorem getByRight_insert (h : m'.entries = m.entries ++ [(l, r)]) {l' : L} {r' : R} :
    m'.getByRight r' = some l' ↔ m.getByRight r' = some l' ∨ l' = l ∧ r' = r := by
  rw [getByRight_eq_some_iff, getByLeft_insert h, getByRight_eq_some_iff]

omit [DecidableEq R] in

omit [DecidableEq L] in

end

end BiMap
end Mcap
