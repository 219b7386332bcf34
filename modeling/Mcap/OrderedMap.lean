import Mathlib.Data.List.Basic
import Mathlib.Data.List.Perm.Basic
import Mathlib.Data.List.Nodup
import Mathlib.Algebra.BigOperators.Group.List.Basic
import Std.Data.ExtTreeMap

/-! # Ordered maps

`BTreeMap K V` is Lean's extensional tree map: two maps with the same entries
are equal, and `toList` enumerates the entries by increasing key.  The lemmas
here are the ones a codec and a table of counters need: inserting the entries
of a map one by one rebuilds it, and what `insert` does to the entry list.
-/
namespace Mcap

/-- An ordered map, iterated by increasing key. -/
abbrev BTreeMap (K V : Type) [Ord K] := Std.ExtTreeMap K V compare

namespace BTreeMap
variable {K V : Type} [Ord K] [Std.TransOrd K] [Std.LawfulEqOrd K] {k : K} {m : BTreeMap K V}
  {l : List (K × V)}

omit [Std.TransOrd K] in
theorem compare_eq_iff {a b : K} : compare a b = .eq ↔ a = b :=
  Std.LawfulEqOrd.compare_eq_iff_eq

theorem getElem?_insert_self (m : BTreeMap K V) (k : K) (v : V) : (m.insert k v)[k]? = some v := by
  rw [Std.ExtTreeMap.getElem?_insert, if_pos (compare_eq_iff.mpr rfl)]

theorem getElem?_insert_ne (m : BTreeMap K V) {a : K} (h : k ≠ a) (v : V) :
    (m.insert k v)[a]? = m[a]? := by
  rw [Std.ExtTreeMap.getElem?_insert, if_neg (fun he => h (compare_eq_iff.mp he))]

theorem of_getElem?_insert {a : K} {v u : V}
    (h : (m.insert k v)[a]? = some u) : k = a ∧ v = u ∨ m[a]? = some u := by
  by_cases hk : k = a
  · subst hk
    rw [getElem?_insert_self] at h
    exact .inl ⟨rfl, Option.some.inj h⟩
  · rw [getElem?_insert_ne _ hk] at h
    exact .inr h

omit [Std.LawfulEqOrd K] in
theorem contains_iff (m : BTreeMap K V) (k : K) : m.contains k = true ↔ ∃ v, m[k]? = some v := by
  rw [Std.ExtTreeMap.contains_eq_isSome_getElem?, Option.isSome_iff_exists]

omit [Std.LawfulEqOrd K] in
theorem contains_eq_false_iff (m : BTreeMap K V) (k : K) :
    m.contains k = false ↔ m[k]? = none := by
  rw [Std.ExtTreeMap.contains_eq_isSome_getElem?, Option.isSome_eq_false_iff,
    Option.isNone_iff_eq_none]

/-- The map that inserts the entries of `l`, in order, into `m`. -/
def insertAll (m : BTreeMap K V) (l : List (K × V)) : BTreeMap K V :=
  l.foldl (fun acc e => acc.insert e.1 e.2) m

theorem getElem?_insertAll_of_not_mem (m : BTreeMap K V)
    (h : k ∉ l.map Prod.fst) : (insertAll m l)[k]? = m[k]? := by
  induction l generalizing m with
  | nil => rfl
  | cons e l ih =>
    rw [List.map_cons, List.mem_cons, not_or] at h
    show (insertAll (m.insert e.1 e.2) l)[k]? = _
    rw [ih _ h.2, getElem?_insert_ne _ (Ne.symm h.1)]

theorem getElem?_insertAll_of_mem {v : V} (m : BTreeMap K V) (hl : (l.map Prod.fst).Nodup)
    (h : (k, v) ∈ l) : (insertAll m l)[k]? = some v := by
  induction l generalizing m with
  | nil => cases h
  | cons e l ih =>
    rw [List.map_cons, List.nodup_cons] at hl
    show (insertAll (m.insert e.1 e.2) l)[k]? = _
    rcases List.mem_cons.mp h with rfl | hmem
    · rw [getElem?_insertAll_of_not_mem _ hl.1, getElem?_insert_self]
    · exact ih _ hl.2 hmem

theorem mem_of_getElem?_insertAll {v : V}
    (h : (insertAll m l)[k]? = some v) : (k, v) ∈ l ∨ m[k]? = some v := by
  induction l generalizing m with
  | nil => exact .inr h
  | cons e l ih =>
    rcases ih (show (insertAll (m.insert e.1 e.2) l)[k]? = some v from h) with hl | hm
    · exact .inl (List.mem_cons_of_mem _ hl)
    · by_cases hk : e.1 = k
      · subst hk
        rw [getElem?_insert_self] at hm
        cases hm
        exact .inl List.mem_cons_self
      · rw [getElem?_insert_ne _ hk] at hm
        exact .inr hm

omit [Std.LawfulEqOrd K] in
theorem nodup_keys_toList (m : BTreeMap K V) : (m.toList.map Prod.fst).Nodup := by
  rw [Std.ExtTreeMap.map_fst_toList_eq_keys]
  exact Std.ExtTreeMap.nodup_keys

/-- **Inserting the entries of a map one by one rebuilds it.** -/
theorem insertAll_of_perm (hl : l.Perm m.toList) :
    insertAll ∅ l = m := by
  have hkeys : (l.map Prod.fst).Nodup := (hl.map Prod.fst).nodup_iff.mpr (nodup_keys_toList m)
  apply Std.ExtTreeMap.ext_getElem?
  intro k
  cases h : m[k]? with
  | none =>
    have hk : k ∉ l.map Prod.fst := by
      intro hk
      obtain ⟨⟨k', v⟩, he, rfl⟩ := List.mem_map.mp hk
      have hv := Std.ExtTreeMap.mem_toList_iff_getElem?_eq_some.mp (hl.mem_iff.mp he)
      exact absurd (hv.symm.trans h) (by simp)
    rw [getElem?_insertAll_of_not_mem _ hk, Std.ExtTreeMap.getElem?_empty]
  | some v =>
    exact getElem?_insertAll_of_mem _ hkeys
      (hl.mem_iff.mpr (Std.ExtTreeMap.mem_toList_iff_getElem?_eq_some.mpr h))

theorem insertAll_toList (m : BTreeMap K V) : insertAll ∅ m.toList = m := insertAll_of_perm (.refl _)

theorem getElem?_of_foldlM {C U : Type} {f : V → Option C} {g : K → C → U} {m m' : BTreeMap K U}
    (hl : (l.map Prod.fst).Nodup)
    (h : l.foldlM (fun m e => (f e.2).bind fun u => some (m.insert e.1 (g e.1 u))) m = some m')
    (k : K) :
    (k ∉ l.map Prod.fst → m'[k]? = m[k]?) ∧ ∀ v, (k, v) ∈ l → m'[k]? = (f v).map (g k) := by
  induction l generalizing m with
  | nil =>
    cases h
    exact ⟨fun _ => rfl, fun v hv => by cases hv⟩
  | cons e l ih =>
    rw [List.map_cons, List.nodup_cons] at hl
    rw [List.foldlM_cons] at h
    cases hf : f e.2 with
    | none =>
      rw [hf] at h
      cases h
    | some u =>
      rw [hf] at h
      obtain ⟨hout, hin⟩ := ih hl.2 h
      refine ⟨fun hk => ?_, fun v hv => ?_⟩
      · rw [List.map_cons, List.mem_cons, not_or] at hk
        rw [hout hk.2, getElem?_insert_ne _ (Ne.symm hk.1)]
      · rcases List.mem_cons.mp hv with rfl | hmem
        · rw [hout hl.1, getElem?_insert_self, hf]
          rfl
        · exact hin v hmem

omit [Std.LawfulEqOrd K] in
theorem foldlM_ne_none {C U : Type} {f : V → Option C} {g : K → C → U} {m : BTreeMap K U}
    (h : ∀ e ∈ l, (f e.2).isSome) :
    l.foldlM (fun m e => (f e.2).bind fun u => some (m.insert e.1 (g e.1 u))) m ≠ none := by
  induction l generalizing m with
  | nil => exact Option.some_ne_none m
  | cons e l ih =>
    obtain ⟨he, hl⟩ := List.forall_mem_cons.mp h
    obtain ⟨u, hu⟩ := Option.isSome_iff_exists.mp he
    rw [List.foldlM_cons, hu]
    exact ih hl

omit [Std.LawfulEqOrd K] in
theorem foldlM_eq_empty_iff {C U : Type} {f : V → Option C} {g : K → C → U} {m m' : BTreeMap K U}
    (h : l.foldlM (fun m e => (f e.2).bind fun u => some (m.insert e.1 (g e.1 u))) m = some m') :
    m' = ∅ ↔ m = ∅ ∧ l = [] := by
  induction l generalizing m with
  | nil =>
    cases h
    simp
  | cons e l ih =>
    rw [List.foldlM_cons] at h
    cases hf : f e.2 with
    | none =>
      rw [hf] at h
      cases h
    | some u =>
      rw [hf] at h
      rw [ih h]
      simp

theorem getElem?_of_foldlM_toList {C U : Type} {f : V → Option C} {g : K → C → U}
    {m' : BTreeMap K U} (h : m.toList.foldlM
      (fun m e => (f e.2).bind fun u => some (m.insert e.1 (g e.1 u))) ∅ = some m') (k : K) :
    m'[k]? = m[k]?.bind fun v => (f v).map (g k) := by
  obtain ⟨hout, hin⟩ := getElem?_of_foldlM (nodup_keys_toList m) h k
  cases hk : m[k]? with
  | none =>
    refine (hout fun hmem => ?_).trans Std.ExtTreeMap.getElem?_empty
    obtain ⟨⟨k', v⟩, he, rfl⟩ := List.mem_map.mp hmem
    rw [Std.ExtTreeMap.mem_toList_iff_getElem?_eq_some, hk] at he
    cases he
  | some v =>
    rw [hin v (Std.ExtTreeMap.mem_toList_iff_getElem?_eq_some.mpr hk)]
    rfl

/-- A map built from entries none of which has the key `k` does not contain
`k`. -/
theorem contains_insertAll_empty (h : k ∉ l.map Prod.fst) :
    (insertAll (∅ : BTreeMap K V) l).contains k = false := by
  rw [contains_eq_false_iff, getElem?_insertAll_of_not_mem _ h, Std.ExtTreeMap.getElem?_empty]

/-! ### Entries as a list -/

omit [Std.LawfulEqOrd K] in
theorem nodup_toList (m : BTreeMap K V) : m.toList.Nodup := .of_map Prod.fst (nodup_keys_toList m)

theorem mem_toList {v : V} : (k, v) ∈ m.toList ↔ m[k]? = some v :=
  Std.ExtTreeMap.mem_toList_iff_getElem?_eq_some

section
variable [DecidableEq K]

theorem toList_perm {m : BTreeMap K V} {k : K} {v : V} (h : m[k]? = some v) :
    m.toList.Perm ((k, v) :: m.toList.filter (·.1 ≠ k)) := by
  refine (List.perm_ext_iff_of_nodup (nodup_toList m) ?_).mpr ?_
  · refine List.nodup_cons.mpr ⟨fun hmem => ?_, (nodup_toList m).filter _⟩
    simpa using (List.mem_filter.mp hmem).2
  · rintro ⟨k', v'⟩
    rw [List.mem_cons, List.mem_filter, mem_toList]
    by_cases hk : k' = k
    · subst hk
      simp [h, eq_comm]
    · simp [hk]

theorem filter_insert_perm (m : BTreeMap K V) (k : K) (v : V) :
    ((m.insert k v).toList.filter (·.1 ≠ k)).Perm (m.toList.filter (·.1 ≠ k)) := by
  refine (List.perm_ext_iff_of_nodup ((nodup_toList _).filter _) ((nodup_toList m).filter _)).mpr ?_
  rintro ⟨k', v'⟩
  rw [List.mem_filter, List.mem_filter, mem_toList, mem_toList]
  by_cases hk : k' = k
  · simp [hk]
  · rw [getElem?_insert_ne m (Ne.symm hk)]

theorem toList_insert_perm {m : BTreeMap K V} {k : K} (h : m.contains k = false) (v : V) :
    (m.insert k v).toList.Perm ((k, v) :: m.toList) := by
  have hall : m.toList.filter (·.1 ≠ k) = m.toList := by
    refine List.filter_eq_self.mpr fun e he => ?_
    have hne : e.1 ≠ k := by
      rintro rfl
      rw [(contains_iff m e.1).mpr ⟨e.2, mem_toList.mp he⟩] at h
      cases h
    simpa using hne
  have hfilter := filter_insert_perm m k v
  rw [hall] at hfilter
  exact (toList_perm (getElem?_insert_self m k v)).trans (hfilter.cons _)

variable [AddCommMonoid V]

theorem sum_values (m : BTreeMap K V) (k : K) : (m.toList.map Prod.snd).sum =
    m.getD k 0 + ((m.toList.filter (·.1 ≠ k)).map Prod.snd).sum := by
  rw [Std.ExtTreeMap.getD_eq_getD_getElem?]
  cases h : m[k]? with
  | none =>
    have hall : m.toList.filter (·.1 ≠ k) = m.toList := by
      refine List.filter_eq_self.mpr fun e he => ?_
      have hne : e.1 ≠ k := by
        rintro rfl
        rw [mem_toList.mp he] at h
        cases h
      simpa using hne
    rw [hall, Option.getD_none, zero_add]
  | some v => rw [((toList_perm h).map Prod.snd).sum_eq, List.map_cons, List.sum_cons, Option.getD_some]

/-- **The sum of the values after an insertion.** -/
theorem sum_values_insert (m : BTreeMap K V) (k : K) (v : V) :
    ((m.insert k v).toList.map Prod.snd).sum =
      v + ((m.toList.filter (·.1 ≠ k)).map Prod.snd).sum := by
  rw [sum_values _ k, ((filter_insert_perm m k v).map Prod.snd).sum_eq,
    Std.ExtTreeMap.getD_eq_getD_getElem?, getElem?_insert_self, Option.getD_some]

end

end BTreeMap
end Mcap
