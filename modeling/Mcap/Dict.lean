import Mathlib.Data.List.Nodup
import Mathlib.Data.List.Basic

/-! # Maps in insertion order

The maps of a language whose maps keep the order of insertion: an entry is added at the end, and
an entry that is there already keeps its place and gets the new value.  The keys are distinct, which
is a field of the type.

`ofList_items` says that a map is rebuilt from its entries, so that what is written entry by entry
is read back.
-/
namespace Mcap

/-- A map in insertion order. -/
structure Dict (K V : Type) where
  items : List (K × V)
  nodup : (items.map Prod.fst).Nodup
deriving DecidableEq

namespace Dict
variable {K V : Type}

instance : EmptyCollection (Dict K V) := ⟨⟨[], List.nodup_nil⟩⟩

@[simp] theorem items_empty : (∅ : Dict K V).items = [] := rfl

@[ext] theorem ext {d d' : Dict K V} (h : d.items = d'.items) : d = d' := by
  cases d
  cases d'
  cases h
  rfl

/-- The keys, in order. -/
def keys (d : Dict K V) : List K := d.items.map Prod.fst

/-- The values, in order. -/
def values (d : Dict K V) : List V := d.items.map Prod.snd

section
variable [DecidableEq K] {d : Dict K V} {k : K}

/-- The value of a key. -/
def get? (d : Dict K V) (k : K) : Option V := (d.items.find? fun e => e.1 = k).map Prod.snd

/-- The value of the entries with a key is replaced. -/
def replace (k : K) (v : V) (e : K × V) : K × V := if e.1 = k then (k, v) else e

theorem fst_replace (k : K) (v : V) (e : K × V) : (replace k v e).1 = e.1 := by
  unfold replace
  split
  · rename_i h
    exact h.symm
  · rfl

/-- `d[k] = v`. -/
def set (d : Dict K V) (k : K) (v : V) : Dict K V :=
  if h : k ∈ d.keys then
    ⟨d.items.map (replace k v), by
      rw [List.map_map, show Prod.fst ∘ replace k v = Prod.fst from funext (fst_replace k v)]
      exact d.nodup⟩
  else
    ⟨d.items ++ [(k, v)], by
      rw [List.map_append]
      refine List.nodup_append.mpr ⟨d.nodup, List.nodup_singleton k, fun a ha b hb heq => h ?_⟩
      rw [heq, List.mem_singleton.mp hb] at ha
      exact ha⟩

theorem items_set_of_not_mem (h : k ∉ d.keys) (v : V) :
    (d.set k v).items = d.items ++ [(k, v)] := by
  unfold set
  rw [dif_neg h]

theorem items_set_of_mem (h : k ∈ d.keys) (v : V) :
    (d.set k v).items = d.items.map (replace k v) := by
  unfold set
  rw [dif_pos h]

theorem keys_set_of_mem (h : k ∈ d.keys) (v : V) :
    (d.set k v).keys = d.keys := by
  unfold keys
  rw [items_set_of_mem h, List.map_map,
    show Prod.fst ∘ replace k v = Prod.fst from funext (fst_replace k v)]

theorem keys_set_of_not_mem (h : k ∉ d.keys) (v : V) :
    (d.set k v).keys = d.keys ++ [k] := by
  unfold keys
  rw [items_set_of_not_mem h, List.map_append]
  rfl

theorem mem_keys_set {k' : K} {v : V} :
    k' ∈ (d.set k v).keys ↔ k' ∈ d.keys ∨ k' = k := by
  by_cases h : k ∈ d.keys
  · rw [keys_set_of_mem h]
    exact ⟨.inl, fun h' => h'.elim id fun heq => heq ▸ h⟩
  · rw [keys_set_of_not_mem h, List.mem_append, List.mem_singleton]

/-- Entries are added one by one. -/
def setAll (d : Dict K V) (l : List (K × V)) : Dict K V := l.foldl (fun d e => d.set e.1 e.2) d

theorem items_setAll {l : List (K × V)} (hl : (l.map Prod.fst).Nodup)
    (hd : ∀ e ∈ l, e.1 ∉ d.keys) : (d.setAll l).items = d.items ++ l := by
  induction l generalizing d with
  | nil => exact (List.append_nil _).symm
  | cons e l ih =>
    rw [List.map_cons, List.nodup_cons] at hl
    have hfresh : e.1 ∉ d.keys := hd e List.mem_cons_self
    have hrest : ∀ e' ∈ l, e'.1 ∉ (d.set e.1 e.2).keys := by
      intro e' he' hmem
      rcases mem_keys_set.mp hmem with hmem | heq
      · exact hd e' (List.mem_cons_of_mem _ he') hmem
      · exact hl.1 (heq ▸ List.mem_map_of_mem he')
    show ((d.set e.1 e.2).setAll l).items = _
    rw [ih hl.2 hrest, items_set_of_not_mem hfresh, List.append_assoc]
    rfl

/-- **A map is rebuilt from its entries.** -/
theorem ofList_items (d : Dict K V) : (∅ : Dict K V).setAll d.items = d := by
  refine ext ?_
  rw [items_setAll d.nodup fun e _ => List.not_mem_nil]
  rfl

theorem get?_eq_some {v : V} : d.get? k = some v ↔ (k, v) ∈ d.items := by
  obtain ⟨l, hl⟩ := d
  show (l.find? fun e => decide (e.1 = k)).map Prod.snd = some v ↔ (k, v) ∈ l
  induction l with
  | nil => exact ⟨by rintro ⟨⟩, by rintro ⟨⟩⟩
  | cons e l ih =>
    rw [List.map_cons, List.nodup_cons] at hl
    by_cases h : e.1 = k
    · rw [List.find?_cons_of_pos (by simpa using h)]
      constructor
      · intro heq
        cases heq
        exact h ▸ List.mem_cons_self
      · intro hmem
        rcases List.mem_cons.mp hmem with heq | hmem
        · exact congrArg some (congrArg Prod.snd heq).symm
        · exact absurd (h ▸ List.mem_map_of_mem hmem) hl.1
    · rw [List.find?_cons_of_neg (by simpa using h), ih hl.2, List.mem_cons]
      exact ⟨.inr, fun h' => h'.elim (fun heq => absurd (congrArg Prod.fst heq).symm h) id⟩

theorem get?_eq_none : d.get? k = none ↔ k ∉ d.keys := by
  constructor
  · intro h hmem
    obtain ⟨⟨k', v⟩, hitem, rfl⟩ := List.mem_map.mp hmem
    rw [get?_eq_some.mpr hitem] at h
    cases h
  · intro h
    by_contra hne
    obtain ⟨v, hv⟩ := Option.ne_none_iff_exists'.mp hne
    exact h (List.mem_map_of_mem (f := Prod.fst) (get?_eq_some.mp hv))

theorem get?_set_self (d : Dict K V) (k : K) (v : V) : (d.set k v).get? k = some v := by
  refine get?_eq_some.mpr ?_
  by_cases h : k ∈ d.keys
  · rw [items_set_of_mem h]
    obtain ⟨⟨k', v'⟩, hmem, rfl⟩ := List.mem_map.mp h
    refine List.mem_map.mpr ⟨(k', v'), hmem, ?_⟩
    unfold replace
    rw [if_pos rfl]
  · rw [items_set_of_not_mem h]
    exact List.mem_append_right _ (List.mem_singleton_self _)

theorem get?_set_ne {k' : K} (h : k' ≠ k) (v : V) :
    (d.set k v).get? k' = d.get? k' := by
  refine Option.ext fun v' => ?_
  rw [get?_eq_some, get?_eq_some]
  by_cases hk : k ∈ d.keys
  · rw [items_set_of_mem hk, List.mem_map]
    constructor
    · rintro ⟨⟨k₁, v₁⟩, hmem, heq⟩
      unfold replace at heq
      split at heq
      · cases heq
        exact absurd rfl h
      · cases heq
        exact hmem
    · intro hmem
      refine ⟨(k', v'), hmem, ?_⟩
      unfold replace
      rw [if_neg h]
  · rw [items_set_of_not_mem hk, List.mem_append, List.mem_singleton]
    exact ⟨fun h' => h'.elim id fun heq => absurd (congrArg Prod.fst heq) h, .inl⟩

theorem forall_set {P : K → V → Prop} {v : V} (h : ∀ id x, d.get? id = some x → P id x)
    (hv : P k v) :
    ∀ id x, (d.set k v).get? id = some x → P id x := by
  intro id x hget
  by_cases hid : id = k
  · subst hid
    rw [get?_set_self] at hget
    cases hget
    exact hv
  · rw [get?_set_ne hid] at hget
    exact h id x hget

end
end Dict
end Mcap
