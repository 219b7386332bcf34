import Mathlib.Data.List.Basic

/-! # Iterators

A call of `next` on an iterator in the state `s` gives an item and a new state, or says that
the iteration has ended, or panics.  Its loops run on fuel: `Comes next s out` says that
enough fuel gives `out`.  `Drains next s items fin` is a caller that calls `next` until the
iteration ends: the items it gets, in order, and how it ends.  There is only one such list
(`Drains.unique`).

A computation that calls an iterator runs on fuel as well: it is a function to `Progress`, and more
fuel changes nothing once it has ended (`Rising`).  `foldItems` is a loop over the items; it ends
exactly if the iteration does (`foldItems_of_drains`, `drains_of_foldItems`).
-/
namespace Mcap

/-- What a call of `next` comes to. -/
inductive Next (S α : Type)
  | item (a : α) (s : S)
  | ended (s : S)
  | panic
  /-- The fuel has run out. -/
  | spin

/-- How an iteration ends. -/
inductive Ending
  | finished
  | panicked
deriving DecidableEq

section
variable {S α : Type} (next : Nat → S → Next S α)

/-- Enough fuel gives `out`. -/
def Comes (s : S) (out : Next S α) : Prop := ∃ N, ∀ fuel, N ≤ fuel → next fuel s = out

/-- **A whole iteration**: its items, in order, and how it ends. -/
inductive Drains : S → List α → Ending → Prop
  | item {s s' a as fin} : Comes next s (.item a s') → Drains s' as fin → Drains s (a :: as) fin
  | ended {s s'} : Comes next s (.ended s') → Drains s [] .finished
  | panic {s} : Comes next s .panic → Drains s [] .panicked

variable {next} {s : S}

theorem Comes.unique {a b : Next S α} (ha : Comes next s a) (hb : Comes next s b) : a = b := by
  obtain ⟨N, hN⟩ := ha
  obtain ⟨M, hM⟩ := hb
  rw [← hN (max N M) (Nat.le_max_left _ _), hM (max N M) (Nat.le_max_right _ _)]

theorem Drains.of_comes {s' : S} {as : List α} {fin : Ending}
    (h : ∀ out, Comes next s' out → Comes next s out) (hd : Drains next s' as fin) :
    Drains next s as fin := by
  cases hd with
  | item hc hrest => exact .item (h _ hc) hrest
  | ended hc => exact .ended (h _ hc)
  | panic hc => exact .panic (h _ hc)

/-- **An iteration has one outcome.** -/
theorem Drains.unique {as bs : List α} {fin fin' : Ending} (h : Drains next s as fin)
    (h' : Drains next s bs fin') : as = bs ∧ fin = fin' := by
  induction h generalizing bs fin' with
  | item hc _ ih =>
    cases h' with
    | item hc' hrest =>
      cases hc.unique hc'
      obtain ⟨rfl, rfl⟩ := ih hrest
      exact ⟨rfl, rfl⟩
    | ended hc' | panic hc' => cases hc.unique hc'
  | ended hc =>
    cases h' with
    | item hc' _ => cases hc.unique hc'
    | ended hc' => exact ⟨rfl, rfl⟩
    | panic hc' => cases hc.unique hc'
  | panic hc =>
    cases h' with
    | item hc' _ | ended hc' => cases hc.unique hc'
    | panic hc' => exact ⟨rfl, rfl⟩

end

/-! ## Computations on fuel -/

/-- What a computation on fuel comes to. -/
inductive Progress (α : Type)
  | done (a : α)
  | panic
  /-- The fuel has run out. -/
  | spin
deriving DecidableEq

namespace Progress
variable {α β : Type} {x : Nat → Progress α} {p : Progress α} {f : Nat → α → Progress β}

/-- Go on with the result. -/
def bind (x : Progress α) (f : α → Progress β) : Progress β :=
  match x with
  | .done a => f a
  | .panic => .panic
  | .spin => .spin

@[simp] theorem done_bind (a : α) (f : α → Progress β) : (done a).bind f = f a := rfl

theorem bind_eq_done {x : Progress α} {f : α → Progress β} {b : β} :
    x.bind f = .done b ↔ ∃ a, x = .done a ∧ f a = .done b := by
  cases x <;> simp [bind]

/-- Enough fuel gives `p`. -/
def Settles (x : Nat → Progress α) (p : Progress α) : Prop := ∃ N, ∀ fuel, N ≤ fuel → x fuel = p

/-- **More fuel changes nothing** once the computation has ended. -/
def Rising (x : Nat → Progress α) : Prop :=
  ∀ fuel fuel', fuel ≤ fuel' → x fuel ≠ .spin → x fuel' = x fuel

theorem Settles.unique {q : Progress α} (h : Settles x p) (h' : Settles x q) : p = q := by
  obtain ⟨N, hN⟩ := h
  obtain ⟨M, hM⟩ := h'
  rw [← hN (max N M) (Nat.le_max_left _ _), hM (max N M) (Nat.le_max_right _ _)]

theorem Settles.bind {a : α} {q : Progress β} (hx : Settles x (.done a)) (hf : Settles (f · a) q) :
    Settles (fun fuel => (x fuel).bind (f fuel)) q := by
  obtain ⟨N, hN⟩ := hx
  obtain ⟨M, hM⟩ := hf
  refine ⟨max N M, fun fuel hfuel => ?_⟩
  show (x fuel).bind (f fuel) = q
  rw [hN fuel (by omega), done_bind]
  exact hM fuel (by omega)

theorem Settles.const (p : Progress α) : Settles (fun _ => p) p := ⟨0, fun _ _ => rfl⟩

theorem settles_const_iff {q : Progress α} : Settles (fun _ => p) q ↔ p = q :=
  ⟨(Settles.const p).unique, fun h => h ▸ .const p⟩

theorem settles_succ_iff {y : Nat → Progress α} {N : Nat}
    (h : ∀ fuel, N ≤ fuel → x (fuel + 1) = y fuel) : Settles x p ↔ Settles y p := by
  constructor
  · rintro ⟨M, hM⟩
    refine ⟨max N M, fun fuel hfuel => ?_⟩
    rw [← h fuel (by omega)]
    exact hM (fuel + 1) (by omega)
  · rintro ⟨M, hM⟩
    refine ⟨max N M + 1, ?_⟩
    rintro (_ | fuel) hfuel
    · omega
    · rw [h fuel (by omega)]
      exact hM fuel (by omega)

theorem Rising.settles {fuel : Nat} (hx : Rising x) (h : x fuel = p)
    (hne : p ≠ .spin) : Settles x p :=
  ⟨fuel, fun fuel' hle => (hx fuel fuel' hle (h ▸ hne)).trans h⟩

theorem Rising.const (p : Progress α) : Rising fun _ => p := fun _ _ _ _ => rfl

theorem bind_stable {x x' : Progress α} {f f' : α → Progress β} (hx : x ≠ .spin → x' = x)
    (hf : ∀ a, f a ≠ .spin → f' a = f a) (hne : x.bind f ≠ .spin) : x'.bind f' = x.bind f := by
  rcases x with a | _ | _
  · rw [hx (by simp)]
    exact hf a hne
  · rw [hx (by simp)]
    rfl
  · exact absurd rfl hne

theorem Rising.bind (hx : Rising x)
    (hf : ∀ a, Rising (f · a)) : Rising fun fuel => (x fuel).bind (f fuel) :=
  fun fuel fuel' hle => bind_stable (hx fuel fuel' hle) fun a => hf a fuel fuel' hle

/-- **A sequence of two computations ends exactly if both do.** -/
theorem settles_bind_iff {b : β} (hx : Rising x) :
    Settles (fun fuel => (x fuel).bind (f fuel)) (.done b) ↔
      ∃ a, Settles x (.done a) ∧ Settles (f · a) (.done b) := by
  constructor
  · rintro ⟨N, hN⟩
    obtain ⟨a, ha, -⟩ := bind_eq_done.mp (hN N (Nat.le_refl N))
    obtain ⟨M, hM⟩ := hx.settles ha (by simp)
    refine ⟨a, ⟨M, hM⟩, max N M, fun fuel hfuel => ?_⟩
    have hb : (x fuel).bind (f fuel) = .done b := hN fuel (by omega)
    rw [hM fuel (by omega), done_bind] at hb
    exact hb
  · rintro ⟨a, ha, hb⟩
    exact ha.bind hb

end Progress

/-! ## Loops over an iteration -/

section
variable {S α A : Type} (next : Nat → S → Next S α) (step : A → α → A)

/-- A loop over the items: each of them goes into the accumulator. -/
def foldItems : Nat → S → A → Progress A
  | 0, _, _ => .spin
  | fuel + 1, s, acc =>
      match next (fuel + 1) s with
      | .item a s => foldItems fuel s (step acc a)
      | .ended _ => .done acc
      | .panic => .panic
      | .spin => .spin

/-- More fuel changes nothing once a call has ended. -/
def Next.Rising : Prop :=
  ∀ fuel fuel' s, fuel ≤ fuel' → next fuel s ≠ .spin → next fuel' s = next fuel s

variable {next step} {s : S} {items : List α} {acc : A}

theorem Next.Rising.comes {fuel : Nat} {out : Next S α} (hr : Next.Rising next)
    (h : next fuel s = out) (hne : out ≠ .spin) : Comes next s out :=
  ⟨fuel, fun fuel' hle => (hr fuel fuel' s hle (h ▸ hne)).trans h⟩

theorem rising_foldItems (hr : Next.Rising next) (s : S) (acc : A) :
    Progress.Rising (foldItems next step · s acc) := by
  intro fuel
  induction fuel generalizing s acc with
  | zero => exact fun _ _ hne => absurd rfl hne
  | succ fuel ih =>
    rintro (_ | fuel') hle hne
    · omega
    · unfold Mcap.foldItems at hne ⊢
      rcases h : next (fuel + 1) s with ⟨a, s'⟩ | s' | _ | _
      case spin => simp only [h, ne_eq, not_true_eq_false] at hne
      all_goals
        have h' := (hr (fuel + 1) (fuel' + 1) s hle (by rw [h]; simp)).trans h
        simp only [h, h'] at hne ⊢
      exact ih s' (step acc a) fuel' (by omega) hne

/-- **A loop over an iteration that ends.** -/
theorem foldItems_of_drains (h : Drains next s items .finished) :
    Progress.Settles (foldItems next step · s acc) (.done (items.foldl step acc)) := by
  generalize hfin : Ending.finished = fin at h
  induction h generalizing acc with
  | @item s s' a as fin hc _ ih =>
    obtain ⟨N, hN⟩ := hc
    obtain ⟨M, hM⟩ : Progress.Settles (foldItems next step · s' (step acc a)) _ := ih hfin
    refine ⟨max N M + 1, ?_⟩
    rintro (_ | fuel) hfuel
    · omega
    · show foldItems next step (fuel + 1) s acc = _
      rw [foldItems, hN (fuel + 1) (by omega)]
      exact hM fuel (by omega)
  | @ended s s' hc =>
    obtain ⟨N, hN⟩ := hc
    refine ⟨N + 1, ?_⟩
    rintro (_ | fuel) hfuel
    · omega
    · show foldItems next step (fuel + 1) s acc = _
      rw [foldItems, hN (fuel + 1) (by omega)]
      rfl
  | panic => cases hfin

/-- **A loop that ends has come to the end of the iteration.** -/
theorem drains_of_foldItems {fuel : Nat} {b : A} (hr : Next.Rising next)
    (h : foldItems next step fuel s acc = .done b) :
    ∃ items, Drains next s items .finished ∧ b = items.foldl step acc := by
  induction fuel generalizing s acc with
  | zero => cases h
  | succ fuel ih =>
    rw [foldItems] at h
    rcases hnext : next (fuel + 1) s with ⟨a, s'⟩ | s' | _ | _ <;> simp only [hnext] at h
    case item =>
      obtain ⟨items, hdrains, hb⟩ := ih h
      exact ⟨a :: items, .item (hr.comes hnext (by simp)) hdrains, hb⟩
    case ended =>
      cases h
      exact ⟨[], .ended (hr.comes hnext (by simp)), rfl⟩
    all_goals cases h

end
end Mcap
