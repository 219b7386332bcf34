import Mathlib.Logic.Basic

/-! # Fallible computations that may panic

`Res ε α` is what a call can come to: a value, an error value, or a panic (a
failed assertion, an index out of range, an arithmetic overflow).  `Exec σ ε α`
is a method that also updates a state `σ`; the state survives an error, as the
object of a `&mut self` method does.

The `bind` lemmas peel one step off a computation: `Exec.bind_eq_ok` splits a
successful run, `Exec.bind_ok` and its companions push a run forward.  `Ensures` is a
rule of pre- and postconditions over all three ways a run can end, and `Preserves` is an
invariant; both are proved along the steps of a method.
-/
namespace Mcap

/-- The result of a call. -/
inductive Res (ε α : Type) where
  | ok (a : α)
  | err (e : ε)
  | panic
deriving DecidableEq

namespace Res
variable {ε α β : Type} {x : Res ε α} {f : α → Res ε β}

/-- There is a value. -/
def isOk : Res ε α → Bool
  | ok _ => true
  | _ => false

/-- Run `f` on the value, passing errors and panics on. -/
def bind (x : Res ε α) (f : α → Res ε β) : Res ε β :=
  match x with
  | ok a => f a
  | err e => err e
  | panic => panic

instance : Monad (Res ε) where
  pure := ok
  bind := bind

@[simp] theorem pure_eq (a : α) : (pure a : Res ε α) = ok a := rfl
@[simp] theorem ok_bind (a : α) (f : α → Res ε β) : (ok a >>= f) = f a := rfl
@[simp] theorem err_bind (e : ε) (f : α → Res ε β) : (err e >>= f) = err e := rfl
@[simp] theorem panic_bind (f : α → Res ε β) : (panic >>= f) = panic := rfl

theorem bind_eq_ok {b : β} :
    (x >>= f) = ok b ↔ ∃ a, x = ok a ∧ f a = ok b := by
  cases x <;> simp

theorem exists_of_isOk {σ : Type} {x : Res ε α × σ} (h : x.1.isOk = true) : ∃ a s, x = (ok a, s) := by
  obtain ⟨a | e | _, s⟩ := x
  · exact ⟨a, s, rfl⟩
  all_goals cases h

theorem exists_ok_bind {a : α} (hx : x = ok a) (hf : ∃ b, f a = ok b) : ∃ b, (x >>= f) = ok b := by
  rw [hx]
  exact hf

/-- Nothing but an error that `p` holds of: no other error, and no panic. -/
def Raises (p : ε → Prop) : Res ε α → Prop
  | ok _ => True
  | err e => p e
  | panic => False

theorem Raises.bind {p : ε → Prop} (hx : x.Raises p)
    (hf : ∀ a, x = ok a → (f a).Raises p) : (x >>= f).Raises p := by
  cases x with
  | ok a => exact hf a rfl
  | err e => exact hx
  | panic => exact hx

theorem Raises.ne_panic {p : ε → Prop} (h : x.Raises p) : x ≠ panic := by
  rintro rfl
  exact h

end Res

/-- A method on a state `σ`. -/
def Exec (σ ε α : Type) := σ → Res ε α × σ

namespace Exec
variable {σ ε α β : Type} {x : Exec σ ε α} {f : α → Exec σ ε β}

/-- Return a value and leave the state alone. -/
def pure (a : α) : Exec σ ε α := fun s => (.ok a, s)

/-- Sequencing.  An error or a panic stops the run in the state it left. -/
def bind (x : Exec σ ε α) (f : α → Exec σ ε β) : Exec σ ε β := fun s =>
  match x s with
  | (.ok a, s') => f a s'
  | (.err e, s') => (.err e, s')
  | (.panic, s') => (.panic, s')

instance : Monad (Exec σ ε) where
  pure := pure
  bind := bind

/-- Return an error. -/
def fail (e : ε) : Exec σ ε α := fun s => (.err e, s)

/-- A failed assertion. -/
def abort : Exec σ ε α := fun s => (.panic, s)

/-- The current state. -/
def get : Exec σ ε σ := fun s => (.ok s, s)

/-- Update the state. -/
def modify (f : σ → σ) : Exec σ ε Unit := fun s => (.ok (), f s)

/-- A failed assertion unless `b`. -/
def assert (b : Bool) : Exec σ ε Unit := if b then pure () else abort

@[simp] theorem pure_run (a : α) (s : σ) : (Pure.pure a : Exec σ ε α) s = (.ok a, s) := rfl
@[simp] theorem fail_run (e : ε) (s : σ) : (fail e : Exec σ ε α) s = (.err e, s) := rfl
@[simp] theorem abort_run (s : σ) : (abort : Exec σ ε α) s = (.panic, s) := rfl
@[simp] theorem get_run (s : σ) : (get : Exec σ ε σ) s = (.ok s, s) := rfl
@[simp] theorem modify_run (f : σ → σ) (s : σ) :
    (modify f : Exec σ ε Unit) s = (.ok (), f s) := rfl
@[simp] theorem assert_true_run (s : σ) : (assert true : Exec σ ε Unit) s = (.ok (), s) := rfl
@[simp] theorem assert_false_run (s : σ) : (assert false : Exec σ ε Unit) s = (.panic, s) := rfl

theorem bind_run (x : Exec σ ε α) (f : α → Exec σ ε β) (s : σ) :
    (x >>= f) s = match x s with
      | (.ok a, s') => f a s'
      | (.err e, s') => (.err e, s')
      | (.panic, s') => (.panic, s') := rfl

theorem bind_ok {s s' : σ} {a : α} (h : x s = (.ok a, s')) :
    (x >>= f) s = f a s' := by
  rw [bind_run, h]

theorem bind_err {s s' : σ} {e : ε} (h : x s = (.err e, s')) :
    (x >>= f) s = (.err e, s') := by
  rw [bind_run, h]

theorem bind_panic {s s' : σ} (h : x s = (.panic, s')) :
    (x >>= f) s = (.panic, s') := by
  rw [bind_run, h]

/-- A run of `x >>= f` that succeeds is a successful run of `x` followed by one
of `f`. -/
theorem bind_eq_ok {s s' : σ} {b : β} :
    (x >>= f) s = (.ok b, s') ↔ ∃ a t, x s = (.ok a, t) ∧ f a t = (.ok b, s') := by
  rw [bind_run]
  rcases h : x s with ⟨a | e | _, t⟩
  · simp only [Prod.mk.injEq, Res.ok.injEq]
    constructor
    · exact fun hf => ⟨a, t, ⟨rfl, rfl⟩, hf⟩
    · rintro ⟨_, _, ⟨rfl, rfl⟩, hf⟩
      exact hf
  · simp
  · simp

/-! ## Pre- and postconditions -/

/-- Run where `P` holds, `x` ends with a result and in a state where `Q` holds. -/
def Ensures (P : σ → Prop) (x : Exec σ ε α) (Q : Res ε α → σ → Prop) : Prop :=
  ∀ s, P s → Q (x s).1 (x s).2

/-- `x` leads from states where `I` holds to such states, however it ends. -/
def Preserves (I : σ → Prop) (x : Exec σ ε α) : Prop := ∀ s, I s → I (x s).2

namespace Ensures
variable {P : σ → Prop} {Q : Res ε α → σ → Prop}

theorem bind {x : Exec σ ε α} {f : α → Exec σ ε β} {M : Res ε α → σ → Prop}
    {Q : Res ε β → σ → Prop} (hx : Ensures P x M) (hf : ∀ a, Ensures (M (.ok a)) (f a) Q)
    (herr : ∀ e s, M (.err e) s → Q (.err e) s) (hpanic : ∀ s, M .panic s → Q .panic s) :
    Ensures P (x >>= f) Q := by
  intro s hs
  have hM := hx s hs
  rw [bind_run]
  rcases h : x s with ⟨a | e | _, t⟩ <;> rw [h] at hM
  · exact hf a t hM
  · exact herr e t hM
  · exact hpanic t hM

theorem get_bind {f : σ → Exec σ ε α} (h : ∀ s, P s → Q (f s s).1 (f s s).2) :
    Ensures P (get >>= f) Q := h

theorem mono {x : Exec σ ε α} {P' : σ → Prop} {Q' : Res ε α → σ → Prop} (h : Ensures P x Q)
    (hP : ∀ s, P' s → P s) (hQ : ∀ r s, Q r s → Q' r s) : Ensures P' x Q' :=
  fun s hs => hQ _ _ (h s (hP s hs))

end Ensures

namespace Preserves
variable {I : σ → Prop}

theorem pure (a : α) : Preserves I (Pure.pure a : Exec σ ε α) := fun _ hs => hs

theorem modify {f : σ → σ} (h : ∀ s, I s → I (f s)) :
    Preserves I (Exec.modify f : Exec σ ε Unit) := h

theorem bind {x : Exec σ ε α} {f : α → Exec σ ε β} (hx : Preserves I x)
    (hf : ∀ a, Preserves I (f a)) : Preserves I (x >>= f) := by
  intro s hs
  have hI := hx s hs
  rw [bind_run]
  rcases h : x s with ⟨a | e | _, t⟩ <;> rw [h] at hI
  · exact hf a t hI
  · exact hI
  · exact hI

end Preserves

end Exec
end Mcap
