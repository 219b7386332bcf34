import Mathlib.Data.List.Basic
import Mathlib.Tactic.Ring

/-! # Little-endian integers and cursor readers

A library of binary codecs over byte lists.  `le w n` writes the low `w` bytes
of `n`, least significant first, and `ofLe` reads them back.  A reader is a
function on a `Cursor`, which holds the bytes not read yet and the position of
the first of them, and may fail.

`Reads p enc a` is the round trip of one field: on any input that starts with
`enc`, the reader `p` returns `a` and consumes exactly `enc`.  It composes
(`Reads.bind`, `Reads.fold`), so the round trip of a record is read off the
round trips of its fields.
-/
namespace Mcap

/-- A byte string. -/
abbrev Bytes := List UInt8

/-! ## Little-endian integers -/

/-- The low `w` bytes of `n`, least significant first. -/
def le : Nat → Nat → Bytes
  | 0, _ => []
  | w + 1, n => UInt8.ofNat n :: le w (n / 256)

/-- The number a little-endian byte string stands for. -/
def ofLe : Bytes → Nat
  | [] => 0
  | b :: bs => b.toNat + 256 * ofLe bs

@[simp] theorem length_le (w n : Nat) : (le w n).length = w := by
  induction w generalizing n with
  | zero => rfl
  | succ w ih => simp [le, ih]

theorem ofLe_lt (bs : Bytes) : ofLe bs < 256 ^ bs.length := by
  induction bs with
  | nil => simp [ofLe]
  | cons b bs ih =>
    have hb : b.toNat < 256 := b.toNat_lt
    rw [ofLe, List.length_cons, pow_succ]
    omega

theorem ofLe_le (w n : Nat) : ofLe (le w n) = n % 256 ^ w := by
  induction w generalizing n with
  | zero => simp [le, ofLe, Nat.mod_one]
  | succ w ih =>
    have hb : (UInt8.ofNat n).toNat = n % 256 := UInt8.toNat_ofNat'
    rw [le, ofLe, ih, hb, pow_succ, Nat.mul_comm (256 ^ w) 256, Nat.mod_mul]

theorem ofLe_le_of_lt {w n : Nat} (h : n < 256 ^ w) : ofLe (le w n) = n := by
  rw [ofLe_le, Nat.mod_eq_of_lt h]

/-- Every byte string of length `w` is the encoding of the number it stands
for. -/
theorem le_ofLe (bs : Bytes) : le bs.length (ofLe bs) = bs := by
  induction bs with
  | nil => rfl
  | cons b bs ih =>
    have hb : b.toNat < 256 := b.toNat_lt
    have hdiv : (b.toNat + 256 * ofLe bs) / 256 = ofLe bs := by omega
    have hhead : UInt8.ofNat (b.toNat + 256 * ofLe bs) = b := by
      apply UInt8.toNat_inj.mp
      rw [UInt8.toNat_ofNat']
      omega
    rw [List.length_cons, ofLe, le, hdiv, ih, hhead]

theorem le_mod (w n : Nat) : le w (n % 256 ^ w) = le w n := by
  have h := le_ofLe (le w n)
  rwa [length_le, ofLe_le] at h

/-! ## Cursor readers -/

/-- A position in a byte string: the bytes from it on, and how many precede it. -/
structure Cursor where
  rest : Bytes
  pos : Nat
deriving DecidableEq

/-- The cursor at the start of a byte string. -/
def Cursor.new (bs : Bytes) : Cursor := ⟨bs, 0⟩

/-- A reader: it moves a cursor forward and returns a value, or fails. -/
abbrev Read (ε α : Type) := StateT Cursor (Except ε) α

theorem bind_eq_ok {ε α β : Type} {x : Except ε α} {f : α → Except ε β} {b : β}
    (h : x.bind f = .ok b) : ∃ a, x = .ok a ∧ f a = .ok b := by
  cases x with
  | error e => cases h
  | ok a => exact ⟨a, rfl, h⟩

theorem run_bind_eq_ok {σ ε α β : Type} {p : StateT σ (Except ε) α} {f : α → StateT σ (Except ε) β}
    {s s' : σ} {b : β} (h : (p >>= f) s = .ok (b, s')) :
    ∃ a s₁, p s = .ok (a, s₁) ∧ f a s₁ = .ok (b, s') := by
  obtain ⟨⟨a, s₁⟩, hp, h⟩ := bind_eq_ok h
  exact ⟨a, s₁, hp, h⟩

section Readers
variable {ε α β : Type} {p : Read ε α} {f : α → Read ε β} {n : Nat}

/-- Read exactly `n` bytes; a shorter input fails with `eof`. -/
def readExact (eof : ε) (n : Nat) : Read ε Bytes := fun c =>
  if c.rest.length < n then .error eof
  else .ok (c.rest.take n, ⟨c.rest.drop n, c.pos + n⟩)

/-- Read a little-endian integer of `w` bytes. -/
def readLe (eof : ε) (w : Nat) : Read ε Nat := ofLe <$> readExact eof w

/-- Repeat `step` while the position is below `stop`, threading an accumulator.
Each step must move the cursor; `fuel` bounds the number of steps, and the
length of the input is always enough. -/
def readFold (stop : Nat) (step : β → Read ε β) : Nat → β → Read ε β
  | 0, b => pure b
  | fuel + 1, b => fun c =>
      if c.pos < stop then (step b >>= readFold stop step fuel) c else .ok (b, c)

/-- The round trip of a field: on an input that starts with `enc`, the reader
returns `a` and consumes exactly `enc`. -/
def Reads (p : Read ε α) (enc : Bytes) (a : α) : Prop :=
  ∀ rest pos, p ⟨enc ++ rest, pos⟩ = .ok (a, ⟨rest, pos + enc.length⟩)

theorem Reads.pure (a : α) : Reads (pure a : Read ε α) [] a := fun _ _ => rfl

theorem Reads.bind {e₁ e₂ : Bytes} {a : α} {b : β} (hp : Reads p e₁ a)
    (hf : Reads (f a) e₂ b) : Reads (p >>= f) (e₁ ++ e₂) b := by
  intro rest pos
  have h : (p >>= f) ⟨e₁ ++ e₂ ++ rest, pos⟩ = f a ⟨e₂ ++ rest, pos + e₁.length⟩ := by
    show (do let x ← p ⟨e₁ ++ e₂ ++ rest, pos⟩; f x.1 x.2) = _
    rw [List.append_assoc, hp]
    rfl
  rw [h, hf, List.length_append, Nat.add_assoc]

theorem Reads.map {e : Bytes} {a : α} (f : α → β) (hp : Reads p e a) :
    Reads (f <$> p) e (f a) := by
  intro rest pos
  show (do let x ← p ⟨e ++ rest, pos⟩; Except.ok (f x.1, x.2)) = _
  rw [hp]
  rfl

theorem Reads.bind_pure {e : Bytes} {a : α} (f : α → β) (hp : Reads p e a) :
    Reads (p >>= fun x => Pure.pure (f x)) e (f a) := by
  have h := hp.bind (f := fun x => Pure.pure (f x)) (Reads.pure (f a))
  rwa [List.append_nil] at h

theorem Reads.exact (eof : ε) (bs : Bytes) : Reads (readExact eof bs.length) bs bs := by
  intro rest pos
  simp [readExact]

theorem Reads.le (eof : ε) {w : Nat} (h : n < 256 ^ w) : Reads (readLe eof w) (le w n) n := by
  have h1 := (Reads.exact eof (Mcap.le w n)).map ofLe
  rwa [length_le, ofLe_le_of_lt h] at h1

/-- **Round trip of a byte-counted collection.**  If each entry reads back, the
loop that stops at the end of the collection reads all of them, in order. -/
theorem Reads.fold {γ : Type} {stop : Nat} {step : β → Read ε β} {enc : γ → Bytes}
    {next : β → γ → β} : ∀ (xs : List γ) (b : β) (fuel : Nat),
    xs.length < fuel →
    (∀ pre x post, xs = pre ++ x :: post → Reads (step (pre.foldl next b)) (enc x)
      (next (pre.foldl next b) x)) →
    (∀ x ∈ xs, enc x ≠ []) →
    ∀ rest pos, pos + (xs.flatMap enc).length = stop →
      readFold stop step fuel b ⟨xs.flatMap enc ++ rest, pos⟩ =
        .ok (xs.foldl next b, ⟨rest, stop⟩)
  | [], b, fuel + 1, _, _, _, rest, pos, hstop => by
      have hpos : pos = stop := by simpa using hstop
      subst hpos
      simp [readFold]
  | x :: xs, b, fuel + 1, hfuel, hstep, hne, rest, pos, hstop => by
      have hx : 0 < (enc x).length := List.length_pos_iff.mpr (hne x List.mem_cons_self)
      rw [List.flatMap_cons, List.length_append] at hstop
      have hlt : pos < stop := by omega
      have hread := hstep [] x xs rfl
      simp only [List.foldl_nil] at hread
      have hrest : readFold stop step fuel (next b x)
          ⟨xs.flatMap enc ++ rest, pos + (enc x).length⟩ =
            .ok (xs.foldl next (next b x), ⟨rest, stop⟩) := by
        refine Reads.fold xs (next b x) fuel (by simpa using hfuel) ?_
          (fun y hy => hne y (List.mem_cons_of_mem _ hy)) rest _ (by omega)
        intro pre y post he
        simpa using hstep (x :: pre) y post (by simp [he])
      show (if pos < stop then _ else _) = _
      rw [if_pos hlt, List.flatMap_cons, List.append_assoc]
      show (do let y ← step b ⟨enc x ++ (xs.flatMap enc ++ rest), pos⟩;
               readFold stop step fuel y.1 y.2) = _
      rw [hread]
      exact hrest

/-- A reader of exactly `n` bytes: it fails on a shorter input and succeeds on any
other. -/
def Takes (p : Read ε α) (n : Nat) : Prop :=
  ∀ c, (c.rest.length < n → ∃ e, p c = .error e) ∧
    (n ≤ c.rest.length → ∃ a, p c = .ok (a, ⟨c.rest.drop n, c.pos + n⟩))

theorem Takes.pure (a : α) : Takes (Pure.pure a : Read ε α) 0 :=
  fun _ => ⟨fun h => absurd h (Nat.not_lt_zero _), fun _ => ⟨a, rfl⟩⟩

theorem Takes.bind {m : Nat} (hp : Takes p n)
    (hf : ∀ a, Takes (f a) m) : Takes (p >>= f) (n + m) := by
  intro c
  have hrun : (p >>= f) c = (p c).bind fun x => f x.1 x.2 := rfl
  rw [hrun]
  by_cases hn : c.rest.length < n
  · obtain ⟨e, he⟩ := (hp c).1 hn
    rw [he]
    exact ⟨fun _ => ⟨e, rfl⟩, fun h => absurd h (by omega)⟩
  · obtain ⟨a, ha⟩ := (hp c).2 (by omega)
    rw [ha]
    obtain ⟨herr, hok⟩ := hf a ⟨c.rest.drop n, c.pos + n⟩
    simp only [List.length_drop, List.drop_drop, Nat.add_assoc] at herr hok
    exact ⟨fun h => herr (by omega), fun h => hok (by omega)⟩

theorem Takes.map (f : α → β) (hp : Takes p n) : Takes (f <$> p) n := by
  intro c
  have hrun : (f <$> p) c = (p c).bind fun x => .ok (f x.1, x.2) := rfl
  rw [hrun]
  obtain ⟨herr, hok⟩ := hp c
  refine ⟨fun h => ?_, fun h => ?_⟩
  · obtain ⟨e, he⟩ := herr h
    exact ⟨e, by rw [he]; rfl⟩
  · obtain ⟨a, ha⟩ := hok h
    exact ⟨f a, by rw [ha]; rfl⟩

theorem Takes.exact (eof : ε) (n : Nat) : Takes (readExact eof n) n := fun c =>
  ⟨fun h => ⟨eof, if_pos h⟩, fun h => ⟨c.rest.take n, if_neg (by omega)⟩⟩

theorem Takes.le (eof : ε) (w : Nat) : Takes (readLe eof w) w := (Takes.exact eof w).map ofLe

/-! ### What a reader gives -/

/-- Where the reader succeeds, `P` holds of what it returns. -/
def Gives (p : Read ε α) (P : α → Prop) : Prop := ∀ c a c', p c = .ok (a, c') → P a

theorem Gives.any (p : Read ε α) : Gives p fun _ => True := fun _ _ _ _ => trivial

theorem Gives.pure {P : α → Prop} {a : α} (h : P a) : Gives (Pure.pure a : Read ε α) P := by
  intro c a' c' hp
  cases hp
  exact h

theorem Gives.throw (e : ε) (P : α → Prop) : Gives (MonadExcept.throw e : Read ε α) P := by
  intro c a c' hp
  cases hp

theorem Gives.bind {P : α → Prop} {Q : β → Prop} (hp : Gives p P)
    (hf : ∀ a, P a → Gives (f a) Q) : Gives (p >>= f) Q := by
  intro c b c' hrun
  obtain ⟨a, c₁, ha, hrun⟩ := run_bind_eq_ok hrun
  exact hf a (hp c a c₁ ha) c₁ b c' hrun

theorem Gives.exact (eof : ε) (n : Nat) : Gives (readExact eof n) fun bs => bs.length = n := by
  intro c bs c' hrun
  unfold readExact at hrun
  split at hrun
  · cases hrun
  · cases hrun
    rw [List.length_take]
    omega

theorem Gives.le (eof : ε) (w : Nat) : Gives (readLe eof w) (· < 256 ^ w) := by
  refine ((Gives.exact eof w).bind (f := fun bs => Pure.pure (ofLe bs)) fun bs hbs => .pure ?_)
  rw [← hbs]
  exact ofLe_lt bs

/-! ### Local readers -/

/-- **A local reader** takes at least `n` bytes where it succeeds, and does not look at those
it leaves: with more of them it does the same. -/
def Local (p : Read ε α) (n : Nat) : Prop :=
  ∀ c a c', p c = .ok (a, c') → c.pos + n ≤ c'.pos ∧
    c'.pos + c'.rest.length = c.pos + c.rest.length ∧
    ∀ more, p ⟨c.rest ++ more, c.pos⟩ = .ok (a, ⟨c'.rest ++ more, c'.pos⟩)

theorem Local.mono {m : Nat} (h : Local p n) (hm : m ≤ n) : Local p m := by
  intro c a c' hp
  obtain ⟨hpos, hlen, hmore⟩ := h c a c' hp
  exact ⟨by omega, hlen, hmore⟩

theorem Local.pure (a : α) : Local (Pure.pure a : Read ε α) 0 := by
  intro c a' c' hp
  cases hp
  exact ⟨Nat.le_refl _, rfl, fun _ => rfl⟩

theorem Local.throw (e : ε) (n : Nat) : Local (MonadExcept.throw e : Read ε α) n := by
  intro c a c' hp
  cases hp

theorem Local.bind {m : Nat} (hp : Local p n)
    (hf : ∀ a, Local (f a) m) : Local (p >>= f) (n + m) := by
  intro c b c'' h
  have hrun : ∀ c, (p >>= f) c = (p c).bind fun x => f x.1 x.2 := fun _ => rfl
  obtain ⟨a, c', hpc, h⟩ := run_bind_eq_ok h
  obtain ⟨hpos, hlen, hmore⟩ := hp c a c' hpc
  obtain ⟨hpos', hlen', hmore'⟩ := hf a c' b c'' h
  refine ⟨by omega, by omega, fun more => ?_⟩
  rw [hrun, hmore more]
  exact hmore' more

theorem Local.map (f : α → β) (hp : Local p n) : Local (f <$> p) n := by
  intro c b c' h
  have hrun : ∀ c, (f <$> p) c = (p c).bind fun x => .ok (f x.1, x.2) := fun _ => rfl
  rw [hrun] at h
  obtain ⟨⟨a, c'⟩, hpc, h⟩ := bind_eq_ok h
  cases h
  obtain ⟨hpos, hlen, hmore⟩ := hp c a _ hpc
  refine ⟨hpos, hlen, fun more => ?_⟩
  rw [hrun, hmore more]
  rfl

theorem Local.exact (eof : ε) (n : Nat) : Local (readExact eof n) n := by
  intro c bs c' h
  unfold readExact at h
  split at h
  · cases h
  · rename_i hle
    cases h
    refine ⟨Nat.le_refl _, ?_, fun more => ?_⟩
    · simp only [List.length_drop]
      omega
    · have hshort : ¬ (c.rest ++ more).length < n := by
        rw [List.length_append]
        omega
      rw [readExact, if_neg hshort, List.take_append_of_le_length (by omega),
        List.drop_append_of_le_length (by omega)]

theorem Local.le (eof : ε) (w : Nat) : Local (readLe eof w) w := (Local.exact eof w).map ofLe

theorem Local.position {f : Nat → Read ε α} (hf : ∀ pos, Local (f pos) n) :
    Local (get >>= fun c => f c.pos) n := by
  intro c a c' h
  have hrun : ∀ c : Cursor, (get >>= fun c => f c.pos : Read ε α) c = f c.pos c := fun _ => rfl
  rw [hrun] at h
  obtain ⟨hpos, hlen, hmore⟩ := hf c.pos c a c' h
  exact ⟨hpos, hlen, hmore⟩

theorem Local.fold {stop : Nat} {step : β → Read ε β} (hstep : ∀ b, Local (step b) 1) {fuel : Nat}
    {b b' : β} {c c' : Cursor} (hfuel : c.rest.length < fuel)
    (h : readFold stop step fuel b c = .ok (b', c')) :
    c.pos ≤ c'.pos ∧ c'.pos + c'.rest.length = c.pos + c.rest.length ∧
      ∀ more fuel', (c.rest ++ more).length < fuel' →
        readFold stop step fuel' b ⟨c.rest ++ more, c.pos⟩ = .ok (b', ⟨c'.rest ++ more, c'.pos⟩) := by
  induction fuel generalizing b c with
  | zero => omega
  | succ fuel ih =>
    unfold readFold at h
    by_cases hstop : c.pos < stop
    · rw [if_pos hstop] at h
      have hrun : ∀ fuel c, (step b >>= readFold stop step fuel) c =
          (step b c).bind fun x => readFold stop step fuel x.1 x.2 := fun _ _ => rfl
      obtain ⟨b₁, c₁, hb, h⟩ := run_bind_eq_ok h
      obtain ⟨hpos, hlen, hmore⟩ := hstep b c b₁ c₁ hb
      obtain ⟨hpos', hlen', hmore'⟩ := ih (by omega) h
      refine ⟨by omega, by omega, fun more fuel' hfuel' => ?_⟩
      obtain _ | fuel' := fuel'
      · omega
      · unfold readFold
        rw [if_pos hstop, hrun, hmore more]
        rw [List.length_append] at hfuel'
        exact hmore' more fuel' (by rw [List.length_append]; omega)
    · rw [if_neg hstop] at h
      cases h
      refine ⟨Nat.le_refl _, rfl, fun more fuel' hfuel' => ?_⟩
      obtain _ | fuel' := fuel'
      · omega
      · unfold readFold
        rw [if_neg hstop]

/-- **A byte-counted collection is local** if the reader of its entries is, and takes bytes. -/
theorem Local.counted {eof : ε} {w : Nat} {step : Nat → β → Read ε β}
    (hstep : ∀ pos b, Local (step pos b) 1) (b : β) :
    Local (do
      let byteLen ← readLe eof w
      let c ← get
      readFold (c.pos + byteLen) (step c.pos) (c.rest.length + 1) b) w := by
  refine Local.bind (m := 0) (.le eof w) fun byteLen c b' c' h => ?_
  have hrun : ∀ c : Cursor, (get >>= fun c => readFold (c.pos + byteLen) (step c.pos)
      (c.rest.length + 1) b : Read ε β) c =
        readFold (c.pos + byteLen) (step c.pos) (c.rest.length + 1) b c := fun _ => rfl
  rw [hrun] at h
  obtain ⟨hpos, hlen, hmore⟩ := Local.fold (hstep c.pos) (Nat.lt_succ_self _) h
  refine ⟨by omega, hlen, fun more => ?_⟩
  rw [hrun]
  exact hmore more _ (Nat.lt_succ_self _)

end Readers
end Mcap
