import Mcap.ByteCodec

/-! # What a reader takes

Where `Reads` says what a reader does on the bytes of a value, `Spells` says of any bytes what the
reader takes of them: they are split into those that it takes and those that it leaves, and the
first spell what it returns.  It composes over the fields of a record (`Spells.bind`) and over the
loop of a byte-counted collection (`Spells.fold`).

That loop stops at the first entry that ends at the announced number of bytes or behind it.  `Stops` says
so of the entries, and `row_iff` compares it with the rule that the number falls on the end of an
entry (`Row`), for entries that say themselves how long they are.
-/
namespace Mcap

section
variable {ε α β : Type}

/-- **What the reader takes spells what it returns.** -/
def Spells (p : Read ε α) (P : α → Bytes → Prop) : Prop :=
  ∀ c a c', p c = .ok (a, c') →
    ∃ enc, c.rest = enc ++ c'.rest ∧ c'.pos = c.pos + enc.length ∧ P a enc

theorem Spells.pure (a : α) : Spells (Pure.pure a : Read ε α) fun b enc => b = a ∧ enc = [] := by
  intro c b c' h
  cases h
  exact ⟨[], rfl, rfl, rfl, rfl⟩

theorem Spells.throw (e : ε) (P : α → Bytes → Prop) :
    Spells (MonadExcept.throw e : Read ε α) P := by
  intro c a c' h
  cases h

theorem Spells.mono {p : Read ε α} {P Q : α → Bytes → Prop} (h : Spells p P)
    (hPQ : ∀ a enc, P a enc → Q a enc) : Spells p Q := by
  intro c a c' hp
  obtain ⟨enc, hrest, hpos, ha⟩ := h c a c' hp
  exact ⟨enc, hrest, hpos, hPQ a enc ha⟩

theorem Spells.bind {p : Read ε α} {f : α → Read ε β} {P : α → Bytes → Prop}
    {Q : β → Bytes → Prop} (hp : Spells p P)
    (hf : ∀ a e₁, P a e₁ → Spells (f a) fun b e₂ => Q b (e₁ ++ e₂)) : Spells (p >>= f) Q := by
  intro c b c'' h
  obtain ⟨a, c', hpc, h⟩ := run_bind_eq_ok h
  obtain ⟨e₁, hrest₁, hpos₁, ha⟩ := hp c a c' hpc
  obtain ⟨e₂, hrest₂, hpos₂, hb⟩ := hf a e₁ ha c' b c'' h
  refine ⟨e₁ ++ e₂, ?_, ?_, hb⟩
  · rw [hrest₁, hrest₂, List.append_assoc]
  · rw [hpos₂, hpos₁, List.length_append, Nat.add_assoc]

theorem Spells.exact (eof : ε) (n : Nat) :
    Spells (readExact eof n) fun bs enc => enc = bs ∧ bs.length = n := by
  intro c bs c' h
  unfold readExact at h
  split at h
  · cases h
  · cases h
    have hlen : (c.rest.take n).length = n := by
      rw [List.length_take]
      omega
    exact ⟨c.rest.take n, (List.take_append_drop n c.rest).symm, by rw [hlen], rfl, hlen⟩

theorem Spells.le (eof : ε) (w : Nat) :
    Spells (readLe eof w) fun n enc => enc = Mcap.le w n ∧ n < 256 ^ w := by
  refine (Spells.exact eof w).bind (f := fun bs => Pure.pure (ofLe bs)) fun bs enc henc c n c' h => ?_
  obtain ⟨rfl, hlen⟩ := henc
  cases h
  refine ⟨[], rfl, rfl, ?_, ?_⟩
  · rw [List.append_nil, ← hlen, le_ofLe]
  · rw [← hlen]
    exact ofLe_lt enc

theorem Spells.position {f : Cursor → Read ε α} {P : α → Bytes → Prop}
    (hf : ∀ c, Spells (f c) P) : Spells (get >>= f) P := by
  intro c a c' h
  exact hf c c a c' h

end

/-! ## The loop of a byte-counted collection -/

/-- **The loop stops behind these entries**, with `n` bytes announced: each of them starts in front of
the end, and the last does not end in front of it. -/
def Stops : Nat → List Bytes → Prop
  | n, [] => n = 0
  | n, e :: es => 0 < n ∧ Stops (n - e.length) es

/-- **What the loop takes** is a row of entries.  `I` is kept by each of them: it says what the
accumulator holds when these entries have been read. -/
theorem Spells.fold {ε β : Type} {stop : Nat} {step : β → Read ε β} {I : β → List Bytes → Prop}
    (hstep : ∀ b es, I b es → Spells (step b) fun b' enc => enc ≠ [] ∧ I b' (es ++ [enc]))
    {fuel : Nat} {b b' : β} {es : List Bytes} {c c' : Cursor} (hfuel : c.rest.length < fuel)
    (hI : I b es) (h : readFold stop step fuel b c = .ok (b', c')) :
    ∃ es', I b' (es ++ es') ∧ c.rest = es'.flatten ++ c'.rest ∧
      c'.pos = c.pos + es'.flatten.length ∧ Stops (stop - c.pos) es' := by
  induction fuel generalizing b es c with
  | zero => omega
  | succ fuel ih =>
    unfold readFold at h
    by_cases hstop : c.pos < stop
    · rw [if_pos hstop] at h
      obtain ⟨b₁, c₁, hb, h⟩ := run_bind_eq_ok h
      obtain ⟨enc, hrest, hpos, hne, hI₁⟩ := hstep b es hI c b₁ c₁ hb
      have hlen : 0 < enc.length := List.length_pos_iff.mpr hne
      have hshort : c₁.rest.length < fuel := by
        rw [hrest, List.length_append] at hfuel
        omega
      obtain ⟨es', hI', hrest', hpos', hstops⟩ := ih hshort hI₁ h
      refine ⟨enc :: es', ?_, ?_, ?_, by omega, ?_⟩
      · rwa [List.append_assoc] at hI'
      · rw [hrest, hrest', List.flatten_cons, List.append_assoc]
      · rw [hpos', hpos, List.flatten_cons, List.length_append, Nat.add_assoc]
      · rwa [Nat.sub_sub, ← hpos]
    · rw [if_neg hstop] at h
      cases h
      exact ⟨[], by rwa [List.append_nil], rfl, rfl, Nat.sub_eq_zero_of_le (Nat.le_of_not_lt hstop)⟩

/-- **What is taken of a byte-counted collection**: the announced length, and the entries behind which
the loop stops. -/
theorem Spells.counted {ε β : Type} {eof : ε} {step : Nat → β → Read ε β}
    {I : β → List Bytes → Prop} {b : β} (hI : I b [])
    (hstep : ∀ pos b es, I b es → Spells (step pos b) fun b' enc => enc ≠ [] ∧ I b' (es ++ [enc])) :
    Spells (do
      let byteLen ← readLe eof 4
      let c ← get
      readFold (c.pos + byteLen) (step c.pos) (c.rest.length + 1) b) fun b' enc =>
        ∃ n read, n < 2 ^ 32 ∧ I b' read ∧ Stops n read ∧ enc = Mcap.le 4 n ++ read.flatten := by
  refine (Spells.le eof 4).bind fun n enc henc c b' c' h => ?_
  obtain ⟨rfl, hn⟩ := henc
  obtain ⟨read, hread, hrest, hpos, hstops⟩ :=
    Spells.fold (hstep c.pos) (Nat.lt_succ_self c.rest.length) hI h
  rw [Nat.add_sub_cancel_left] at hstops
  exact ⟨read.flatten, hrest, hpos, n, read, hn, hread, hstops, rfl⟩

/-! ## Fields that say how long they are -/

/-- A field: so many bytes, or a string behind its length. -/
inductive Field
  | fixed (width : Nat)
  | string
deriving DecidableEq

/-- How many bytes the field takes that starts here. -/
def Field.size : Field → Bytes → Nat
  | .fixed width, _ => width
  | .string, bytes => 4 + ofLe (bytes.take 4)

/-- How many bytes the fields take that start here. -/
def rowSize : List Field → Bytes → Nat
  | [], _ => 0
  | f :: fs, bytes => f.size bytes + rowSize fs (bytes.drop (f.size bytes))

/-- These bytes are what the fields take, in front of any others. -/
def Spans (fs : List Field) (enc : Bytes) : Prop :=
  ∀ rest, rowSize fs (enc ++ rest) = enc.length

theorem spans_nil : Spans [] [] := fun _ => rfl

theorem spans_cons {f : Field} {fs : List Field} {e enc : Bytes}
    (hf : ∀ rest, f.size (e ++ rest) = e.length) (h : Spans fs enc) :
    Spans (f :: fs) (e ++ enc) := by
  intro rest
  rw [rowSize, List.append_assoc, hf, List.drop_left, h, List.length_append]

theorem size_string {n : Nat} {bytes : Bytes} (hn : n < 2 ^ 32) (hlen : bytes.length = n)
    (rest : Bytes) :
    Field.string.size (le 4 n ++ bytes ++ rest) = (le 4 n ++ bytes).length := by
  have htake : (le 4 n ++ bytes ++ rest).take 4 = le 4 n := by
    rw [List.append_assoc]
    exact List.take_left' (length_le 4 n)
  rw [Field.size, htake, ofLe_le_of_lt (show n < 256 ^ 4 from hn), List.length_append, length_le, hlen]

/-- **The number of bytes ends an entry**: it is the size of the first `k` entries that stand here, for
some `k`. -/
inductive Row (entry : List Field) : Bytes → Nat → Prop
  | nil (bytes : Bytes) : Row entry bytes 0
  | cons {bytes : Bytes} {n : Nat} : Row entry (bytes.drop (rowSize entry bytes)) n →
      Row entry bytes (rowSize entry bytes + n)

/-- **The loop takes the announced number of bytes** if and only if this number ends an entry. -/
theorem row_iff {entry : List Field} {es : List Bytes} (hes : ∀ e ∈ es, Spans entry e) {n : Nat}
    (h : Stops n es) (rest : Bytes) : Row entry (es.flatten ++ rest) n ↔ es.flatten.length = n := by
  induction es generalizing n with
  | nil =>
    obtain rfl : n = 0 := h
    exact iff_of_true (.nil _) rfl
  | cons e es ih =>
    obtain ⟨hpos, hstops⟩ := h
    have hsize : rowSize entry ((e :: es).flatten ++ rest) = e.length := by
      rw [List.flatten_cons, List.append_assoc]
      exact hes e List.mem_cons_self _
    have hdrop : ((e :: es).flatten ++ rest).drop e.length = es.flatten ++ rest := by
      rw [List.flatten_cons, List.append_assoc, List.drop_left]
    have htail := ih (fun e he => hes e (List.mem_cons_of_mem _ he)) hstops
    rw [List.flatten_cons, List.length_append, ← List.flatten_cons]
    constructor
    · intro hrow
      obtain ⟨m, hm, hn⟩ : ∃ m, Row entry (es.flatten ++ rest) m ∧ n = e.length + m := by
        generalize hbytes : (e :: es).flatten ++ rest = bytes at hrow hsize hdrop
        cases hrow with
        | nil => omega
        | cons hrow => exact ⟨_, by rwa [hsize, hdrop] at hrow, by rw [hsize]⟩
      rw [show n - e.length = m by omega] at htail
      rw [htail.mp hm, hn]
    · intro hlen
      have hrow := htail.mpr (by omega)
      rw [← hdrop, ← hsize] at hrow
      have hcons := Row.cons hrow
      rwa [hsize, show e.length + (n - e.length) = n by omega] at hcons

theorem row_fixed_iff {entry : List Field} {w : Nat} (hsize : ∀ bytes, rowSize entry bytes = w)
    (bytes : Bytes) (n : Nat) : Row entry bytes n ↔ w ∣ n := by
  constructor
  · intro h
    induction h with
    | nil => exact Nat.dvd_zero w
    | cons _ ih =>
      rw [hsize]
      exact Nat.dvd_add (Nat.dvd_refl w) ih
  · rintro ⟨k, rfl⟩
    induction k generalizing bytes with
    | zero => exact .nil bytes
    | succ k ih =>
      have h := Row.cons (ih (bytes.drop (rowSize entry bytes)))
      rwa [hsize, Nat.add_comm, ← Nat.mul_succ] at h

end Mcap
