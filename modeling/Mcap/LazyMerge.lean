import Mathlib.Data.List.Perm.Basic
import Mathlib.Data.List.Sort
import Mathlib.Data.Prod.Lex

/-! # Lazy merging

A lazy merge hands out the entries of several sources in order of time, and loads
a source only when it has to.  Each source comes with a lower bound for the times
of its entries; the sources wait in the order of their bounds.  An entry that is
ready is handed out unless the first waiting source has a **smaller** bound, and
otherwise some waiting source is loaded: whoever runs the merge chooses which.

`Merge.Delivers` says that every such run ends, and what it hands out.
`Merge.Delivers.rule` is its invariant rule: one obligation for each way to go on.
`Merge.delivers_sorted` is the order of the result by time.  The comparison of the
bound is strict, so among entries of equal time a source that was loaded late can
lose its turn; `Merge.delivers_inOrder` says exactly when it does, for the run that
always loads the first waiting source.
-/
namespace Mcap

/-- Sources with a lower bound each; entries with a time and a key that orders all
of them. -/
structure Merge (S E T K : Type) where
  lo : S → T
  entries : S → List E
  time : E → T
  key : E → K

/-- The entries that are ready, in order, and the sources that wait. -/
structure Pending (S E : Type) where
  ready : List E
  waiting : List S

namespace Merge
variable {S E T K : Type} [LinearOrder T] [LinearOrder K] (M : Merge S E T K)

/-- The first waiting source has to be loaded before `e` is handed out. -/
def LoadFirst (waiting : List S) (e : E) : Prop := ∃ c, waiting.head? = some c ∧ M.lo c < M.time e

/-- **Every run ends**, and what it hands out satisfies `P`.  The waiting sources
that may be loaded are those at the positions `may`. -/
inductive Delivers (may : Nat → Prop) : Pending S E → (List E → Prop) → Prop
  | yield {e ready waiting P} : ¬ M.LoadFirst waiting e →
      Delivers may ⟨ready, waiting⟩ (fun out => P (e :: out)) → Delivers may ⟨e :: ready, waiting⟩ P
  | load {ready waiting P} : waiting ≠ [] → (∀ e ∈ ready.head?, M.LoadFirst waiting e) →
      (∀ i c ready', may i → waiting[i]? = some c → ready'.Perm (ready ++ M.entries c) →
        ready'.Pairwise (fun a b => M.key a ≤ M.key b) →
        Delivers may ⟨ready', waiting.eraseIdx i⟩ P) → Delivers may ⟨ready, waiting⟩ P
  | done {P} : P [] → Delivers may ⟨[], []⟩ P

variable {M}

theorem Delivers.mono {may : Nat → Prop} {st : Pending S E} {P Q : List E → Prop}
    (h : M.Delivers may st P) (hPQ : ∀ out, P out → Q out) : M.Delivers may st Q := by
  induction h generalizing Q with
  | yield hf _ ih => exact .yield hf (ih fun out => hPQ _)
  | load hne hf _ ih =>
    exact .load hne hf fun i c ready' hi hc hp hs => ih i c ready' hi hc hp hs hPQ
  | done hP => exact .done (hPQ _ hP)

/-- **The invariant rule.**  `I` is kept by every step, and what is handed out from
the next state is turned into what is handed out from this one. -/
theorem Delivers.rule {may : Nat → Prop} (I : Pending S E → Prop)
    (Q : Pending S E → List E → Prop)
    (hyield : ∀ e ready waiting, I ⟨e :: ready, waiting⟩ → ¬ M.LoadFirst waiting e →
      I ⟨ready, waiting⟩ ∧ ∀ out, Q ⟨ready, waiting⟩ out → Q ⟨e :: ready, waiting⟩ (e :: out))
    (hload : ∀ ready waiting i c ready', I ⟨ready, waiting⟩ →
      (∀ e ∈ ready.head?, M.LoadFirst waiting e) → may i → waiting[i]? = some c →
      ready'.Perm (ready ++ M.entries c) → ready'.Pairwise (fun a b => M.key a ≤ M.key b) →
      I ⟨ready', waiting.eraseIdx i⟩ ∧
        ∀ out, Q ⟨ready', waiting.eraseIdx i⟩ out → Q ⟨ready, waiting⟩ out)
    (hdone : Q ⟨[], []⟩ []) {st : Pending S E} (hI : I st) : M.Delivers may st (Q st) := by
  obtain ⟨ready, waiting⟩ := st
  -- loading a source takes it from the waiting ones, and handing out shortens the others
  induction hn : waiting.length using Nat.strong_induction_on generalizing ready waiting with
  | _ n ihw =>
    have hask : waiting ≠ [] → ∀ ready, I ⟨ready, waiting⟩ →
        (∀ e ∈ ready.head?, M.LoadFirst waiting e) →
        M.Delivers may ⟨ready, waiting⟩ (Q ⟨ready, waiting⟩) := by
      intro hne ready hI hf
      refine .load hne hf fun i c ready' hi hc hp hs => ?_
      obtain ⟨hlt, -⟩ := List.getElem?_eq_some_iff.mp hc
      obtain ⟨hI', hQ⟩ := hload ready waiting i c ready' hI hf hi hc hp hs
      have hlen : (waiting.eraseIdx i).length < n := by
        rw [List.length_eraseIdx_of_lt hlt]
        omega
      exact (ihw _ hlen ready' (waiting.eraseIdx i) hI' rfl).mono hQ
    induction ready with
    | nil =>
      cases waiting with
      | nil => exact .done hdone
      | cons c waiting => exact hask (by simp) [] hI (by simp)
    | cons e ready ih =>
      by_cases hf : M.LoadFirst waiting e
      · have hne : waiting ≠ [] := by
          rintro rfl
          obtain ⟨c, hc, -⟩ := hf
          cases hc
        exact hask hne _ hI (by simpa using hf)
      · obtain ⟨hI', hQ⟩ := hyield e ready waiting hI hf
        exact .yield hf ((ih hI').mono hQ)

/-! ## Order by time -/

variable (M)

/-- What is ready is in order, and so are the bounds of the waiting sources, which
bound their entries. -/
structure Valid (st : Pending S E) : Prop where
  ready : st.ready.Pairwise fun a b => M.key a ≤ M.key b
  waiting : st.waiting.Pairwise fun c d => M.lo c ≤ M.lo d
  lo_le : ∀ c ∈ st.waiting, ∀ e ∈ M.entries c, M.lo c ≤ M.time e

/-- Everything that is still to be handed out. -/
def left (st : Pending S E) : List E := st.ready ++ st.waiting.flatMap M.entries

variable {M} {ready : List E} {waiting : List S}

theorem Valid.yield {e : E} (h : M.Valid ⟨e :: ready, waiting⟩) : M.Valid ⟨ready, waiting⟩ :=
  ⟨(List.pairwise_cons.mp h.ready).2, h.waiting, h.lo_le⟩

theorem Valid.load {ready' : List E} (i : Nat) (h : M.Valid ⟨ready, waiting⟩)
    (hs : ready'.Pairwise fun a b => M.key a ≤ M.key b) :
    M.Valid ⟨ready', waiting.eraseIdx i⟩ :=
  ⟨hs, h.waiting.sublist (List.eraseIdx_sublist ..),
    fun c hc => h.lo_le c (List.mem_of_mem_eraseIdx hc)⟩

theorem perm_eraseIdx {i : Nat} {c : S} (hc : waiting[i]? = some c) :
    waiting.Perm (c :: waiting.eraseIdx i) := by
  obtain ⟨hlt, rfl⟩ := List.getElem?_eq_some_iff.mp hc
  exact (List.getElem_cons_eraseIdx_perm hlt).symm

omit [LinearOrder T] [LinearOrder K] in
theorem left_load {ready' : List E} {i : Nat} {c : S} (hc : waiting[i]? = some c)
    (hp : ready'.Perm (ready ++ M.entries c)) :
    (M.left ⟨ready', waiting.eraseIdx i⟩).Perm (M.left ⟨ready, waiting⟩) := by
  have h1 : (waiting.flatMap M.entries).Perm
      (M.entries c ++ (waiting.eraseIdx i).flatMap M.entries) :=
    (perm_eraseIdx hc).flatMap_right _
  refine (hp.append_right _).trans ?_
  rw [List.append_assoc]
  exact h1.symm.append_left _

/-- An entry that is handed out before the first waiting source is not later than
that source, nor than any other. -/
theorem Valid.le_of_waiting {e : E} (h : M.Valid ⟨e :: ready, waiting⟩)
    (hf : ¬ M.LoadFirst waiting e) {c : S} (hc : c ∈ waiting) : M.time e ≤ M.lo c := by
  cases waiting with
  | nil => cases hc
  | cons d waiting =>
    have hd : M.time e ≤ M.lo d := by
      by_contra hlt
      exact hf ⟨d, rfl, not_le.mp hlt⟩
    rcases List.mem_cons.mp hc with rfl | hc
    · exact hd
    · exact hd.trans ((List.pairwise_cons.mp h.waiting).1 c hc)

section
variable (hmono : ∀ {a b : E}, M.key a ≤ M.key b → M.time a ≤ M.time b) {ready : List E}
  {waiting : List S} {st : Pending S E}
include hmono

theorem Valid.le_of_left {e : E} (h : M.Valid ⟨e :: ready, waiting⟩) (hf : ¬ M.LoadFirst waiting e)
    {x : E} (hx : x ∈ M.left ⟨ready, waiting⟩) : M.time e ≤ M.time x := by
  rcases List.mem_append.mp hx with hx | hx
  · exact hmono ((List.pairwise_cons.mp h.ready).1 x hx)
  · obtain ⟨c, hc, hx⟩ := List.mem_flatMap.mp hx
    exact (h.le_of_waiting hf hc).trans (h.lo_le c hc x hx)

/-- **Complete, and in order of time**, whatever source is loaded each time. -/
theorem delivers_sorted {may : Nat → Prop} (h : M.Valid st) :
    M.Delivers may st fun out =>
      out.Perm (M.left st) ∧ out.Pairwise fun a b => M.time a ≤ M.time b := by
  refine Delivers.rule M.Valid
    (fun st out => out.Perm (M.left st) ∧ out.Pairwise fun a b => M.time a ≤ M.time b)
    ?_ ?_ ⟨.refl _, .nil⟩ h
  · intro e ready waiting hv hf
    refine ⟨hv.yield, fun out hout => ⟨hout.1.cons e, List.pairwise_cons.mpr ⟨?_, hout.2⟩⟩⟩
    exact fun x hx => hv.le_of_left hmono hf (hout.1.subset hx)
  · intro ready waiting i c ready' hv _ _ hc hp hs
    exact ⟨hv.load i hs, fun out hout => ⟨hout.1.trans (left_load hc hp), hout.2⟩⟩

/-! ## Ties -/

/-- An entry of `d` at the bound of `d` would come before the entry `e` that is
handed out at the same time. -/
def Overtaken (M : Merge S E T K) (e : E) (d : S) : Prop :=
  M.time e = M.lo d ∧ ∃ x ∈ M.entries d, M.time x = M.lo d ∧ M.key x < M.key e

/-- No entry that is ready, or that is loaded before `d`, is overtaken by `d`. -/
structure NoTie (M : Merge S E T K) (st : Pending S E) : Prop where
  ready : ∀ e ∈ st.ready, ∀ d ∈ st.waiting, ¬ M.Overtaken e d
  waiting : st.waiting.Pairwise fun c d => ∀ e ∈ M.entries c, ¬ M.Overtaken e d

/-- What follows an entry is not smaller exactly if no waiting source overtakes
it. -/
theorem Valid.key_le_iff {e : E} (h : M.Valid ⟨e :: ready, waiting⟩)
    (hf : ¬ M.LoadFirst waiting e) :
    (∀ x ∈ M.left ⟨ready, waiting⟩, M.key e ≤ M.key x) ↔ ∀ d ∈ waiting, ¬ M.Overtaken e d := by
  constructor
  · rintro hle d hd ⟨-, x, hx, -, hlt⟩
    exact absurd (hle x (List.mem_append_right _ (List.mem_flatMap.mpr ⟨d, hd, hx⟩)))
      (not_le.mpr hlt)
  · intro hno x hx
    rcases List.mem_append.mp hx with hx | hx
    · exact (List.pairwise_cons.mp h.ready).1 x hx
    obtain ⟨d, hd, hx⟩ := List.mem_flatMap.mp hx
    by_contra hlt
    have hlt := not_le.mp hlt
    -- the times are squeezed between the bound of `d` and each other
    have hed : M.time e ≤ M.lo d := h.le_of_waiting hf hd
    have hdx : M.lo d ≤ M.time x := h.lo_le d hd x hx
    have hxe : M.time x ≤ M.time e := hmono hlt.le
    exact hno d hd ⟨hed.antisymm (hdx.trans hxe), x, hx, (hxe.trans hed).antisymm hdx, hlt⟩

omit [LinearOrder T] hmono in
theorem noTie_yield_iff {e : E} :
    M.NoTie ⟨e :: ready, waiting⟩ ↔
      (∀ d ∈ waiting, ¬ M.Overtaken e d) ∧ M.NoTie ⟨ready, waiting⟩ := by
  constructor
  · intro h
    exact ⟨h.ready e List.mem_cons_self,
      fun x hx => h.ready x (List.mem_cons_of_mem _ hx), h.waiting⟩
  · rintro ⟨he, h⟩
    refine ⟨fun x hx => ?_, h.waiting⟩
    rcases List.mem_cons.mp hx with rfl | hx
    · exact he
    · exact h.ready x hx

/-- Loading the first waiting source changes nothing about ties: nothing that is
ready is at the bound of a source that has to be loaded first. -/
theorem noTie_load_iff {ready' : List E} {c : S} (h : M.Valid ⟨ready, c :: waiting⟩)
    (hf : ∀ e ∈ ready.head?, M.LoadFirst (c :: waiting) e)
    (hp : ready'.Perm (ready ++ M.entries c)) :
    M.NoTie ⟨ready', waiting⟩ ↔ M.NoTie ⟨ready, c :: waiting⟩ := by
  have hlater : ∀ e ∈ ready, ¬ M.Overtaken e c := by
    rintro e he ⟨heq, -⟩
    cases ready with
    | nil => cases he
    | cons x ready =>
      obtain ⟨c', hc', hlt⟩ := hf x rfl
      cases hc'
      have hxe : M.time x ≤ M.time e := by
        rcases List.mem_cons.mp he with rfl | he
        · exact le_refl _
        · exact hmono ((List.pairwise_cons.mp h.ready).1 e he)
      exact absurd (hxe.trans heq.le) (not_le.mpr hlt)
  constructor
  · intro hn
    refine ⟨fun e he d hd => ?_, List.pairwise_cons.mpr ⟨fun d hd e he => ?_, hn.waiting⟩⟩
    · rcases List.mem_cons.mp hd with rfl | hd
      · exact hlater e he
      · exact hn.ready e (hp.symm.subset (List.mem_append_left _ he)) d hd
    · exact hn.ready e (hp.symm.subset (List.mem_append_right _ he)) d hd
  · intro hn
    obtain ⟨hc, hw⟩ := List.pairwise_cons.mp hn.waiting
    refine ⟨fun e he d hd => ?_, hw⟩
    rcases List.mem_append.mp (hp.subset he) with he | he
    · exact hn.ready e he d (List.mem_cons_of_mem _ hd)
    · exact hc d hd e he

/-- **Ties, exactly.**  The run that always loads the first waiting source hands
everything out in the order of the keys if and only if no source overtakes an entry
loaded before it. -/
theorem delivers_inOrder (h : M.Valid st) :
    M.Delivers (· = 0) st fun out =>
      out.Perm (M.left st) ∧ ((out.Pairwise fun a b => M.key a ≤ M.key b) ↔ M.NoTie st) := by
  refine Delivers.rule M.Valid (fun st out =>
    out.Perm (M.left st) ∧ ((out.Pairwise fun a b => M.key a ≤ M.key b) ↔ M.NoTie st))
    ?_ ?_ ⟨.refl _, iff_of_true .nil ⟨by simp, .nil⟩⟩ h
  · intro e ready waiting hv hf
    refine ⟨hv.yield, fun out hout => ⟨hout.1.cons e, ?_⟩⟩
    rw [List.pairwise_cons, noTie_yield_iff, hout.2, ← hv.key_le_iff hmono hf]
    exact and_congr_left fun _ => forall_congr' fun x => by rw [hout.1.mem_iff]
  · intro ready waiting i c ready' hv hf hi hc hp hs
    refine ⟨hv.load i hs, fun out hout => ⟨hout.1.trans (left_load hc hp), hout.2.trans ?_⟩⟩
    subst hi
    cases waiting with
    | nil => cases hc
    | cons d waiting =>
      cases hc
      exact noTie_load_iff hmono hv hf hp

/-- Without any ties between sources the result is in the order of the keys,
whatever source is loaded each time. -/
theorem delivers_key {may : Nat → Prop} (h : M.Valid st)
    (hready : ∀ e ∈ st.ready, ∀ d ∈ st.waiting, ¬ M.Overtaken e d)
    (hwaiting : st.waiting.Pairwise fun c d =>
      (∀ e ∈ M.entries c, ¬ M.Overtaken e d) ∧ ∀ e ∈ M.entries d, ¬ M.Overtaken e c) :
    M.Delivers may st fun out =>
      out.Perm (M.left st) ∧ out.Pairwise fun a b => M.key a ≤ M.key b := by
  refine Delivers.rule
    (fun st => M.Valid st ∧ (∀ e ∈ st.ready, ∀ d ∈ st.waiting, ¬ M.Overtaken e d) ∧
      st.waiting.Pairwise fun c d =>
        (∀ e ∈ M.entries c, ¬ M.Overtaken e d) ∧ ∀ e ∈ M.entries d, ¬ M.Overtaken e c)
    (fun st out => out.Perm (M.left st) ∧ out.Pairwise fun a b => M.key a ≤ M.key b)
    ?_ ?_ ⟨.refl _, .nil⟩ ⟨h, hready, hwaiting⟩
  · rintro e ready waiting ⟨hv, hr, hw⟩ hf
    refine ⟨⟨hv.yield, fun x hx => hr x (List.mem_cons_of_mem _ hx), hw⟩, fun out hout => ?_⟩
    refine ⟨hout.1.cons e, List.pairwise_cons.mpr ⟨fun x hx => ?_, hout.2⟩⟩
    exact (hv.key_le_iff hmono hf).mpr (hr e List.mem_cons_self) x (hout.1.subset hx)
  · rintro ready waiting i c ready' ⟨hv, hr, hw⟩ _ _ hc hp hs
    refine ⟨⟨hv.load i hs, fun e he d hd => ?_, hw.sublist (List.eraseIdx_sublist ..)⟩,
      fun out hout => ⟨hout.1.trans (left_load hc hp), hout.2⟩⟩
    have hd' : d ∈ waiting := List.mem_of_mem_eraseIdx hd
    rcases List.mem_append.mp (hp.subset he) with he | he
    · exact hr e he d hd'
    · have hcd := (perm_eraseIdx hc).symm.pairwise_iff (R := fun c d =>
        (∀ e ∈ M.entries c, ¬ M.Overtaken e d) ∧ ∀ e ∈ M.entries d, ¬ M.Overtaken e c)
        (fun {_ _} h => ⟨h.2, h.1⟩) |>.mpr hw
      exact ((List.pairwise_cons.mp hcd).1 d hd).1 e he

end

end Merge
end Mcap
