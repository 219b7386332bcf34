import Mcap.PanicFree
import Mcap.Requests
import Mathlib.Logic.Function.Iterate

/-! # When `decompress_inner` ends

The loop is left when the destination is full, when input is missing, or with an error.  A pass
that consumes or writes something makes the input or the room smaller.  So the loop goes on for ever
only from a state in which the decompressor is `Idle`: it is given the same source every time, and
answers every time that it has done nothing.  Once the compressed bytes of the chunk are used up, the
source is empty, and most decompressors are idle.
-/
namespace Mcap
open Relation (ReflTransGen)

variable {δ : Type} (D : Decompressor δ)

/-- What the caller of `decompress_inner` relies on: `n` bytes, a request, or an error. -/
def Inflated.Ends (n : Nat) (s : Inflate δ) : Inflated → Prop
  | .done => n ≤ s.destBuf.len
  | .need k => 0 < k
  | .err _ => True
  | .panic | .spin => False

/-- The decompressor after `k` calls with the same source and the same room. -/
def afterCalls (src : Bytes) (room : Nat) (d : δ) (k : Nat) : δ :=
  (fun d => (D.decompress d src room).1)^[k] d

/-- Every call with this source and this room consumes nothing and writes nothing, and no call
needs more than the `have_` bytes there are. -/
def Idle (src : Bytes) (room have_ : Nat) (d : δ) : Prop :=
  ∀ k, D.nextReadSize (afterCalls D src room d k) ≤ have_ ∧
    (D.decompress (afterCalls D src room d k) src room).2 = .ok ⟨0, []⟩

/-- The decompressor is idle in this state. -/
def Inflate.Idles (s : Inflate δ) : Prop :=
  Idle D s.src s.destBuf.unwritten.length s.srcBuf.len s.decompressor

/-- Every call that the loop comes to fits, and it comes to no state in which the decompressor is
idle. -/
def GetsOn (s : Inflate δ) : Prop :=
  ∀ s', ReflTransGen (InflateStep D) s s' → Calling D s' → CallFits D s' ∧ ¬ s'.Idles D

/-- The destination can grow to `n` bytes, and the loop that fills it gets on. -/
def FillsTo (n : Nat) (s : Inflate δ) : Prop :=
  s.destBuf.len < n →
    ∃ b, s.destBuf.reserveExact (n - s.destBuf.len) = some b ∧ GetsOn D { s with destBuf := b }

variable {D} {s s' : Inflate δ}

/-! ## Passes of the loop -/

theorem InflateStep.sizes (h : InflateStep D s s') :
    ∃ d res, D.decompress s.decompressor s.src s.destBuf.unwritten.length = (d, .ok res) ∧
      s'.decompressor = d ∧ s'.srcBuf.unread = s.srcBuf.unread.drop res.consumed ∧
      s'.srcBuf.len = s.srcBuf.len - res.consumed ∧ res.consumed ≤ s.srcBuf.len ∧
      s'.destBuf.unwritten.length = s.destBuf.unwritten.length - res.wrote.length ∧
      res.wrote.length ≤ s.destBuf.unwritten.length ∧
      s'.compressedRemaining = s.compressedRemaining - res.consumed ∧
      s'.uncompressedRemaining = s.uncompressedRemaining - res.wrote.length := by
  obtain @⟨d, res, srcBuf, destBuf, hc, hd, hread, hwritten⟩ := h
  have hconsumed := D.consumed_le hd
  have hroom := D.wrote_le hd
  have hsrc : s.src.length ≤ s.srcBuf.len := by
    rw [Inflate.src, List.length_take, RwBuf.length_unread]
    omega
  obtain ⟨srcBuf', hread', hshows, -⟩ :=
    RwBuf.markRead_of_le (b := s.srcBuf) (n := res.consumed) (by omega)
  obtain rfl : srcBuf' = srcBuf := Option.some.inj (hread'.symm.trans hread)
  obtain ⟨destBuf', hwritten', -, -, hend, hsize⟩ := RwBuf.fill_of_le hroom
  obtain rfl : destBuf' = destBuf := Option.some.inj (hwritten'.symm.trans hwritten)
  refine ⟨d, res, hd, rfl, hshows.unread, ?_, by omega, ?_, hroom, rfl, rfl⟩
  · rw [hshows.len, List.length_drop, RwBuf.length_unread]
  · simp only [RwBuf.unwritten, List.length_drop]
    omega

theorem InflateStep.of_nothing {d : δ} (h : InflateStep D s s')
    (hd : D.decompress s.decompressor s.src s.destBuf.unwritten.length = (d, .ok ⟨0, []⟩)) :
    s'.decompressor = d ∧ s'.src = s.src ∧ s'.srcBuf.len = s.srcBuf.len ∧
      s'.destBuf.unwritten.length = s.destBuf.unwritten.length ∧
      s'.uncompressedRemaining = s.uncompressedRemaining := by
  obtain ⟨d', res, hd', hdec, hunread, hlen, -, hroom, -, hcomp, huncomp⟩ := h.sizes
  cases hd.symm.trans hd'
  refine ⟨hdec, ?_, hlen, hroom, huncomp⟩
  rw [Inflate.src, Inflate.src, hunread, hlen, hcomp]
  rfl

theorem InflateStep.lt (h : InflateStep D s s')
    (hne : (D.decompress s.decompressor s.src s.destBuf.unwritten.length).2 ≠ .ok ⟨0, []⟩) :
    s'.srcBuf.len + s'.destBuf.unwritten.length < s.srcBuf.len + s.destBuf.unwritten.length := by
  obtain ⟨d, ⟨consumed, wrote⟩, hd, -, -, hlen, hconsumed, hroom, hwrote, -⟩ := h.sizes
  have hsome : consumed ≠ 0 ∨ wrote.length ≠ 0 := by
    by_contra hnone
    rw [not_or, not_not, not_not] at hnone
    obtain ⟨rfl, hnil⟩ := hnone
    obtain rfl := List.length_eq_zero_iff.mp hnil
    exact hne (congrArg Prod.snd hd)
  simp only at hlen hconsumed hroom hwrote
  omega

/-! ## A decompressor that gets on -/

theorem GetsOn.step (h : GetsOn D s) (hstep : InflateStep D s s') : GetsOn D s' :=
  fun _ hreach => h _ (.head hstep hreach)

/-- **The calls come to an end**: by induction on the input and the room, and then on the number of
calls up to the first one that does something. -/
theorem GetsOn.ends (h : GetsOn D s) : Acc (fun s₂ s₁ => InflateStep D s₁ s₂) s := by
  induction hm : s.srcBuf.len + s.destBuf.unwritten.length using Nat.strong_induction_on
    generalizing s with
  | _ m ih =>
    by_cases hcalling : Calling D s
    · obtain ⟨k, hk⟩ := not_forall.mp (h s .refl hcalling).2
      induction k generalizing s with
      | zero =>
        refine ⟨_, fun s' hstep => ih _ ?_ (h.step hstep) rfl⟩
        have hlt := hstep.lt fun heq => hk ⟨hcalling.input, heq⟩
        omega
      | succ k ihk =>
        refine ⟨_, fun s' hstep => ?_⟩
        by_cases heq : (D.decompress s.decompressor s.src s.destBuf.unwritten.length).2 = .ok ⟨0, []⟩
        · obtain ⟨hdec, hsrc, hlen, hroom, -⟩ := hstep.of_nothing (Prod.ext rfl heq)
          by_cases hcalling' : Calling D s'
          · refine ihk (h.step hstep) (by omega) hcalling' ?_
            rw [hsrc, hlen, hroom, hdec]
            exact hk
          · exact ⟨_, fun _ hstep' => absurd (by cases hstep'; assumption) hcalling'⟩
        · have hlt := hstep.lt heq
          exact ih _ (by omega) (h.step hstep) rfl
    · exact ⟨_, fun _ hstep => absurd (by cases hstep; assumption) hcalling⟩

theorem GetsOn.fits (h : GetsOn D s) : InflateFits D s :=
  ⟨h.ends, fun s' hreach hcalling => (h s' hreach hcalling).1⟩

/-! ## A decompressor that does not -/

theorem Inflate.Idles.spin (h : s.Idles D) (hcalling : Calling D s) (fuel : Nat) :
    (decompressLoop D fuel s).1 = .spin := by
  induction fuel generalizing s with
  | zero => rfl
  | succ fuel ih =>
    have hanswer : D.decompress s.decompressor s.src s.destBuf.unwritten.length =
        ((D.decompress s.decompressor s.src s.destBuf.unwritten.length).1, .ok ⟨0, []⟩) :=
      Prod.ext rfl (h 0).2
    have hfits : CallFits D s := by
      intro d res hd
      cases hanswer.symm.trans hd
      exact Nat.zero_le _
    rcases inflate_step hcalling hfits with ⟨d, e, herr⟩ | ⟨s', hstep, -, hloop⟩
    · have herror := decompressLoop_calling hcalling 0
      rw [herr, hanswer] at herror
      have hresult := congrArg Prod.fst herror
      simp only at hresult
      split at hresult
      · split at hresult <;> cases hresult
      · cases hresult
    · obtain ⟨hdec, hsrc, hlen, hroom, huncomp⟩ := hstep.of_nothing hanswer
      rw [hloop]
      have hidles : s'.Idles D := by
        intro k
        rw [hsrc, hlen, hroom, hdec]
        exact h (k + 1)
      refine ih hidles ⟨?_, hroom ▸ hcalling.room, huncomp ▸ hcalling.remaining⟩
      rw [hlen, hdec]
      exact (h 1).1

/-- With the compressed bytes of the chunk used up, a decompressor that does nothing with an empty
source is idle unless it asks for more than there is. -/
theorem Inflate.idles_of_empty (hnothing : ∀ d room, (D.decompress d [] room).2 = .ok ⟨0, []⟩)
    (hsrc : s.src = []) : s.Idles D ↔ ∀ k,
      D.nextReadSize (afterCalls D [] s.destBuf.unwritten.length s.decompressor k) ≤ s.srcBuf.len := by
  unfold Inflate.Idles Idle
  rw [hsrc]
  exact forall_congr' fun k => and_iff_left (hnothing _ _)

theorem callFits_of_loop (hcalling : Calling D s) (h : (decompressLoop D 1 s).1 ≠ .panic) :
    CallFits D s := by
  intro d res hd
  by_contra hmore
  apply h
  rw [decompressLoop_calling hcalling, hd]
  simp only
  split
  · rw [if_pos (by omega)]
  · rfl

/-- **A loop that ends gets on**, as it ends from every state that it comes to. -/
theorem getsOn_of_loop (N : Nat) (h : ∀ fuel, N ≤ fuel →
    (decompressLoop D fuel s).1 ≠ .panic ∧ (decompressLoop D fuel s).1 ≠ .spin) : GetsOn D s := by
  intro s' hreach
  induction hreach using ReflTransGen.head_induction_on with
  | refl =>
    refine fun hcalling => ⟨callFits_of_loop hcalling fun hpanic => ?_, fun hidles => ?_⟩
    · have hmono := decompressLoop_mono D (Nat.succ_le_succ (Nat.zero_le N)) (s := s')
        (by rw [hpanic]; simp)
      exact (h (N + 1) (Nat.le_succ N)).1 (by rw [hmono, hpanic])
    · exact (h N (Nat.le_refl N)).2 (hidles.spin hcalling N)
  | head hstep _ ih =>
    refine ih fun fuel hfuel => ?_
    obtain @⟨d, res, srcBuf, destBuf, hc, hd, hread, hwritten⟩ := hstep
    have hturn := h (fuel + 1) (by omega)
    rw [decompressLoop_calling hc, hd] at hturn
    simp only [hread, hwritten] at hturn
    split at hturn
    · exact absurd rfl hturn.1
    · exact hturn

/-! ## When it ends -/

theorem le_len_of_full {n : Nat} {b : RwBuf} (hlt : s.destBuf.len < n)
    (hgrow : s.destBuf.reserveExact (n - s.destBuf.len) = some b)
    (hshrunk : Shrunk { s with destBuf := b } s') (hfull : s'.destBuf.unwritten.length = 0) :
    n ≤ s'.destBuf.len := by
  have hroom : s.destBuf.end_ + (n - s.destBuf.len) ≤ ISIZE_MAX := by
    by_contra hmore
    rw [RwBuf.reserveExact_of_lt (by omega)] at hgrow
    cases hgrow
  obtain ⟨b', hgrow', -, hstart, -, hlength⟩ := RwBuf.reserveExact_of_le hroom
  obtain rfl : b' = b := Option.some.inj (hgrow'.symm.trans hgrow)
  have hsize : s'.destBuf.data.length = b'.data.length := hshrunk.size
  have hsame : s'.destBuf.start = b'.start := hshrunk.start
  have hend := s'.destBuf.end_le
  have hend' := s.destBuf.end_eq
  rw [RwBuf.unwritten, List.length_drop] at hfull
  rw [RwBuf.len]
  omega

/-- **`decompress_inner` ends** if and only if the destination can grow and the loop gets on. -/
theorem decompressInner_ends_iff (D : Decompressor δ) (n : Nat) (s : Inflate δ) :
    (∃ N, ∀ fuel, N ≤ fuel →
      (decompressInner D fuel n s).1.Ends n (decompressInner D fuel n s).2) ↔ FillsTo D n s := by
  unfold FillsTo decompressInner
  by_cases hlt : s.destBuf.len < n
  · have hsome : n - s.destBuf.len ≠ 0 := by omega
    simp only [if_neg hsome, hlt, true_imp_iff]
    rcases hgrow : s.destBuf.reserveExact (n - s.destBuf.len) with _ | b
    · refine iff_of_false ?_ (by simp)
      rintro ⟨N, hN⟩
      exact hN N (Nat.le_refl N)
    constructor
    · rintro ⟨N, hN⟩
      refine ⟨b, rfl, getsOn_of_loop N fun fuel hfuel => ?_⟩
      have hends := hN fuel hfuel
      constructor
      all_goals
        intro hres
        simp only [hres] at hends
        exact hends.elim
    · rintro ⟨_, hb, hgets⟩
      cases hb
      obtain ⟨N, res, s', hrun, hshrunk, hpanic, hspin, hdone⟩ := inflate_ends hgets.fits
      refine ⟨N, fun fuel hfuel => ?_⟩
      simp only [hrun fuel hfuel]
      cases res with
      | done => exact le_len_of_full hlt hgrow hshrunk (hdone rfl).1
      | need k => exact LinearReader.decompressLoop_need (congrArg Prod.fst (hrun fuel hfuel))
      | err e => trivial
      | panic => exact hpanic rfl
      | spin => exact hspin rfl
  · have hnone : n - s.destBuf.len = 0 := by omega
    simp only [if_pos hnone]
    exact iff_of_true ⟨0, fun _ _ => Nat.le_of_not_lt hlt⟩ fun h => absurd h hlt

/-- A decompressor that copies: the data is stored as it is. -/
def copying : Decompressor Unit where
  newZstd := ()
  newLz4 := .ok ()
  nextReadSize _ := 1
  decompress _ src n := ((), .ok ⟨min src.length n, src.take n⟩)
  reset _ := ((), .ok ())
  name _ := ""
  consumed_le := by
    intro _ src n _ res h
    cases h
    exact Nat.min_le_left _ _
  wrote_le := by
    intro _ src n _ res h
    cases h
    exact List.length_take_le n src

/-- A chunk whose compressed bytes are used up, with one byte missing, in front of more of the file. -/
def usedUp : Inflate Unit where
  decompressor := ()
  srcBuf := ⟨[op.DATA_END], 0, 1, none, by decide, by decide⟩
  destBuf := RwBuf.new false
  compressedRemaining := 0
  uncompressedRemaining := 1

/-- **The loop does not always end**: it calls a decompressor with an empty source for ever. -/
theorem decompressInner_spins :
    ¬ ∀ (δ : Type) (D : Decompressor δ), (∀ d room, (D.decompress d [] room).2 = .ok ⟨0, []⟩) →
      ∀ (n : Nat) (s : Inflate δ), ∃ N, ∀ fuel, N ≤ fuel →
        (decompressInner D fuel n s).1.Ends n (decompressInner D fuel n s).2 := by
  intro h
  have hnothing : ∀ d room, (copying.decompress d [] room).2 = .ok ⟨0, []⟩ := by simp [copying]
  obtain ⟨N, hN⟩ := h Unit copying hnothing 1 usedUp
  have hidles : { usedUp with destBuf := ⟨[0], 0, 0, none, by decide, by decide⟩ }.Idles copying :=
    (Inflate.idles_of_empty hnothing rfl).mpr fun _ => Nat.le_refl 1
  have hspin : (decompressInner copying N 1 usedUp).1 = .spin :=
    hidles.spin ⟨by decide, by decide, by decide⟩ N
  have hends := hN N (Nat.le_refl N)
  rw [hspin] at hends
  exact hends

end Mcap
