import Mcap.ReaderSpec

/-! # Decompressing an intact chunk piece by piece

`decompress_inner` asks for more input, writes some output and is called again,
in whatever pieces the input arrives.  On a chunk whose compressed bytes are
intact, each call keeps `Inflating`: the bytes consumed and the bytes written
stay in step.  `decompressInner_spec` says how a call ends: the bytes asked for
are there, or more input is needed and there is more, or the chunk has fewer
bytes than asked for.
-/
namespace Mcap
open Spec (absorb)

variable {δ : Type} {D : Decompressor δ}

/-! ## Hashers of what is read -/

@[simp] theorem absorb_nil (h : Option Hasher) : absorb h [] = h := by
  cases h <;> simp [absorb]

@[simp] theorem absorb_append (h : Option Hasher) (a b : Bytes) :
    absorb (absorb h a) b = absorb h (a ++ b) := by
  cases h <;> simp [absorb]

/-! ## The loop -/

section
variable {limit : Option Nat} (Δ : Decoding D limit) (name : String) (rest bytes : Bytes)
  (h : Option Hasher)

/-- The state of `decompress_inner` in a chunk with `comp` left to read and `pend`
left to write, followed by `bytes`. -/
structure Inflating (s : Inflate δ) (comp pend : Bytes) : Prop where
  mid : Δ.Mid name s.decompressor comp pend
  compressed : s.compressedRemaining = comp.length
  uncompressed : s.uncompressedRemaining = pend.length
  bytes : s.srcBuf.unread ++ rest = comp ++ bytes
  hasher : absorb s.srcBuf.hasher comp = h

/-- `s'` is reached from `s`, which had `pend` to write, by writing all of it but
`pend'`. -/
structure InflatedTo (s s' : Inflate δ) (pend pend' : Bytes) : Prop where
  wrote : ∃ w, pend = w ++ pend' ∧ s'.destBuf.Shows (s.destBuf.unread ++ w) s.destBuf.hasher
  start : s'.destBuf.start = s.destBuf.start
  size : s'.destBuf.data.length = s.destBuf.data.length
  compressed : s'.compressedRemaining ≤ s.compressedRemaining

/-- How the loop ends in `s'`, with `pend'` left to write. -/
def EndsLoop (res : Inflated) (s' : Inflate δ) (pend' : Bytes) : Prop :=
  (res = .done ∧ s'.destBuf.unwritten.length = 0) ∨
  (∃ n, res = .need n ∧ rest ≠ []) ∨
  (res = .err .unexpectedEoc ∧ pend' = [] ∧ 0 < s'.destBuf.unwritten.length)

variable {Δ name rest bytes h} {s : Inflate δ} {comp pend : Bytes}

theorem InflatedTo.refl (s : Inflate δ) (pend : Bytes) : InflatedTo s s pend pend :=
  ⟨⟨[], rfl, by rw [List.append_nil]; exact RwBuf.shows_self _⟩, rfl, rfl, Nat.le_refl _⟩

theorem InflatedTo.trans {s₁ s₂ s₃ : Inflate δ} {p₁ p₂ p₃ : Bytes} (h₁ : InflatedTo s₁ s₂ p₁ p₂)
    (h₂ : InflatedTo s₂ s₃ p₂ p₃) : InflatedTo s₁ s₃ p₁ p₃ := by
  obtain ⟨⟨w₁, hp₁, hs₁⟩, ht₁, hd₁, hc₁⟩ := h₁
  obtain ⟨⟨w₂, hp₂, hs₂⟩, ht₂, hd₂, hc₂⟩ := h₂
  refine ⟨⟨w₁ ++ w₂, ?_, ?_⟩, ht₂.trans ht₁, hd₂.trans hd₁, hc₂.trans hc₁⟩
  · rw [hp₁, hp₂, List.append_assoc]
  · rw [hs₁.unread, hs₁.hasher, List.append_assoc] at hs₂
    exact hs₂

theorem Inflating.more (hi : Inflating Δ name rest bytes h s comp pend)
    (hn : s.srcBuf.len < D.nextReadSize s.decompressor) : rest ≠ [] := by
  rintro rfl
  have hh := Δ.hint hi.mid
  have hb := congrArg List.length hi.bytes
  simp only [List.append_nil, List.length_append, RwBuf.length_unread] at hb
  omega

theorem Inflating.src_eq (hi : Inflating Δ name rest bytes h s comp pend) :
    comp = s.srcBuf.unread.take (min s.srcBuf.len s.compressedRemaining) ++
      comp.drop (min s.srcBuf.len s.compressedRemaining) := by
  have hle : min s.srcBuf.len s.compressedRemaining ≤ s.srcBuf.unread.length := by
    rw [RwBuf.length_unread]; exact Nat.min_le_left _ _
  have hle' : min s.srcBuf.len s.compressedRemaining ≤ comp.length := by
    rw [hi.compressed]; exact Nat.min_le_right _ _
  have ht := congrArg (List.take (min s.srcBuf.len s.compressedRemaining)) hi.bytes
  rw [List.take_append_of_le_length hle, List.take_append_of_le_length hle'] at ht
  rw [ht, List.take_append_drop]

/-- One pass of the loop that calls the decompressor keeps `Inflating`.  It makes
progress, or the next pass asks for more input. -/
theorem Inflating.step (hi : Inflating Δ name rest bytes h s comp pend)
    (hhint : D.nextReadSize s.decompressor ≤ s.srcBuf.len) (hroom : 0 < s.destBuf.unwritten.length)
    (hp : pend ≠ []) :
    ∃ s' comp' pend', (∀ fuel, decompressLoop D (fuel + 1) s = decompressLoop D fuel s') ∧
      Inflating Δ name rest bytes h s' comp' pend' ∧ InflatedTo s s' pend pend' ∧
      (comp'.length + pend'.length < comp.length + pend.length ∨
        s'.srcBuf.len < D.nextReadSize s'.decompressor) := by
  have hh := Δ.hint hi.mid
  have hc := hi.compressed
  have hu := hi.uncompressed
  have hsrc : (s.srcBuf.unread.take (min s.srcBuf.len s.compressedRemaining)).length =
      min s.srcBuf.len s.compressedRemaining := by
    rw [List.length_take, RwBuf.length_unread]
    omega
  obtain ⟨d', res, c', out', hdec, hcomp, hout, hmid, hprog⟩ :=
    Δ.call hi.mid hi.src_eq (by rw [hsrc]; omega) hroom hp
  have hconsumed := D.consumed_le hdec
  have hwrote := D.wrote_le hdec
  rw [hsrc] at hconsumed hprog
  obtain ⟨src, hread, hsv, -⟩ := RwBuf.markRead_of_le (b := s.srcBuf) (n := res.consumed) (by omega)
  obtain ⟨dest, hwritten, hdv, hstart, -, hsize⟩ := RwBuf.fill_of_le hwrote
  have hcl : comp.length = res.consumed + c'.length := by
    have := congrArg List.length hcomp
    rw [List.length_append, List.length_take] at this
    omega
  have hpl : pend.length = res.wrote.length + out'.length := by
    rw [hout, List.length_append]
  have htake : s.srcBuf.unread.take res.consumed = comp.take res.consumed := by
    have := congrArg (List.take res.consumed) hi.bytes
    rwa [List.take_append_of_le_length (by rw [RwBuf.length_unread]; omega),
      List.take_append_of_le_length (by omega)] at this
  have hc' : c' = comp.drop res.consumed :=
    List.append_cancel_left (hcomp.symm.trans (List.take_append_drop _ _).symm)
  refine ⟨⟨d', src, dest, s.compressedRemaining - res.consumed,
    s.uncompressedRemaining - res.wrote.length⟩, c', out', fun fuel => ?_,
    ⟨hmid, ?_, ?_, ?_, ?_⟩, ⟨⟨res.wrote, hout, hdv⟩, hstart, hsize, Nat.sub_le _ _⟩, ?_⟩
  · have hpos : s.uncompressedRemaining ≠ 0 := by
      rw [hu]
      exact fun h0 => hp (List.length_eq_zero_iff.mp h0)
    rw [decompressLoop, if_neg (by omega), if_neg (by omega), if_neg hpos]
    simp only [hdec, hread, hwritten]
    rw [if_neg (by omega)]
  · show s.compressedRemaining - res.consumed = _
    omega
  · show s.uncompressedRemaining - res.wrote.length = _
    omega
  · show src.unread ++ rest = _
    rw [hsv.unread, hc', ← List.drop_append_of_le_length (by rw [RwBuf.length_unread]; omega),
      hi.bytes, List.drop_append_of_le_length (by omega)]
  · show absorb src.hasher c' = _
    rw [hsv.hasher, htake]
    show absorb (absorb _ _) _ = _
    rw [absorb_append, ← hcomp]
    exact hi.hasher
  · by_cases h0 : res.consumed = 0 ∧ res.wrote = []
    · right
      have hlt := hprog h0.1 h0.2
      have hh' := Δ.hint hmid
      have hlen := hsv.len
      rw [List.length_drop, RwBuf.length_unread] at hlen
      show src.len < D.nextReadSize d'
      omega
    · left
      have : res.consumed ≠ 0 ∨ res.wrote.length ≠ 0 := by
        rw [not_and_or] at h0
        exact h0.imp id fun hw hl => hw (List.length_eq_zero_iff.mp hl)
      omega

/-- **The loop ends**, after as many passes as there are bytes, and how. -/
theorem decompressLoop_spec (m : Nat) : ∀ {s : Inflate δ} {comp pend : Bytes},
    Inflating Δ name rest bytes h s comp pend → comp.length + pend.length ≤ m →
    ∃ res s' comp' pend', (∀ fuel, m + 1 < fuel → decompressLoop D fuel s = (res, s')) ∧
      Inflating Δ name rest bytes h s' comp' pend' ∧ InflatedTo s s' pend pend' ∧
      EndsLoop rest res s' pend' := by
  induction m using Nat.strong_induction_on with
  | _ m ih =>
    intro s comp pend hi hm
    by_cases hneed : s.srcBuf.len < D.nextReadSize s.decompressor
    · refine ⟨.need (D.nextReadSize s.decompressor - s.srcBuf.len), s, comp, pend, ?_, hi,
        .refl _ _, .inr (.inl ⟨_, rfl, hi.more hneed⟩)⟩
      rintro (_ | fuel) hfuel
      · omega
      · rw [decompressLoop, if_pos hneed]
    by_cases hfull : s.destBuf.unwritten.length = 0
    · refine ⟨.done, s, comp, pend, ?_, hi, .refl _ _, .inl ⟨rfl, hfull⟩⟩
      rintro (_ | fuel) hfuel
      · omega
      · rw [decompressLoop, if_neg hneed, if_pos hfull]
    by_cases hp : pend = []
    · subst hp
      refine ⟨.err .unexpectedEoc, s, comp, [], ?_, hi, .refl _ _,
        .inr (.inr ⟨rfl, rfl, by omega⟩)⟩
      rintro (_ | fuel) hfuel
      · omega
      · rw [decompressLoop, if_neg hneed, if_neg hfull,
          if_pos (show s.uncompressedRemaining = 0 from hi.uncompressed)]
    obtain ⟨s₁, comp₁, pend₁, hstep, hi₁, ht₁, hprog⟩ := hi.step (by omega) (by omega) hp
    rcases hprog with hlt | hneed₁
    · obtain ⟨res, s', comp', pend', hrun, hi', ht', hend⟩ := ih (m - 1) (by omega) hi₁ (by omega)
      refine ⟨res, s', comp', pend', ?_, hi', ht₁.trans ht', hend⟩
      rintro (_ | fuel) hfuel
      · omega
      · rw [hstep, hrun fuel (by omega)]
    · refine ⟨.need (D.nextReadSize s₁.decompressor - s₁.srcBuf.len), s₁, comp₁, pend₁, ?_, hi₁,
        ht₁, .inr (.inl ⟨_, rfl, hi₁.more hneed₁⟩)⟩
      rintro (_ | _ | fuel) hfuel
      · omega
      · omega
      · rw [hstep, decompressLoop, if_pos hneed₁]

/-- **`decompress_inner` on an intact chunk.**  If there is room for `n` bytes, the
call ends with `n` bytes in the buffer, or needs more input, of which there is
some, or the chunk has fewer than `n` bytes left. -/
theorem decompressInner_spec {n : Nat} (hi : Inflating Δ name rest bytes h s comp pend)
    (hroom : s.destBuf.len < n → s.destBuf.start + n ≤ ISIZE_MAX) :
    ∃ N res s' comp' pend', (∀ fuel, N ≤ fuel → decompressInner D fuel n s = (res, s')) ∧
      Inflating Δ name rest bytes h s' comp' pend' ∧
      (∃ w, pend = w ++ pend' ∧ s'.destBuf.Shows (s.destBuf.unread ++ w) s.destBuf.hasher) ∧
      s'.destBuf.start = s.destBuf.start ∧
      s'.destBuf.len ≤ max s.destBuf.len n ∧
      s'.compressedRemaining ≤ s.compressedRemaining ∧
      ((res = .done ∧ n ≤ s'.destBuf.len) ∨
        ((∃ k, res = .need k) ∧ rest ≠ []) ∨
        (res = .err .unexpectedEoc ∧ s.destBuf.len + pend.length < n)) := by
  by_cases hn : n - s.destBuf.len = 0
  · refine ⟨0, .done, s, comp, pend, fun fuel _ => by rw [decompressInner, if_pos hn], hi,
      (InflatedTo.refl s pend).wrote, rfl, Nat.le_max_left _ _, Nat.le_refl _,
      .inl ⟨rfl, by omega⟩⟩
  have hend := s.destBuf.end_eq
  obtain ⟨b, hres, hv, hstart, hbend, hsize⟩ :=
    RwBuf.reserveExact_of_le (b := s.destBuf) (n := n - s.destBuf.len)
      (by have := hroom (by omega); omega)
  have hi₁ : Inflating Δ name rest bytes h { s with destBuf := b } comp pend :=
    ⟨hi.mid, hi.compressed, hi.uncompressed, hi.bytes, hi.hasher⟩
  obtain ⟨res, s', comp', pend', hrun, hi', ⟨⟨w, hw, hw'⟩, hstart', hsize', hle⟩, hcase⟩ :=
    decompressLoop_spec (comp.length + pend.length) hi₁ (Nat.le_refl _)
  have hv' : s'.destBuf.Shows (s.destBuf.unread ++ w) s.destBuf.hasher := by
    rw [hv.unread, hv.hasher] at hw'
    exact hw'
  have hlen : s'.destBuf.len = s.destBuf.len + w.length := by
    rw [hv'.len, List.length_append, RwBuf.length_unread]
  have hunw : s'.destBuf.unwritten.length + s'.destBuf.len = n := by
    have h1 := s'.destBuf.start_le
    have h2 := s'.destBuf.end_le
    simp only [RwBuf.unwritten, List.length_drop, RwBuf.len] at *
    omega
  have hpl : pend.length = w.length + pend'.length := by rw [hw, List.length_append]
  refine ⟨comp.length + pend.length + 2, res, s', comp', pend', fun fuel hf => ?_, hi',
    ⟨w, hw, hv'⟩, hstart'.trans hstart, by omega, hle, ?_⟩
  · rw [decompressInner, if_neg hn, hres]
    exact hrun fuel (by omega)
  · rcases hcase with ⟨rfl, h0⟩ | ⟨k, rfl, hrest⟩ | ⟨rfl, rfl, hpos⟩
    · exact .inl ⟨rfl, by omega⟩
    · exact .inr (.inl ⟨⟨k, rfl⟩, hrest⟩)
    · refine .inr (.inr ⟨rfl, ?_⟩)
      rw [List.length_nil] at hpl
      omega

end
end Mcap
