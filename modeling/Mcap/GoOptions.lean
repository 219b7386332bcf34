import Mcap.GoPanics

/-! # The read options of the Go library

What a caller of `Messages` sees with some options: that they are refused, or the messages of the
iterator, call after call, up to the first call that yields none.  `Messages` sees of the options
only what `Finalize` leaves of them.

The options of type `int64` and those of type `uint64` set different fields, and by default the end
is unset among the former and the largest number among the latter.  So `After` alone is refused, as
it is in front of `Before`, and `Before` has no effect on what is read.
-/
namespace Mcap
namespace Go

/-! ## What a caller sees -/

/-- How a reading ends: with an error, of which `io.EOF` is one, or with a panic. -/
inductive Ending
  | failed (e : Error)
  | panicked
deriving DecidableEq

/-- The messages that an iterator yields, call after call, and how that ends. -/
inductive MessageIterator.Reads (rt : Runtime) : MessageIterator → List Yield → Ending → Prop
  | yields (fuel : Nat) {it it' y ys ending} : it.nextInto rt fuel = some (.ok y, it') →
      Reads rt it' ys ending → Reads rt it (y :: ys) ending
  | failed (fuel : Nat) {it it' e} : it.nextInto rt fuel = some (.err e, it') →
      Reads rt it [] (.failed e)
  | panicked (fuel : Nat) {it it'} : it.nextInto rt fuel = some (.panic, it') →
      Reads rt it [] .panicked

/-- What a caller of `Messages` sees. -/
inductive MessagesSeen
  /-- There is no iterator. -/
  | refused (ending : Ending)
  | read (ys : List Yield) (ending : Ending)

/-- A caller of `Messages` with these options sees this. -/
inductive Reader.Sees (rt : Runtime) (r : Reader) (opts : List ReadOpt) : MessagesSeen → Prop
  | failed (fuel : Nat) {e} : r.messages rt.unpackers fuel opts = some (.err e) →
      Sees rt r opts (.refused (.failed e))
  | panicked (fuel : Nat) : r.messages rt.unpackers fuel opts = some .panic →
      Sees rt r opts (.refused .panicked)
  | read (fuel : Nat) {it ys ending} : r.messages rt.unpackers fuel opts = some (.ok it) →
      it.Reads rt ys ending → Sees rt r opts (.read ys ending)

/-- `Messages` yields the same with these options as with those. -/
def SameMessages (rt : Runtime) (r : Reader) (opts opts' : List ReadOpt) : Prop :=
  ∀ seen, r.Sees rt opts seen ↔ r.Sees rt opts' seen

theorem SameMessages.of_eq {rt : Runtime} {r : Reader} {opts opts' : List ReadOpt}
    (h : ∀ fuel, r.messages rt.unpackers fuel opts = r.messages rt.unpackers fuel opts') :
    SameMessages rt r opts opts' := by
  have hsees : ∀ {opts opts' : List ReadOpt},
      (∀ fuel, r.messages rt.unpackers fuel opts = r.messages rt.unpackers fuel opts') →
        ∀ seen, r.Sees rt opts seen → r.Sees rt opts' seen := by
    intro opts opts' h seen hseen
    cases hseen with
    | failed _ hmessages => exact .failed _ ((h _).symm.trans hmessages)
    | panicked _ hmessages => exact .panicked _ ((h _).symm.trans hmessages)
    | read _ hmessages hreads => exact .read _ ((h _).symm.trans hmessages) hreads
  exact fun seen => ⟨hsees h seen, hsees (fun fuel => (h fuel).symm) seen⟩

/-! ## Options -/

theorem ReadOptions.finalize_finalize (ro : ReadOptions) : ro.finalize.finalize = ro.finalize := by
  unfold ReadOptions.finalize
  by_cases hstart : ro.startNanos = 0 ∧ 0 < ro.start
  · by_cases hend : ro.endNanos = 0 ∧ 0 < ro.end_
    · simp [hstart, hend]
    · simp [hstart, hend]
  · by_cases hend : ro.endNanos = 0 ∧ 0 < ro.end_
    · simp [hstart, hend]
    · simp [hstart, hend]

/-- What `Messages` reads with.  The fields of type `int64` are not used any more. -/
def ReadOptions.settled (ro : ReadOptions) : ReadOptions :=
  { ro.finalize with start := 0, end_ := 0 }

/-- The options that `Messages` reads with, unless they are refused. -/
def chosenOptions (opts : List ReadOpt) : Except Error ReadOptions :=
  (opts.foldlM (fun ro (opt : ReadOpt) => opt ro) ReadOptions.default).map ReadOptions.settled

section
variable {rt : Runtime} {r : Reader} {opts opts' : List ReadOpt}

/-- **`Messages` sees of its options only what is chosenOptions.** -/
theorem messages_congr (h : chosenOptions opts = chosenOptions opts') (D : Unpackers) (fuel : Nat) :
    r.messages D fuel opts = r.messages D fuel opts' := by
  unfold chosenOptions at h
  unfold Reader.messages
  generalize opts.foldlM (fun ro (opt : ReadOpt) => opt ro) ReadOptions.default = x at h ⊢
  generalize opts'.foldlM (fun ro (opt : ReadOpt) => opt ro) ReadOptions.default = x' at h ⊢
  cases x with
  | error e =>
    cases x' with
    | error e' =>
      cases h
      rfl
    | ok ro' => cases h
  | ok ro =>
    cases x' with
    | error e' => cases h
    | ok ro' =>
      have hfinal := Except.ok.inj h
      simp only [ReadOptions.settled, ReadOptions.mk.injEq, true_and] at hfinal
      obtain ⟨htopics, hindex, horder, hcallback, hstart, hend⟩ := hfinal
      have hindexed : r.indexedMessageIterator ro.finalize =
          r.indexedMessageIterator ro'.finalize := by
        simp only [Reader.indexedMessageIterator, ReadOptions.finalize_finalize, htopics, horder,
          hcallback, hstart, hend]
      have hunindexed : r.unindexedIterator ro.finalize = r.unindexedIterator ro'.finalize := by
        simp only [Reader.unindexedIterator, ReadOptions.finalize_finalize, htopics, hcallback,
          hstart, hend]
      simp only [hindex, horder, hindexed, hunindexed]

theorem sameMessages_of_chosenOptions (h : chosenOptions opts = chosenOptions opts') :
    SameMessages rt r opts opts' :=
  .of_eq (messages_congr h rt.unpackers)

theorem sees_of_chosenOptions {e : Error} (h : chosenOptions opts = .error e) :
    r.Sees rt opts (.refused (.failed e)) := by
  refine .failed 0 ?_
  unfold chosenOptions at h
  unfold Reader.messages
  generalize opts.foldlM (fun ro (opt : ReadOpt) => opt ro) ReadOptions.default = x at h ⊢
  cases x with
  | error e' =>
    cases h
    rfl
  | ok ro => cases h

theorem not_sees_of_chosenOptions {ro : ReadOptions} (h : chosenOptions opts = .ok ro) :
    ¬ r.Sees rt opts (.refused (.failed errEndBeforeStart)) := by
  intro hsees
  cases hsees with
  | failed fuel hmessages =>
    unfold chosenOptions at h
    unfold Reader.messages at hmessages
    generalize opts.foldlM (fun ro (opt : ReadOpt) => opt ro) ReadOptions.default = x
      at h hmessages
    cases x with
    | error e => cases h
    | ok options =>
      simp only at hmessages
      split at hmessages
      · split at hmessages
        · split at hmessages
          · cases hmessages
          · cases hmessages
          · cases hmessages
          · split at hmessages
            · cases hmessages
            · split at hmessages
              · simp [errEndBeforeStart] at hmessages
              · cases hmessages
        · simp [errEndBeforeStart] at hmessages
      · cases hmessages

end

/-! ## Ranges of times -/

section
variable {rt : Runtime} {r : Reader} {s e : Nat} {ro : ReadOptions} {start end_ : UInt64}
  {opt : ReadOpt}

/-- What `Messages` reads with in a range of times. -/
def inRange (start end_ : UInt64) : ReadOptions :=
  { ReadOptions.default with startNanos := start, endNanos := end_ }

/-- `math.MaxUint64`, the end by default. -/
def noEnd : UInt64 := .ofNat (2 ^ 64 - 1)

theorem not_noEnd_lt (t : UInt64) : ¬ noEnd < t := by
  have hlt := t.toNat_lt
  have hend : noEnd.toNat = 2 ^ 64 - 1 := rfl
  rw [UInt64.lt_iff_toNat_lt]
  omega

theorem ofNat_lt_ofNat_iff (hs : s < 2 ^ 63) (he : e < 2 ^ 63) :
    UInt64.ofNat e < UInt64.ofNat s ↔ e < s := by
  rw [UInt64.lt_iff_toNat_lt, UInt64.toNat_ofNat', UInt64.toNat_ofNat',
    Nat.mod_eq_of_lt (by omega), Nat.mod_eq_of_lt (by omega)]

theorem afterNanos_ok (h : ¬ ro.endNanos < start) :
    afterNanos start ro = .ok { ro with startNanos := start } := if_neg h

theorem beforeNanos_ok (h : ¬ end_ < ro.startNanos) :
    beforeNanos end_ ro = .ok { ro with endNanos := end_ } := if_neg h

theorem chosenOptions_two {opt' : ReadOpt} {ro' : ReadOptions} (h : opt .default = .ok ro)
    (h' : opt' ro = .ok ro') : chosenOptions [opt, opt'] = .ok ro'.settled := by
  unfold chosenOptions
  simp only [List.foldlM_cons, h]
  show Except.map _ (opt' ro >>= pure) = _
  rw [h']
  rfl

theorem chosenOptions_one (h : opt .default = .ok ro) :
    chosenOptions [opt] = .ok ro.settled := by
  unfold chosenOptions
  rw [List.foldlM_cons, h]
  rfl

theorem chosenOptions_refused {e : Error} (h : opt .default = .error e)
    (opts : List ReadOpt) : chosenOptions (opt :: opts) = .error e := by
  unfold chosenOptions
  rw [List.foldlM_cons, h]
  rfl

theorem settled_inRange (start end_ : UInt64) :
    (inRange start end_).settled = inRange start end_ := by
  have hunset : ∀ ro : ReadOptions, ro.start = 0 → ro.end_ = 0 → ro.finalize = ro := by
    rintro ⟨⟩ rfl rfl
    simp [ReadOptions.finalize]
  unfold ReadOptions.settled
  rw [hunset (inRange start end_) rfl rfl]
  rfl

theorem chosenOptions_afterNanos (t : UInt64) :
    chosenOptions [afterNanos t] = .ok (inRange t noEnd) :=
  (chosenOptions_one (afterNanos_ok (not_noEnd_lt t))).trans (congrArg _ (settled_inRange t noEnd))

theorem chosenOptions_afterNanos_beforeNanos (h : ¬ end_ < start) :
    chosenOptions [afterNanos start, beforeNanos end_] = .ok (inRange start end_) :=
  (chosenOptions_two (afterNanos_ok (not_noEnd_lt start)) (beforeNanos_ok h)).trans
    (congrArg _ (settled_inRange start end_))

theorem chosenOptions_beforeNanos_afterNanos (h : ¬ end_ < start) :
    chosenOptions [beforeNanos end_, afterNanos start] = .ok (inRange start end_) :=
  (chosenOptions_two (beforeNanos_ok (Nat.not_lt_zero _)) (afterNanos_ok h)).trans
    (congrArg _ (settled_inRange start end_))

theorem chosenOptions_after (hs : 0 < s) (opts : List ReadOpt) :
    chosenOptions (after s :: opts) = .error errEndBeforeStart :=
  chosenOptions_refused (if_pos (by show (0 : Int) < s; omega)) opts

/-! ## The forms of a range -/

/-- `Messages` yields the same with each of the forms of a range of times, in each order. -/
structure OptionsAgree (rt : Runtime) (r : Reader) (s e : Nat) : Prop where
  nanosReversed : SameMessages rt r [beforeNanos (.ofNat e), afterNanos (.ofNat s)]
    [afterNanos (.ofNat s), beforeNanos (.ofNat e)]
  both : SameMessages rt r [after s, before e] [afterNanos (.ofNat s), beforeNanos (.ofNat e)]
  reversed : SameMessages rt r [before e, after s] [afterNanos (.ofNat s), beforeNanos (.ofNat e)]
  after : SameMessages rt r [after s] [afterNanos (.ofNat s)]
  before : SameMessages rt r [before e] [beforeNanos (.ofNat e)]

theorem sameMessages_nanos (hse : s ≤ e) (he : e < 2 ^ 63) :
    SameMessages rt r [beforeNanos (.ofNat e), afterNanos (.ofNat s)]
      [afterNanos (.ofNat s), beforeNanos (.ofNat e)] := by
  have hle : ¬ UInt64.ofNat e < UInt64.ofNat s := by
    rw [ofNat_lt_ofNat_iff (by omega) he]
    omega
  exact sameMessages_of_chosenOptions
    ((chosenOptions_beforeNanos_afterNanos hle).trans
      (chosenOptions_afterNanos_beforeNanos hle).symm)

/-- **`Before` is ignored** behind options that it agrees with, unless the end has been set to 0. -/
theorem before_ignored (opts : List ReadOpt) (e : Int)
    (h : opts.foldlM (fun ro (opt : ReadOpt) => opt ro) ReadOptions.default = .ok ro)
    (hend : ro.endNanos ≠ 0) (hstart : ro.start ≤ e) : SameMessages rt r (opts ++ [before e]) opts := by
  refine sameMessages_of_chosenOptions ?_
  have hbefore : before e ro = .ok { ro with end_ := e } := if_neg (by omega)
  unfold chosenOptions
  rw [List.foldlM_append, h]
  show Except.map _ (before e ro >>= pure) = .ok ro.settled
  rw [hbefore]
  show Except.ok (ReadOptions.settled { ro with end_ := e }) = _
  by_cases hs : ro.startNanos = 0 ∧ 0 < ro.start <;>
    simp [ReadOptions.settled, ReadOptions.finalize, hend, hs]

theorem not_sameMessages_after (hs : 0 < s) :
    ¬ SameMessages rt r [after s] [afterNanos (.ofNat s)] := by
  intro h
  have hrefused := (h _).mp (sees_of_chosenOptions (chosenOptions_after hs []))
  exact not_sees_of_chosenOptions (chosenOptions_afterNanos _) hrefused

theorem not_sameMessages_both (hs : 0 < s) (hse : s ≤ e) (he : e < 2 ^ 63) :
    ¬ SameMessages rt r [after s, before e] [afterNanos (.ofNat s), beforeNanos (.ofNat e)] := by
  have hle : ¬ UInt64.ofNat e < UInt64.ofNat s := by
    rw [ofNat_lt_ofNat_iff (by omega) he]
    omega
  intro h
  have hrefused := (h _).mp (sees_of_chosenOptions (chosenOptions_after hs [before e]))
  exact not_sees_of_chosenOptions (chosenOptions_afterNanos_beforeNanos hle) hrefused

/-- **The forms of a range of times** agree on no file: those of type `uint64` commute, but
`After`, alone or in front of `Before`, is refused on every file. -/
theorem not_optionsAgree (rt : Runtime) (r : Reader) (hs : 0 < s) (hse : s ≤ e) (he : e < 2 ^ 63) :
    ¬ OptionsAgree rt r s e ∧
    SameMessages rt r [beforeNanos (.ofNat e), afterNanos (.ofNat s)]
      [afterNanos (.ofNat s), beforeNanos (.ofNat e)] ∧
    ¬ SameMessages rt r [after s] [afterNanos (.ofNat s)] ∧
    ¬ SameMessages rt r [after s, before e] [afterNanos (.ofNat s), beforeNanos (.ofNat e)] :=
  ⟨fun h => not_sameMessages_after hs h.after, sameMessages_nanos hse he,
    not_sameMessages_after hs, not_sameMessages_both hs hse he⟩

end

/-- The message of a file. -/
def onlyMessage : Message := ⟨0, 0, 1, 1, []⟩

/-- A reader of a file without a summary section, behind its header. -/
def onlyReader : Reader where
  lexer :=
    { source :=
        { bytes := MAGIC ++ frames
            [(op.HEADER, Header.body ⟨[], []⟩), (op.CHANNEL, Channel.body ⟨0, 0, [], [], ∅⟩),
              (op.MESSAGE, onlyMessage.body), (op.DATA_END, DataEnd.body ⟨0⟩),
              (op.FOOTER, u64 0 ++ (u64 0 ++ u32 0))] ++ MAGIC
          pos := 25
          seeks := true }
      reader := .base
      room := 0
      opts := { lexerOptions false false (fun _ => none) with emitChunks := true } }
  header := ⟨[], []⟩

theorem optionsAgree_onlyReader :
    ¬ OptionsAgree plainRuntime onlyReader 1 2 ∧
    SameMessages plainRuntime onlyReader [beforeNanos (.ofNat 2), afterNanos (.ofNat 1)]
      [afterNanos (.ofNat 1), beforeNanos (.ofNat 2)] ∧
    ¬ SameMessages plainRuntime onlyReader [after 1] [afterNanos (.ofNat 1)] ∧
    ¬ SameMessages plainRuntime onlyReader [after 1, before 2]
      [afterNanos (.ofNat 1), beforeNanos (.ofNat 2)] :=
  not_optionsAgree plainRuntime onlyReader (by decide) (by decide) (by decide)

theorem before_ignored_alone : SameMessages plainRuntime onlyReader [before 1] [] :=
  before_ignored [] 1 rfl (by decide) (by decide)

set_option maxRecDepth 8000 in
/-- **Deprecated options disagree** with the others: of a file with a message at log time 1, `After`
yields nothing but an error, and `Before` yields the message although it is not before 1. -/
theorem optionsAgree_fails :
    onlyReader.Sees plainRuntime [afterNanos 1]
      (.read [⟨none, ⟨0, 0, [], [], ∅⟩, onlyMessage⟩] (.failed .eof)) ∧
    onlyReader.Sees plainRuntime [after 1] (.refused (.failed errEndBeforeStart)) ∧
    onlyReader.Sees plainRuntime [beforeNanos 1] (.read [] (.failed .eof)) ∧
    onlyReader.Sees plainRuntime [before 1]
      (.read [⟨none, ⟨0, 0, [], [], ∅⟩, onlyMessage⟩] (.failed .eof)) ∧
    ¬ OptionsAgree plainRuntime onlyReader 1 1 := by
  refine ⟨.read 1 rfl ?_, .failed 0 rfl, .read 1 rfl ?_,
    .read 1 rfl ?_, fun h => not_sameMessages_after (by decide) h.after⟩
  · exact .yields 5 rfl (.failed 5 rfl)
  · exact .failed 5 rfl
  · exact .yields 5 rfl (.failed 5 rfl)

end Go
end Mcap
