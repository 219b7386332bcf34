import Mcap.SinkEnds
import Mcap.SummaryLayout

/-! # What a successful `finish` says about the sink

The calls on a stream that succeed do what they would do on one that never fails
(`Res.Follows`), so that a `finish` that writes the end of the file and succeeds has written all of
it.  But `finish` records the summary first, and a second call is answered from the record, also if
the first has failed.

`finish_truthful` is about runs in which `finish` is not called again on a writer that one of the
calls has failed to finish.
-/
namespace Mcap

/-! ## Calls that succeed -/

/-- If `x` succeeds then `y` does too, and its result is `g` of that of `x`. -/
def Res.Follows {ε ε' α β : Type} (x : Res ε α) (g : α → β) (y : Res ε' β) : Prop :=
  ∀ a, x = .ok a → y = .ok (g a)

namespace Res.Follows
variable {ε ε' α β α' β' : Type} {x : Res ε α} {g : α → β} {y : Res ε' β}

theorem bind {k : α → Res ε α'} {g' : α' → β'} {k' : β → Res ε' β'} (hx : x.Follows g y)
    (hk : ∀ a, (k a).Follows g' (k' (g a))) : (x >>= k).Follows g' (y >>= k') := by
  intro b hb
  obtain ⟨a, ha, hb⟩ := Res.bind_eq_ok.mp hb
  rw [hx a ha]
  exact hk a b hb

theorem ok {a : α} : (Res.ok a : Res ε α).Follows g (Res.ok (g a) : Res ε' β) := by
  rintro _ ⟨⟩
  rfl

theorem panic : (Res.panic : Res ε α).Follows g y := by
  rintro _ ⟨⟩

end Res.Follows

namespace Stream
variable {s s' : Stream} {b : Bytes} {n : Nat}

/-- The stream, if nothing fails from now on. -/
def sound (s : Stream) : Stream := { s with faults := [] }

theorem sound_poll (s : Stream) : s.poll.2.sound = s.sound := by
  unfold poll
  split <;> rfl

theorem writeAll_sound (h : writeAll s b = .ok s') : writeAll s.sound b = .ok s'.sound := by
  rw [writeAll_eq] at h ⊢
  split at h
  · cases h
    rw [if_pos ‹_›]
  · rw [if_neg ‹_›]
    have hs := sound_poll s
    rcases hp : s.poll with ⟨_ | f, t⟩ <;> rw [hp] at h hs <;> cases h
    show Except.ok (s.sound.put b) = _
    rw [← hs]
    rfl

theorem streamPosition_sound (h : streamPosition s = .ok (n, s')) :
    streamPosition s.sound = .ok (n, s'.sound) := by
  obtain ⟨rfl, hb, hpos⟩ := moved_of_streamPosition h
  have hsame : s'.sound = s.sound := by
    rw [sound, sound, hb, hpos]
  rw [hsame]
  rfl

theorem AtEnd.sound_eq {front : Bytes} (h : s.AtEnd front) : s.sound = tape s.bytes := by
  rw [sound, h.pos]
  rfl

end Stream

namespace CountingCrcWriter

/-- The writer, if nothing fails from now on. -/
def sound (c : CountingCrcWriter Stream) : CountingCrcWriter Stream := { c with inner := c.inner.sound }

theorem writeAll_sound {c c' : CountingCrcWriter Stream} {b : Bytes} (h : writeAll c b = .ok c') :
    writeAll c.sound b = .ok c'.sound := by
  rw [writeAll_eq] at h
  rcases hi : writeAll c.inner b with ⟨f, t⟩ | t <;> rw [hi] at h <;> cases h
  exact writeAll_ok (c := c.sound) (Stream.writeAll_sound hi)

theorem position_sound (c : CountingCrcWriter Stream) :
    (Mcap.position c).Follows (fun r => (r.1, r.2.sound)) (Mcap.position c.sound) := by
  rintro ⟨n, c'⟩ h
  have hp := position_eq_ok.mp h
  rw [streamPosition_eq] at hp
  rcases hi : streamPosition c.inner with ⟨e, t⟩ | ⟨m, t⟩ <;> rw [hi] at hp <;> cases hp
  exact position_eq_ok.mpr (streamPosition_ok (c := c.sound) (Stream.streamPosition_sound hi))

theorem write_sound (c : CountingCrcWriter Stream) (b : Bytes) :
    (write c b).Follows sound (write c.sound b) :=
  fun _ h => write_eq_ok.mpr (writeAll_sound (write_eq_ok.mp h))

theorem writeRecord_sound (c : CountingCrcWriter Stream) (r : Record) :
    (writeRecord c r).Follows sound (writeRecord c.sound r) := by
  unfold writeRecord
  split
  · exact write_sound c _
  · exact .panic

end CountingCrcWriter

/-! ## The end of a file -/

namespace SummaryWriter

/-- The records so far, if nothing fails from now on. -/
def sound (s : SummaryWriter Stream) : SummaryWriter Stream := { s with ccw := s.ccw.sound }

theorem writeRecords_sound (records : List Record) (c : CountingCrcWriter Stream) :
    (writeRecords records c).Follows CountingCrcWriter.sound (writeRecords records c.sound) := by
  induction records generalizing c with
  | nil => exact .ok
  | cons r records ih => exact (c.writeRecord_sound r).bind ih

theorem writeGroup_sound (s : SummaryWriter Stream) (enabled : Bool) (opcode : UInt8)
    (records : List Record) :
    (s.writeGroup enabled opcode records).Follows sound (s.sound.writeGroup enabled opcode records) := by
  unfold writeGroup
  split
  · exact (writeRecords_sound records s.ccw).bind fun c => c.position_sound.bind fun r => .ok
  · exact .ok

theorem writeStatistics_sound (s : SummaryWriter Stream) (enabled : Bool) (stats : Option Statistics) :
    (s.writeStatistics enabled stats).Follows sound (s.sound.writeStatistics enabled stats) := by
  unfold writeStatistics
  split
  · exact s.writeGroup_sound _ _ _
  · split
    · exact .panic
    · exact .ok

theorem writeOffsets_sound (s : SummaryWriter Stream) (enabled : Bool) :
    (s.writeOffsets enabled).Follows CountingCrcWriter.sound (s.sound.writeOffsets enabled) := by
  unfold writeOffsets
  split
  · exact writeRecords_sound _ s.ccw
  · exact .ok

end SummaryWriter

section
variable {order : HashOrder} {summary : Summary} {o : WriteOptions}

theorem writeGroups_sound (s : SummaryWriter Stream) :
    (writeGroups order summary o s).Follows SummaryWriter.sound
      (writeGroups order summary o s.sound) :=
  (s.writeGroup_sound _ _ _).bind fun s => (s.writeGroup_sound _ _ _).bind fun s =>
    (s.writeStatistics_sound _ _).bind fun s => (s.writeGroup_sound _ _ _).bind fun s =>
      (s.writeGroup_sound _ _ _).bind fun s => s.writeGroup_sound _ _ _

theorem writeOffsetsAndFooter_sound (summaryStart : Nat) (s : SummaryWriter Stream) :
    (writeOffsetsAndFooter summaryStart o s).Follows CountingCrcWriter.sound
      (writeOffsetsAndFooter summaryStart o s.sound) :=
  (s.writeOffsets_sound _).bind fun c => (c.write_sound _).bind fun c => c.write_sound _

theorem underCcw_follows {α β : Type} {x : Res (McapError × CountingCrcWriter Stream) α}
    {y : Res (McapError × CountingCrcWriter Stream) β} {g : α → β} (h : x.Follows g y) :
    (underCcw x).Follows g (underCcw y) := by
  intro a ha
  rcases x with a' | e | _ <;> cases ha
  rw [h a rfl]
  rfl

theorem write_sound (s : Stream) (b : Bytes) : (write s b).Follows Stream.sound (write s.sound b) :=
  fun _ h => write_eq_ok.mpr (Stream.writeAll_sound (write_eq_ok.mp h))

theorem writeSummaryAndFooterMagic_sound (s : Stream) :
    (writeSummaryAndFooterMagic order s summary o).Follows Stream.sound
      (writeSummaryAndFooterMagic order s.sound summary o) := by
  have hpos : (position s).Follows (fun r => (r.1, r.2.sound)) (position s.sound) :=
    fun _ h => position_eq_ok.mpr (Stream.streamPosition_sound (position_eq_ok.mp h))
  refine hpos.bind fun r => ?_
  refine (underCcw_follows (writeGroups_sound ⟨CountingCrcWriter.new r.2 o.calculateSummarySectionCrc, r.1, []⟩)).bind
    fun s => ?_
  refine (underCcw_follows (writeOffsetsAndFooter_sound r.1 s)).bind fun c => ?_
  exact (write_sound c.inner _).bind fun s => write_sound s MAGIC

/-- **What a successful end of a file has written.** -/
theorem bytes_of_writeEnd {front : Bytes} {c c' : CountingCrcWriter Stream} (h : c.inner.AtEnd front)
    (hstats : o.emitStatistics = true → summary.stats ≠ none)
    (hw : Writer.writeEnd order summary o c = .ok ((), c')) :
    c'.inner.bytes = (sectionOf o c.inner.bytes ⟨c.currentChecksum⟩
      (summaryGroups o order summary)).bytes := by
  unfold Writer.writeEnd at hw
  simp only at hw
  split at hw
  case h_1 inner hwritten =>
    cases hw
    obtain ⟨s, hrecord, hsummary⟩ := Res.bind_eq_ok.mp hwritten
    have hdataEnd : (Record.dataEnd ⟨c.currentChecksum⟩).written =
        some (Record.dataEnd ⟨c.currentChecksum⟩).frame := rfl
    have hs : s.sound = Stream.tape (c.inner.bytes ++ (Record.dataEnd ⟨c.currentChecksum⟩).frame) := by
      have hsound := write_sound c.inner _ s (by rwa [writeRecord, hdataEnd] at hrecord)
      rw [h.sound_eq, write_of_writeAll (Stream.writeAll_tape _ _)] at hsound
      exact (Res.ok.inj hsound).symm
    have hend := writeSummaryAndFooterMagic_sound s inner hsummary
    rw [hs, writeSummaryAndFooterMagic_wrote hstats] at hend
    have hbytes := congrArg Stream.bytes (Res.ok.inj hend)
    rw [bytes_sectionOf]
    exact hbytes.symm
  all_goals cases hw

end

/-- What the stream of a new writer begins with. -/
abbrev fileStart (o : WriteOptions) : Bytes :=
  MAGIC ++ (Record.header { profile := o.profile, library := o.library }).frame

/-- **The bytes of a complete file**: a data section that begins as the writer begins a file, the
end of the data section, the summary section of `summary`, the footer and the magic. -/
structure CompleteFile (o : WriteOptions) (order : HashOrder) (summary : Summary) (bytes : Bytes)
    (s : SummarySection) : Prop where
  whole : bytes = s.bytes
  starts : fileStart o <+: s.data
  groups : s.groups = summaryGroups o order summary
  laid : bytes.length < 2 ^ 64 → s.Laid o

theorem completeFile_sectionOf {o : WriteOptions} {data : Bytes} (order : HashOrder)
    (summary : Summary) (dataEnd : DataEnd)
    (h : fileStart o <+: data) :
    CompleteFile o order summary (sectionOf o data dataEnd (summaryGroups o order summary)).bytes
      (sectionOf o data dataEnd (summaryGroups o order summary)) where
  whole := rfl
  starts := h
  groups := rfl
  laid hlen := laid_sectionOf sorted_summaryGroups nodup_summaryGroups hlen

/-! ## `finish` -/

namespace Writer
variable {σ : Type} [Encoders σ] {o : WriteOptions} {w w' : Writer σ Stream} {order : HashOrder}

omit [Encoders σ] in
/-- The writer has been finished, and its sink holds a complete file. -/
def Completed (o : WriteOptions) (summary : Summary) (w : Writer σ Stream) : Prop :=
  ∃ c order s, w.Closed summary c ∧ CompleteFile o order summary c.inner.bytes s

omit [Encoders σ] in
theorem flushed_bytes {c c' : CountingCrcWriter Stream}
    (h : (∃ a, flushRaw c = .ok (a, c')) ∨ ∃ e, flushRaw c = .err (e, c')) :
    c'.inner.bytes = c.inner.bytes := by
  unfold flushRaw at h
  simp only [Flush.flush] at h
  rcases hf : c.inner.flush with ⟨e, t⟩ | t <;> simp only [hf] at h <;>
    rcases h with ⟨_, h⟩ | ⟨e, h⟩ <;> cases h
  · exact (Stream.of_moved_error hf).1
  · exact Stream.bytes_of_moved hf

omit [Encoders σ] in
theorem end_of_closed {c : CountingCrcWriter Stream} {summary : Summary}
    (h : w.Closed summary c) (hc : c.inner.AtEnd (fileStart o))
    (hstats : o.emitStatistics = true → summary.stats ≠ none) {r : Res McapError Summary}
    (hrun : (onRaw (writeEnd order summary o) >>= fun _ => onRaw flushRaw >>= fun _ =>
      pure summary) w = (r, w')) (hr : r ≠ .panic) :
    ∃ c', w'.Closed summary c' ∧ ∀ summary', r = .ok summary' →
      summary' = summary ∧ w'.Completed o summary := by
  rcases hend : writeEnd order summary o c with ⟨⟨⟩, c₁⟩ | ⟨e, c₁⟩ | _ <;>
    simp only [Exec.bind_run, onRaw, h.slot, hend] at hrun
  case panic =>
    cases hrun
    exact absurd rfl hr
  case err =>
    cases hrun
    exact ⟨c₁, ⟨h.finished, rfl⟩, fun _ hok => by cases hok⟩
  have hbytes := bytes_of_writeEnd hc hstats hend
  rcases hflush : flushRaw c₁ with ⟨⟨⟩, c₂⟩ | ⟨e, c₂⟩ | _ <;> simp only [hflush] at hrun <;> cases hrun
  · refine ⟨c₂, ⟨h.finished, rfl⟩, ?_⟩
    rintro summary' ⟨⟩
    have hcomplete := completeFile_sectionOf order summary ⟨c.currentChecksum⟩ hc.starts
    rw [← hbytes, ← flushed_bytes (.inl ⟨_, hflush⟩)] at hcomplete
    exact ⟨rfl, c₂, order, _, ⟨h.finished, rfl⟩, hcomplete⟩
  · exact ⟨c₂, ⟨h.finished, rfl⟩, fun _ hok => by cases hok⟩
  · exact absurd rfl hr

omit [Encoders σ] in
theorem live_takeSummary {front : Bytes} : Exec.Preserves (Live front [] o) (takeSummary (σ := σ)) := by
  intro w h
  rw [takeSummary, Exec.bind_ok (Exec.get_run w)]
  rcases w.summarySchemas with _ | schemas
  · exact h
  · simp only
    rcases w.summaryChannels schemas with _ | channels
    · exact h
    · exact ⟨h.atEnd, h.unfinished, h.options, List.nil_prefix⟩

/-- **A writer that is not finished is finished**: if that fails, it is as before, or closed. -/
theorem finish_live (h : w.Live (fileStart o) [] o) {r : Res McapError Summary}
    (hrun : finish order w = (r, w')) (hr : r ≠ .panic) :
    (w'.Live (fileStart o) [] o ∧ ∀ summary, r ≠ .ok summary) ∨
      ∃ summary c, w'.Closed summary c ∧ ∀ summary', r = .ok summary' →
        summary' = summary ∧ w'.Completed o summary := by
  rw [finish, Exec.bind_ok (Exec.get_run w)] at hrun
  simp only [h.unfinished] at hrun
  have hlive₁ := live_finishChunk w h
  rcases hfc : finishChunk w with ⟨u | e | _, w₁⟩ <;> rw [hfc] at hlive₁
  · rw [Exec.bind_ok hfc] at hrun
    have hlive₂ := live_takeSummary w₁ hlive₁
    rcases hts : takeSummary w₁ with ⟨summary | e | _, w₂⟩ <;> rw [hts] at hlive₂
    · rw [Exec.bind_ok hts, Exec.bind_ok (Exec.modify_run _ _)] at hrun
      obtain ⟨schemas, channels, -, -, hsum, hw₂, -⟩ := takeSummary_eq_ok hts
      rcases hmode : w₂.writer with _ | (c | c | a | s)
      case some.raw =>
        have hc : c.inner.AtEnd (fileStart o) := hlive₂.atEnd _ hmode
        rw [h.options] at hrun
        have hstats : o.emitStatistics = true → summary.stats ≠ none := by
          rw [hsum]
          exact fun _ => Option.some_ne_none _
        obtain ⟨c', hclosed, hok⟩ := end_of_closed
          (w := { w₂ with finishedSummary := some summary }) ⟨rfl, hmode⟩ hc hstats hrun hr
        exact .inr ⟨summary, c', hclosed, hok⟩
      all_goals
        rw [Exec.bind_panic (show onRaw _ _ = (.panic, _) by simp only [onRaw, hmode]; rfl)] at hrun
        cases hrun
        exact absurd rfl hr
    · rw [Exec.bind_err hts] at hrun
      cases hrun
      exact .inl ⟨hlive₂, fun _ hok => by cases hok⟩
    · rw [Exec.bind_panic hts] at hrun
      cases hrun
      exact absurd rfl hr
  · rw [Exec.bind_err hfc] at hrun
    cases hrun
    exact .inl ⟨hlive₁, fun _ hok => by cases hok⟩
  · rw [Exec.bind_panic hfc] at hrun
    cases hrun
    exact absurd rfl hr

end Writer

/-! ## Runs that finish -/

/-- A call of a run, and what it came to. -/
inductive Event
  | call (op : Op) (r : Res McapError Reply)
  | finish (order : HashOrder) (r : Res McapError Summary)

namespace Writer
variable {σ : Type} [Encoders σ] {o : WriteOptions} {w w' : Writer σ Stream}

/-- **Runs of a writer on an empty sink that may fail at any call**, with what has been called so
far.  `finish` is called only where `guard` holds. -/
inductive Runs (guard : List Event → Writer σ Stream → Prop) (o : WriteOptions) :
    List Event → Writer σ Stream → Prop
  | start {faults : List (Option Fault)} {w : Writer σ Stream} :
      withOptions ⟨[], 0, faults⟩ o = .ok w → Runs guard o [] w
  | call {log : List Event} {w w' : Writer σ Stream} {r : Res McapError Reply} (op : Op) :
      Runs guard o log w → op.run w = (r, w') → r ≠ .panic → Runs guard o (log ++ [.call op r]) w'
  | finish {log : List Event} {w w' : Writer σ Stream} {r : Res McapError Summary}
      (order : HashOrder) : Runs guard o log w → guard log w → finish order w = (r, w') →
      r ≠ .panic → Runs guard o (log ++ [.finish order r]) w'

/-- A call of `finish` in the log has returned this summary. -/
def Finished (log : List Event) (summary : Summary) : Prop :=
  ∃ order, .finish order (.ok summary) ∈ log

omit [Encoders σ] in
/-- **`finish` is not called again after it has failed**: if a summary is on record, a call of
`finish` has returned it. -/
def NotRetried (log : List Event) (w : Writer σ Stream) : Prop :=
  w.finishedSummary ≠ none → ∃ summary, Finished log summary

variable {guard : List Event → Writer σ Stream → Prop} {log : List Event} {summary : Summary}

theorem Runs.reaches (h : Runs guard o log w) : Reaches w := by
  induction h with
  | start h => exact .start h
  | call op _ hrun hr ih => exact .call op ih hrun hr
  | finish order _ _ hrun hr ih => exact .finish order ih hrun hr

theorem finished_call {op : Op} {r : Res McapError Reply} :
    Finished (log ++ [.call op r]) summary ↔ Finished log summary := by
  simp [Finished]

theorem finished_finish {order : HashOrder} {r : Res McapError Summary} :
    Finished (log ++ [.finish order r]) summary ↔ Finished log summary ∨ r = .ok summary := by
  unfold Finished
  constructor
  · rintro ⟨order', hm⟩
    rcases List.mem_append.mp hm with hm | hm
    · exact .inl ⟨order', hm⟩
    · cases List.mem_singleton.mp hm
      exact .inr rfl
  · rintro (⟨order', hm⟩ | rfl)
    · exact ⟨order', List.mem_append_left _ hm⟩
    · exact ⟨order, List.mem_append_right _ (List.mem_singleton_self _)⟩

/-- **Where a run can be**: no call of `finish` has succeeded, or the writer is closed, and what
was returned is on record, behind a complete file. -/
inductive Standing (o : WriteOptions) (log : List Event) (w : Writer σ Stream) : Prop
  | live : w.Live (fileStart o) [] o → (∀ summary, ¬ Finished log summary) → Standing o log w
  | closed {summary : Summary} {c : CountingCrcWriter Stream} : w.Closed summary c →
      (∀ summary', Finished log summary' → summary' = summary ∧ w.Completed o summary) →
      Standing o log w

omit [Encoders σ] in
theorem live_withOptions {faults : List (Option Fault)}
    (h : withOptions ⟨[], 0, faults⟩ o = .ok w) : w.Live (fileStart o) [] o := by
  obtain ⟨c₁, hmagic, h⟩ := Res.bind_eq_ok.mp h
  obtain ⟨c₂, hheader, h⟩ := Res.bind_eq_ok.mp h
  obtain ⟨mode, -, h⟩ := Res.bind_eq_ok.mp h
  cases h
  have h₁ := Stream.writeAll_sound (CountingCrcWriter.inner_writeAll
    (write_eq_ok.mp (dropWriter_eq_ok.mp hmagic)))
  rw [show Stream.sound _ = Stream.tape [] from rfl, Stream.writeAll_tape, List.nil_append] at h₁
  have h₂ := Stream.writeAll_sound (CountingCrcWriter.inner_writeAll
    (write_eq_ok.mp (dropWriter_eq_ok.mp hheader)))
  rw [← Except.ok.inj h₁, Stream.writeAll_tape] at h₂
  have hend : c₂.inner.AtEnd (fileStart o) := by
    have hbytes := congrArg Stream.bytes (Except.ok.inj h₂)
    have hpos := congrArg Stream.pos (Except.ok.inj h₂)
    exact ⟨⟨[], by rw [List.append_nil]; exact hbytes⟩, by
      rw [← show _ = c₂.inner.bytes from hbytes]; exact hpos.symm⟩
  exact ⟨by rintro mode ⟨⟩; exact hend, rfl, rfl, List.nil_prefix⟩

omit [Encoders σ] in
theorem Completed.of_closed {c : CountingCrcWriter Stream} (h : w.Completed o summary)
    (hc : w.Closed summary c) (hc' : w'.Closed summary c) :
    w'.Completed o summary := by
  obtain ⟨c', order, s, hclosed, hcomplete⟩ := h
  obtain rfl : c' = c := by
    have hslot := hclosed.slot.symm.trans hc.slot
    cases hslot
    rfl
  exact ⟨c', order, s, hc', hcomplete⟩

/-- **Runs that do not call `finish` again after it has failed.** -/
theorem Runs.standing (h : Runs (σ := σ) NotRetried o log w) : Standing o log w := by
  induction h with
  | start h => exact .live (live_withOptions h) (by simp [Finished])
  | call op hw hrun hr ih =>
    rcases ih with ⟨hlive, hnone⟩ | ⟨hclosed, hok⟩
    · have h := slotted_live.run op hw.reaches.sound hlive
      rw [hrun] at h
      exact .live h fun summary hf => hnone summary (finished_call.mp hf)
    · have h := slotted_closed.run op hw.reaches.sound hclosed
      rw [hrun] at h
      refine .closed h fun summary' hf => ?_
      obtain ⟨heq, hcomplete⟩ := hok summary' (finished_call.mp hf)
      exact ⟨heq, hcomplete.of_closed hclosed h⟩
  | finish order hw hguard hrun hr ih =>
    rcases ih with ⟨hlive, hnone⟩ | ⟨hclosed, hok⟩
    · rcases finish_live hlive hrun hr with ⟨hlive', hne⟩ | ⟨summary, c, hclosed, hok⟩
      · refine .live hlive' fun summary hf => ?_
        rcases finished_finish.mp hf with hf | hf
        · exact hnone summary hf
        · exact hne summary hf
      · refine .closed hclosed fun summary' hf => ?_
        rcases finished_finish.mp hf with hf | hf
        · exact absurd hf (hnone summary')
        · exact hok summary' hf
    · -- the answer comes from the record, and a call before this one has given it
      rw [Writer.finish, Exec.bind_ok (Exec.get_run _)] at hrun
      simp only [hclosed.finished] at hrun
      cases hrun
      refine .closed hclosed fun summary' hf => ?_
      obtain ⟨summary₀, hf₀⟩ := hguard (by rw [hclosed.finished]; exact Option.some_ne_none _)
      rcases finished_finish.mp hf with hf | hf
      · exact hok summary' hf
      · cases hf
        exact ⟨rfl, (hok summary₀ hf₀).2⟩

/-- **`finish` is truthful** if it is not called again after it has failed: once a call of it has
returned a summary, the sink holds a complete file with that summary. -/
theorem finish_truthful (h : Runs (σ := σ) NotRetried o log w) :
    ∀ summary, Finished log summary → w.Completed o summary := by
  intro summary hf
  rcases h.standing with ⟨-, hnone⟩ | ⟨-, hok⟩
  · exact absurd hf (hnone summary)
  · obtain ⟨rfl, hcomplete⟩ := hok summary hf
    exact hcomplete

/-- A new writer is finished, and `finish` is called once more. -/
theorem finish_truthful_twice : ∃ (w : Writer Empty Stream) (summary : Summary),
    w.Completed plainOptions summary := by
  have hnew : withOptions (σ := Empty) (⟨[], 0, []⟩ : Stream) plainOptions = .ok _ := rfl
  have hstart : Runs NotRetried plainOptions [] _ := .start hnew
  have hfirst := hstart.finish .byId (fun h => absurd rfl h) (r := .ok _) rfl (by simp)
  have hsecond := Runs.finish .byId hfirst (fun _ => ⟨_, finished_finish.mpr (.inr rfl)⟩)
    (r := .ok _) rfl (by simp)
  exact ⟨_, _, finish_truthful hsecond _ (finished_finish.mpr (.inr rfl))⟩

/-- **A `finish` that is not truthful**: the sink fails at the end of the data section, and the
second call answers that all is well. -/
theorem finish_untruthful : ¬ ∀ (o : WriteOptions) (log : List Event) (w : Writer Empty Stream),
    Runs (fun _ _ => True) o log w → ∀ summary, Finished log summary → w.Completed o summary := by
  intro h
  have hnew : withOptions (σ := Empty) (⟨[], 0, [none, none, some ⟨0, ⟨28⟩⟩]⟩ : Stream) plainOptions =
    .ok _ := rfl
  have hstart : Runs (fun _ _ => True) plainOptions [] _ := .start hnew
  have hfirst := hstart.finish .byId trivial (r := .err _) rfl (by simp)
  have hsecond := Runs.finish .byId hfirst trivial (r := .ok _) rfl (by simp)
  obtain ⟨c, order, s, hclosed, hcomplete⟩ :=
    h _ _ _ hsecond _ (finished_finish.mpr (.inr rfl))
  -- the sink has nothing but the magic and the header
  have hsink : c.inner.bytes = fileStart plainOptions := by
    have hslot := hclosed.slot
    cases hslot
    rfl
  have hlen := hcomplete.starts.length_le
  rw [← hsink, hcomplete.whole] at hlen
  simp only [SummarySection.bytes, SummarySection.front, List.length_append, Record.frame,
    length_frame] at hlen
  omega

end Writer
end Mcap
